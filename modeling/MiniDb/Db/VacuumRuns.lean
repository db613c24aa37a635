import MiniDb.Db.Vacuum

/-! # VACUUM in runs

  The rest of the database does not see the transaction that VACUUM takes for
  itself, so every SELECT, with the subqueries it runs first, answers as
  before. -/

namespace MiniDb

open Framework List Function

/-! ### Statements over the same rows -/

/-- Tables of one name give the same rows. -/
def SameTables (db db' : Database) : Prop :=
  ∀ name, Option.Rel (SameRows db.toTxnState db'.toTxnState) (find_table db name) (find_table db' name)

section SameTables

variable {db db' : Database}

/-- Two runs whose parts agree. -/
theorem Tested.bind_congr {α β : Type} {x x' : Tested α} {f f' : α → Tested β}
    (hx : x'.result = x.result) (hf : ∀ a, (f' a).result = (f a).result) :
    (x' >>= f').result = (x >>= f).result := by
  rw [Tested.bind_result, Tested.bind_result, hx]
  exact congrArg _ (funext hf)

mutual

/-- Subqueries scan tables, and the scans find the same rows. -/
theorem run_subquery_same (h : SameTables db db') :
    ∀ sub : SelectStmt, (run_subquery db' sub).result = (run_subquery db sub).result
  | ⟨_, table, as_name, joins, _, select_star, items, _, _, group_col, _, _, _, filter, _, _, _⟩ => by
    have hw := prepare_where_same h filter
    unfold run_subquery
    cases subquery_item joins select_star items group_col with
    | none => rfl
    | some it =>
      have htable := h table
      revert htable
      generalize find_table db table = o
      generalize find_table db' table = o'
      rintro (⟨hrows⟩ | _)
      · refine Tested.bind_congr hw fun w => ?_
        rw [hrows.schema]
        split
        · rfl
        · unfold sub_scan
          dsimp only
          rw [hrows.scan]
      · rfl

theorem run_sub_same (h : SameTables db db') :
    ∀ sub : Option SelectStmt, (run_sub db' sub).result = (run_sub db sub).result
  | none => rfl
  | some sub => run_subquery_same h sub

theorem prepare_cond_same (h : SameTables db db') :
    ∀ c : Condition, (prepare_cond db' c).result = (prepare_cond db c).result
  | ⟨tbl, col, op, val, in_sub, in_negate, scalar_sub, sub, in_set⟩ => by
    have hsub := run_sub_same h sub
    unfold prepare_cond
    split
    · exact Tested.bind_congr hsub fun _ => rfl
    · rfl

theorem prepare_group_same (h : SameTables db db') :
    ∀ g : List Condition, (prepare_group db' g).result = (prepare_group db g).result
  | [] => rfl
  | c :: cs => Tested.bind_congr (prepare_cond_same h c) fun _ =>
      Tested.bind_congr (prepare_group_same h cs) fun _ => rfl

theorem prepare_where_same (h : SameTables db db') :
    ∀ w : List (List Condition), (prepare_where db' w).result = (prepare_where db w).result
  | [] => rfl
  | g :: gs => Tested.bind_congr (prepare_group_same h g) fun _ =>
      Tested.bind_congr (prepare_where_same h gs) fun _ => rfl

end

/-- A SELECT on one table answers the same where its own id is the current one. -/
theorem SameTables.select (h : SameTables db db') (hcur : db.cur_txn = db.own_txn)
    (hcur' : db'.cur_txn = db'.own_txn) {sel : SelectStmt} (hjoins : sel.joins = [])
    (hstar : sel.select_star = true) :
    (db_exec db' (.select sel)).2.ok = (db_exec db (.select sel)).2.ok ∧
      (db_exec db' (.select sel)).2.rows = (db_exec db (.select sel)).2.rows := by
  have hon : ∀ db : Database, db.cur_txn = db.own_txn → (db.on fun d => d.set_cur d.own_txn) = db := by
    intro db hdb
    show { db with toTxnState := db.toTxnState.set_cur db.own_txn } = db
    rw [← hdb]
    rfl
  have hprep : (prepare_stmt db' (.select sel)).result = (prepare_stmt db (.select sel)).result :=
    Tested.bind_congr (prepare_where_same h sel.filter) fun _ => rfl
  unfold db_exec
  dsimp only
  rw [hprep]
  cases hst : (prepare_stmt db (.select sel)).result with
  | none => exact ⟨rfl, rfl⟩
  | some st =>
    -- preparing changes the filter only
    have hsel : ∃ w, st = .select { sel with filter := w } := by
      change (prepare_where db sel.filter >>= fun w =>
        (pure (.select { sel with filter := w }) : Tested Statement)).result = some st at hst
      rw [Tested.bind_result, Option.bind_eq_some_iff] at hst
      obtain ⟨w, -, hw⟩ := hst
      exact ⟨w, (Option.some.inj hw).symm⟩
    obtain ⟨w, rfl⟩ := hsel
    show (exec_select (db'.on fun d => d.set_cur d.own_txn) _).ok =
        (exec_select (db.on fun d => d.set_cur d.own_txn) _).ok ∧
      (exec_select (db'.on fun d => d.set_cur d.own_txn) _).rows =
        (exec_select (db.on fun d => d.set_cur d.own_txn) _).rows
    rw [hon db hcur, hon db' hcur']
    unfold exec_select
    simp only [hjoins, isEmpty_nil, Bool.not_true, Bool.false_eq_true, if_false]
    have htable := h sel.table
    revert htable
    generalize find_table db sel.table = o
    generalize find_table db' sel.table = o'
    rintro (⟨hrows⟩ | _)
    · exact hrows.select hstar
    · exact ⟨rfl, rfl⟩

end SameTables

/-! ### The current id between statements -/

/-- The current id is the one of an open transaction, or none. -/
def CurOpen (d : TxnState) : Prop :=
  d.cur_txn = 0 ∨ ∃ i, (d.sessions i).in_txn = true ∧ (d.sessions i).txn = d.cur_txn

theorem CurOpen.of_own {d d' : TxnState} (hs : d'.sessions = d.sessions)
    (hc : d'.cur_txn = d.own_txn) :
    CurOpen d' := by
  unfold CurOpen
  rw [hs, hc]
  unfold TxnState.own_txn
  split
  · next hin => exact .inr ⟨d.cur_session, hin, rfl⟩
  · exact .inl rfl

theorem exec_end_cur (db : Database) (ok : Bool) :
    CurOpen (exec_end (db.on fun d => d.set_cur d.own_txn) ok).1.toTxnState := by
  unfold exec_end
  split
  · exact .of_own (d := db.toTxnState) rfl rfl
  · exact .inl rfl

theorem exec_prepared_cur (db : Database) (st : Statement) : CurOpen
    (exec_prepared db st).1.toTxnState := by
  unfold exec_prepared
  split
  · next hw =>
    have hc := is_control_of_is_write hw
    split
    · unfold exec_autocommit
      dsimp only
      split
      · exact .of_own (d := db.toTxnState) rfl rfl
      · refine .of_own (d := db.toTxnState) ?_ rfl
        show (end_txn _ _ _).sessions = _
        rw [end_txn_txn, exec_stmt_txn _ hc]
        rfl
    · next hin =>
      have hin : db.session.in_txn = true := by
        simp only [Bool.or_eq_true, Bool.not_eq_true', not_or, Bool.not_eq_false] at hin
        exact hin.1
      unfold exec_in_txn
      dsimp only
      split
      · exact .inr ⟨db.cur_session, hin, rfl⟩
      · rw [exec_stmt_txn _ hc]
        exact .inr ⟨db.cur_session, hin, rfl⟩
  · cases st with
    | begin =>
      show CurOpen (exec_begin _).1.toTxnState
      unfold exec_begin
      split
      · exact .of_own (d := db.toTxnState) rfl rfl
      · refine .inr ⟨db.cur_session, ?_⟩
        show (update db.sessions db.cur_session _ db.cur_session).in_txn = true ∧ _
        rw [update_self]
        exact ⟨rfl, congrArg DbSession.txn (update_self db.cur_session _ db.sessions)⟩
    | commit => exact exec_end_cur db true
    | rollback => exact exec_end_cur db false
    | session n =>
      show CurOpen (exec_session _ n).1.toTxnState
      unfold exec_session
      split <;> exact .of_own (d := db.toTxnState) rfl rfl
    | _ =>
      rw [exec_stmt_txn _ rfl]
      exact .of_own (d := db.toTxnState) rfl rfl

theorem CurOpen.exec {db : Database} (h : CurOpen db.toTxnState) (st : Statement) :
    CurOpen (db_exec db st).1.toTxnState := by
  unfold db_exec
  dsimp only
  split
  · exact h
  · exact exec_prepared_cur db _

/-- Outside transactions there is none. -/
theorem CurOpen.closed {d : TxnState} (h : CurOpen d) (hinv : TxnInv d) (hclosed : AllClosed d) :
    d.cur_txn = 0 := by
  rcases h with h0 | ⟨i, hin, -⟩
  · exact h0
  · rw [hclosed i (hinv.session_lt i hin)] at hin
    cases hin

/-! ### The effect of the statement -/

variable {f : Table → Table}

theorem find_set_table (hf : ∀ t, (f t).schema = t.schema) (name name' : String)
    (ts : List Table) :
    (set_table name f ts).find? (·.schema.table == name') =
      (ts.find? (·.schema.table == name')).map fun t => if name = name' then f t else t := by
  induction ts with
  | nil => rfl
  | cons t ts ih =>
    unfold set_table
    by_cases hname : t.schema.table = name
    · rw [if_pos hname]
      by_cases hname' : t.schema.table = name'
      · rw [find?_cons_of_pos (by rw [hf]; simpa using hname'),
          find?_cons_of_pos (by simpa using hname'), Option.map_some, if_pos (hname.symm.trans hname')]
      · have hne : name ≠ name' := fun h => hname' (hname.trans h)
        rw [find?_cons_of_neg (by rw [hf]; simpa using hname'),
          find?_cons_of_neg (by simpa using hname')]
        simp [hne]
    · rw [if_neg hname]
      by_cases hname' : t.schema.table = name'
      · have hne : name ≠ name' := fun h => hname (hname'.trans h.symm)
        rw [find?_cons_of_pos (by simpa using hname'), find?_cons_of_pos (by simpa using hname'),
          Option.map_some, if_neg hne]
      · rw [find?_cons_of_neg (by simpa using hname'), find?_cons_of_neg (by simpa using hname'), ih]

theorem find_map_table (hf : ∀ t, (f t).schema = t.schema) (name : String)
    (ts : List Table) :
    (ts.map f).find? (·.schema.table == name) = (ts.find? (·.schema.table == name)).map f := by
  rw [find?_map]
  congr 2
  funext t
  show ((f t).schema.table == name) = _
  rw [hf]

theorem vacuum_table_schema (d : TxnState) (t : Table) : (vacuum_table d t).schema = t.schema :=
  (unindex_rows_fields _ _).1.trans (begin_write_schema t d.cur_txn)

theorem commit_schema (t : Table) (txn : Nat) : (t.commit txn).schema = t.schema :=
  finish_schema t txn true

/-- `VACUUM target`, or `VACUUM` alone, looks at this table. -/
def Vacuums (target name : String) : Prop := target = "" ∨ target = name

instance (target name : String) : Decidable (Vacuums target name) := inferInstanceAs (Decidable (_ ∨ _))

/-- Outside transactions VACUUM runs to its end under the next id. -/
theorem vacuum_effect {db : Database} (hinv : TxnInv db.toTxnState)
    (hclosed : AllClosed db.toTxnState)
    {target : String} (hfound : target = "" ∨ (find_table db target).isSome) :
    (db_exec db (.vacuum target)).2.ok = true ∧
      (db_exec db (.vacuum target)).1.toTxnState =
        (db.toTxnState.take_id.record db.next_txn true).set_cur db.own_txn ∧
      ∀ name, find_table (db_exec db (.vacuum target)).1 name = (find_table db name).map fun t =>
        (if Vacuums target name then vacuum_table db.toTxnState.take_id t else t).commit db.next_txn := by
  have hsession : db.session.in_txn = false := hclosed _ hinv.cur_session
  have hnone : ((List.range DB_MAX_SESSIONS).any fun i =>
      ((db.on TxnState.take_id).sessions i).in_txn) = false := by
    refine any_eq_false.mpr fun i hi => ?_
    rw [show ((db.on TxnState.take_id).sessions i).in_txn = false from hclosed i (mem_range.mp hi)]
    exact Bool.false_ne_true
  -- the statement itself, in the state that holds the new id
  obtain ⟨db₁, hstmt, htxn, hfind⟩ : ∃ db₁, exec_vacuum (db.on TxnState.take_id) target = (db₁, .done) ∧
      db₁.toTxnState = db.toTxnState.take_id ∧
      ∀ name, find_table db₁ name = (find_table db name).map fun t =>
        if Vacuums target name then vacuum_table db.toTxnState.take_id t else t := by
    unfold exec_vacuum
    rw [hnone, if_neg Bool.false_ne_true]
    by_cases hall : target = ""
    · refine ⟨_, if_pos hall, rfl, fun name => ?_⟩
      have hv : Vacuums target name := .inl hall
      simp only [if_pos hv]
      exact find_map_table (vacuum_table_schema _) name db.tables
    · rw [if_neg hall]
      obtain ⟨t, ht⟩ := Option.isSome_iff_exists.mp (hfound.resolve_left hall)
      rw [show find_table (db.on TxnState.take_id) target = some t from ht]
      refine ⟨_, rfl, rfl, fun name => ?_⟩
      have hiff : Vacuums target name ↔ target = name := or_iff_right hall
      simp only [hiff]
      exact find_set_table (vacuum_table_schema _) target name db.tables
  have hexec : exec_autocommit db (.vacuum target) =
      ((end_txn db₁ db.next_txn true).on (·.set_cur db.own_txn), .done) := by
    show ((end_txn (exec_vacuum (db.on TxnState.take_id) target).1 db.next_txn
      (exec_vacuum (db.on TxnState.take_id) target).2.ok).on (·.set_cur db.own_txn),
      (exec_vacuum (db.on TxnState.take_id) target).2) = _
    rw [hstmt]
    rfl
  have hdb : db_exec db (.vacuum target) = exec_autocommit db (.vacuum target) := by
    show (let r := exec_prepared db (.vacuum target); (r.1, { r.2 with tests := [] ++ r.2.tests })) = _
    rw [exec_prepared, hsession]
    rfl
  rw [hdb, hexec]
  refine ⟨rfl, ?_, fun name => ?_⟩
  · show (end_txn _ _ _).toTxnState.set_cur _ = _
    rw [end_txn_txn, htxn]
  · show (db₁.tables.map (·.commit db.next_txn)).find? _ = _
    rw [find_map_table (commit_schema · db.next_txn)]
    show (find_table db₁ name).map _ = _
    rw [hfind, Option.map_map]
    rfl

/-! ### Versions and what becomes of them -/

theorem committed_view_congr (d d' : TxnState) (hin : d.session.in_txn = false)
    (hin' : d'.session.in_txn = false) (hbelow : d'.committed_below = d.committed_below) {x : Nat}
    (hstatus : txnlog_status d'.txnlog x = txnlog_status d.txnlog x) :
    txn_committed_view d' x = txn_committed_view d x := by
  unfold txn_committed_view
  rw [hin, hin', hbelow, hstatus]
  simp only [Bool.false_eq_true, if_false]

/-- The state after a VACUUM outside transactions. -/
def vacuum_state (d : TxnState) : TxnState := (d.take_id.record d.next_txn true).set_cur d.own_txn

section Closed

variable {db : Database} (hinv : CommitInv db) (hclosed : AllClosed db.toTxnState)

include hinv hclosed

theorem closed_session : db.session.in_txn = false := hclosed _ hinv.txn.cur_session

theorem closed_own : db.own_txn = 0 :=
  if_neg (by rw [closed_session hinv hclosed]; exact Bool.false_ne_true)

variable {t : Table} {rec : Version} {rid : Rid}

/-- No version has the next id. -/
theorem closed_stamps (ht : t ∈ db.tables)
    (hget : heap_get t.heap rid = some rec) : rec.xmin ≠ db.next_txn ∧ rec.xmax ≠ db.next_txn := by
  have hstamped := (hinv.committed t ht).heap
  rw [(hinv.writer t ht).none hinv.txn hclosed] at hstamped
  obtain ⟨hmin, hmax⟩ := hstamped rid rec hget
  refine ⟨ne_of_lt hmin.of_zero.1.lt, ?_⟩
  rcases hmax with h0 | hmax
  · rw [h0]
    exact hinv.txn.next_ne.symm
  · exact ne_of_lt hmax.of_zero.1.lt

theorem take_id_view {x : Nat} (hx : x ≠ db.next_txn) :
    txn_committed_view db.toTxnState.take_id x = txn_committed_view db.toTxnState x :=
  have hstatus : txnlog_status db.toTxnState.take_id.txnlog x = txnlog_status db.txnlog x :=
    txnlog_status_set_ne _ _ hx
  committed_view_congr db.toTxnState db.toTxnState.take_id (closed_session hinv hclosed)
    (closed_session hinv hclosed) rfl hstatus

theorem vacuum_state_view {x : Nat} (hx : x ≠ db.next_txn) :
    txn_committed_view (vacuum_state db.toTxnState) x = txn_committed_view db.toTxnState x :=
  have hstatus : txnlog_status (vacuum_state db.toTxnState).txnlog x = txnlog_status db.txnlog x :=
    (txnlog_status_set_ne _ _ hx).trans (txnlog_status_set_ne _ _ hx)
  committed_view_congr db.toTxnState (vacuum_state db.toTxnState) (closed_session hinv hclosed)
    (closed_session hinv hclosed) rfl hstatus

/-- The id that VACUUM takes changes nothing about a version, and a dead one is not seen. -/
theorem vacuum_versions (hcur : db.cur_txn = 0) (ht : t ∈ db.tables)
    (hget : heap_get t.heap rid = some rec) :
    rec_visible (vacuum_state db.toTxnState) rec = rec_visible db.toTxnState rec ∧
      rec_dead db.toTxnState.take_id rec = rec_dead db.toTxnState rec ∧
      (rec_dead db.toTxnState rec = true → rec_visible db.toTxnState rec = false) := by
  obtain ⟨hmin, hmax⟩ := closed_stamps hinv hclosed ht hget
  have hcur' : (vacuum_state db.toTxnState).cur_txn = 0 := closed_own hinv hclosed
  refine ⟨?_, ?_, fun hdead => ?_⟩
  · rw [rec_visible_def, rec_visible_def, row_visible_eq, row_visible_eq, hcur, hcur', vacuum_state_view hinv hclosed hmin,
      vacuum_state_view hinv hclosed hmax]
  · unfold rec_dead
    rw [take_id_view hinv hclosed hmax]
  · unfold rec_dead at hdead
    rw [Bool.and_eq_true] at hdead
    rw [rec_visible_def, row_visible_eq, hdead.1, hdead.2]
    simp

theorem vacuum_same_view (hcur : db.cur_txn = 0) (ht : t ∈ db.tables) :
    SameVersions db.toTxnState (vacuum_state db.toTxnState) t.heap t.heap ∧
      SameVersions db.toTxnState (vacuum_state db.toTxnState) t.heap
        (vacuum_heap t.heap ((heap_scan t.heap).filter fun x => rec_dead db.toTxnState.take_id x.2)) := by
  have hversions := fun x (hx : x ∈ heap_scan t.heap) =>
    vacuum_versions hinv hclosed hcur ht (mem_heap_scan.mp hx)
  constructor
  · exact filter_congr fun x hx => (hversions x hx).1
  · unfold SameVersions
    rw [heap_scan_vacuum_filter, filter_filter]
    refine filter_congr fun x hx => ?_
    obtain ⟨hvis, hdead, hhid⟩ := hversions x hx
    rw [hvis, hdead]
    cases hd : rec_dead db.toTxnState x.2 with
    | false => simp
    | true => simp [hhid hd]

end Closed

/-! ### Whole runs -/

/-- The committed transactions, and which of them the status table has. -/
structure CommittedIds (l : Ledger) : Prop where
  pos : ∀ x ∈ l.committed, 0 < x
  on_record : ∀ x ∈ l.committed, x < TXN_MAX → x < l.db.committed_below ∨ OnRecord l.db.toTxnState x
  committed : ∀ x, 0 < x → x < l.db.committed_below ∨ OnRecord l.db.toTxnState x → x ∈ l.committed

/-- The outcome of the transaction can be found: it is one of an earlier process,
    or has a place in the status table. -/
def Ledger.Known (l : Ledger) (x : Nat) : Prop := x < l.db.committed_below ∨ x < TXN_MAX

/-- What every run keeps, whatever its statements. -/
structure RunInv (l : Ledger) : Prop extends CommitInv l.db where
  ids : CommittedIds l
  indexes : ∀ t ∈ l.db.tables, IndexesOk t
  cur : CurOpen l.db.toTxnState

variable {l l' : Ledger} {st : Statement} (d : TxnState)

theorem ledger_step_committed (hs : l.step st = some l') (x : Nat) :
    x ∈ l'.committed ↔ x ∈ l.committed ∨ committed_by l.db st = some x := by
  unfold Ledger.step at hs
  cases hc : committed_by l.db st with
  | none =>
    rw [hc] at hs
    cases hs
    simp
  | some y =>
    rw [hc] at hs
    cases hs
    simp [eq_comm, or_comm]

theorem CommittedIds.step (h : CommittedIds l) (hinv : TxnInv l.db.toTxnState)
    (hs : l.step st = some l') : CommittedIds l' where
  pos x hx := by
    rcases (ledger_step_committed hs x).mp hx with hx | hx
    · exact h.pos x hx
    · exact (committed_by_range hinv hx).1
  on_record x hx hmax := by
    rw [ledger_step_db hs, db_exec_recorded hinv, (db_exec_move l.db st).below]
    rcases (ledger_step_committed hs x).mp hx with hx | hx
    · exact (h.on_record x hx hmax).imp_right .inl
    · exact .inr (.inr ⟨hx, (committed_by_range hinv hx).1, hmax⟩)
  committed x h0 hx := by
    rw [ledger_step_db hs, db_exec_recorded hinv, (db_exec_move l.db st).below, ← or_assoc] at hx
    exact (ledger_step_committed hs x).mpr (hx.imp (h.committed x h0) And.left)

theorem Opened.run_inv {db : Database} (h : Opened db)
    (hstored : ∀ t ∈ db.tables, TableStamped (Committed db.toTxnState) t ∧ IndexesOk t) :
    RunInv (.opened db) where
  toCommitInv := h.commit_inv fun t ht => (hstored t ht).1
  ids := by
    have hmem (x) : x ∈ (Ledger.opened db).committed ↔ 0 < x ∧ x < db.committed_below := by
      have := h.next_pos
      rw [Ledger.opened, mem_range'_1, h.below]
      omega
    refine ⟨fun x hx => ((hmem x).mp hx).1, fun x hx _ => .inl ((hmem x).mp hx).2, fun x h0 hx => ?_⟩
    refine (hmem x).mpr ⟨h0, by_contra fun hge => ?_⟩
    exact nomatch (h.inv.fresh x (h.below ▸ not_lt.mp hge)).symm.trans (hx.resolve_left hge)
  indexes t ht := (hstored t ht).2
  cur := .inl h.cur_txn

theorem RunInv.step (h : RunInv l) (hs : l.step st = some l') : RunInv l' := by
  have hdb := ledger_step_db hs
  obtain ⟨st₁, -, hstep⟩ := db_exec_step l.db st
  refine ⟨?_, h.ids.step h.txn hs, ?_, ?_⟩
  · rw [hdb]
    exact ⟨h.toDbInv.step hstep, h.toDbInv.committed_step hstep h.committed⟩
  · rw [hdb]
    exact IndexesOk.step h.txn hstep h.indexes
  · rw [hdb]
    exact h.cur.exec st

theorem run_inv_in_run {ok : Ledger → Statement → Prop} {sts : List Statement} {l₀ : Ledger}
    (h : RunInv l₀) (hrun : Steps Ledger.step ok l₀ sts l) : RunInv l :=
  hrun.invariant RunInv (fun _ _ _ h _ hs => h.step hs) h

/-! ### What VACUUM is for -/

/-- The versions that committed transactions have deleted are gone from the
    table, with the entries of their stored keys, and the others stay. -/
structure VacuumedTable (committed : List Nat) (t t' : Table) : Prop where
  kept : ∀ rid rec, heap_get t.heap rid = some rec → rec.xmax ∉ committed →
    heap_get t'.heap rid = some rec
  removed : ∀ rid rec, heap_get t.heap rid = some rec → rec.xmax ∈ committed →
    heap_get t'.heap rid = none
  no_new : ∀ rid, heap_get t.heap rid = none → heap_get t'.heap rid = none
  pk : t.has_index = true → ∀ rid rec, heap_get t.heap rid = some rec → heap_get t'.heap rid = none →
    ∀ v, rec.row[0]? = some (.int v) → (v, rid_encode rid) ∉ t'.pk_entries
  sec : ∀ si ∈ t'.sec, ∀ rid rec, heap_get t.heap rid = some rec → heap_get t'.heap rid = none →
    ∀ v, rec.row[si.col]? = some (.int v) → (v, rid_encode rid) ∉ si.tree.entries

/-- A VACUUM that nobody notices and that leaves nothing to do. -/
structure Vacuumed (l : Ledger) (target : String) : Prop where
  ok : (db_exec l.db (.vacuum target)).2.ok = true
  selects : ∀ sel : SelectStmt, sel.joins = [] → sel.select_star = true →
    (db_exec (db_exec l.db (.vacuum target)).1 (.select sel)).2.ok = (db_exec l.db (.select sel)).2.ok ∧
      (db_exec (db_exec l.db (.vacuum target)).1 (.select sel)).2.rows =
        (db_exec l.db (.select sel)).2.rows
  tables : ∀ name, Vacuums target name → Option.Rel (VacuumedTable l.committed)
    (find_table l.db name) (find_table (db_exec l.db (.vacuum target)).1 name)
  rest : ∀ name, ¬ Vacuums target name →
    (find_table (db_exec l.db (.vacuum target)).1 name).map Table.files =
      (find_table l.db name).map Table.files
  again : ∀ name, (find_table (db_exec (db_exec l.db (.vacuum target)).1 (.vacuum target)).1 name).map
      Table.files =
    (find_table (db_exec l.db (.vacuum target)).1 name).map Table.files

theorem vacuum_table_eq (t : Table) : vacuum_table d t =
    vacuum_rows (t.begin_write d.cur_txn)
      ((heap_scan (t.begin_write d.cur_txn).heap).filter fun x => rec_dead d x.2) := by
  unfold vacuum_table
  rw [begin_write_heap]

theorem vacuum_table_get (t : Table) (txn : Nat) (rid : Rid) (rec : Version) :
    heap_get ((vacuum_table d t).commit txn).heap rid = some rec ↔
      heap_get t.heap rid = some rec ∧ rec_dead d rec = false := by
  rw [commit_heap, vacuum_table_eq, vacuum_rows_get, begin_write_heap]

theorem commit_indexes (t : Table) (txn : Nat) :
    (t.commit txn).pk_entries = t.pk_entries ∧ (t.commit txn).sec = t.sec := by
  unfold Table.commit
  split <;> exact ⟨rfl, rfl⟩

section Vacuumed

variable {l : Ledger} (h : RunInv l) (hclosed : AllClosed l.db.toTxnState)

include h hclosed

/-- The dead are those that committed transactions of earlier processes have
    deleted, and those with a place in the status table. -/
theorem RunInv.dead_iff (rec : Version) : rec_dead l.db.toTxnState rec = true ↔
    rec.xmax ∈ l.committed ∧ l.Known rec.xmax := by
  have hsession := closed_session h.toCommitInv hclosed
  unfold rec_dead
  rw [Bool.and_eq_true, decide_eq_true_eq, txn_committed_view_eq, sees_closed hsession, sees_closed_iff]
  constructor
  · exact fun ⟨_, h0, hrec⟩ => ⟨h.ids.committed _ h0 hrec, hrec.imp_right fun hrec => hrec.in_range.2⟩
  · exact fun ⟨hmem, hmax⟩ => ⟨Nat.ne_of_gt (h.ids.pos _ hmem), h.ids.pos _ hmem,
      hmax.elim .inl (h.ids.on_record _ hmem)⟩

variable {t : Table}

theorem RunInv.dead_take_id (ht : t ∈ l.db.tables) {rid : Rid} {rec : Version}
    (hget : heap_get t.heap rid = some rec) :
    rec_dead l.db.toTxnState.take_id rec = rec_dead l.db.toTxnState rec :=
  (vacuum_versions h.toCommitInv hclosed (h.cur.closed h.txn hclosed) ht hget).2.1

/-- What VACUUM does to a table, and what that means for its rows. -/
theorem RunInv.table_same_rows (ht : t ∈ l.db.tables) :
    SameRows l.db.toTxnState (vacuum_state l.db.toTxnState) t (t.commit l.db.next_txn) ∧
      SameRows l.db.toTxnState (vacuum_state l.db.toTxnState) t
        ((vacuum_table l.db.toTxnState.take_id t).commit l.db.next_txn) := by
  have hcur := h.cur.closed h.txn hclosed
  obtain ⟨hsame, hview⟩ := vacuum_same_view h.toCommitInv hclosed hcur ht
  constructor
  · have hrefl : SameRows l.db.toTxnState (vacuum_state l.db.toTxnState) t t :=
      (SameReads.refl (fun _ => true) t).same_rows hsame fun v hv => nomatch hv
    exact hrefl.of_files rfl (commit_files t _)
  · rw [vacuum_table_eq]
    refine SameRows.of_files (vacuum_rows_same ((h.indexes t ht).begin_write _) ?_ fun x hx hp => ?_)
      (begin_write_files t l.db.toTxnState.take_id.cur_txn).symm (commit_files _ _)
    · rw [begin_write_heap]
      exact hview
    · rw [begin_write_heap] at hx
      have hget := mem_heap_scan.mp hx
      obtain ⟨-, hdead, hhid⟩ := vacuum_versions h.toCommitInv hclosed hcur ht hget
      exact hhid (hdead ▸ hp)

/-- Only a deletion past the end of the status table keeps its version in the heap. -/
theorem RunInv.vacuumed_table (ht : t ∈ l.db.tables) :
    VacuumedTable l.committed t ((vacuum_table l.db.toTxnState.take_id t).commit l.db.next_txn) ↔
      ∀ rid rec, heap_get t.heap rid = some rec → rec.xmax ∈ l.committed → l.Known rec.xmax := by
  have hget' := vacuum_table_get l.db.toTxnState.take_id t l.db.next_txn
  have hdead : ∀ rid rec, heap_get t.heap rid = some rec →
      (rec_dead l.db.toTxnState.take_id rec = true ↔ rec.xmax ∈ l.committed ∧ l.Known rec.xmax) := by
    intro rid rec hget
    rw [h.dead_take_id hclosed ht hget]
    exact h.dead_iff hclosed rec
  constructor
  · intro hv rid rec hget hmem
    by_contra hmax
    have hstays := (hget' rid rec).mpr ⟨hget, Bool.eq_false_iff.mpr fun hd => hmax ((hdead _ _ hget).mp hd).2⟩
    exact nomatch (hv.removed rid rec hget hmem).symm.trans hstays
  · intro hmax
    have hix := (h.indexes t ht).begin_write l.db.toTxnState.take_id.cur_txn
    have hheap : (t.begin_write l.db.toTxnState.take_id.cur_txn).heap = t.heap := begin_write_heap ..
    -- a version that is there no longer was dead
    have hgone : ∀ rid rec, heap_get t.heap rid = some rec →
        heap_get ((vacuum_table l.db.toTxnState.take_id t).commit l.db.next_txn).heap rid = none →
        rec_dead l.db.toTxnState.take_id rec = true := by
      intro rid rec hget hnone
      by_contra hd
      exact nomatch hnone.symm.trans ((hget' rid rec).mpr ⟨hget, Bool.eq_false_iff.mpr hd⟩)
    have hnone : ∀ rid, (∀ rec, heap_get t.heap rid = some rec →
        rec_dead l.db.toTxnState.take_id rec = true) →
        heap_get ((vacuum_table l.db.toTxnState.take_id t).commit l.db.next_txn).heap rid = none := by
      intro rid hall
      refine Option.eq_none_iff_forall_ne_some.mpr fun rec hrec => ?_
      obtain ⟨hget, hlive⟩ := (hget' rid rec).mp hrec
      exact nomatch hlive.symm.trans (hall rec hget)
    refine ⟨fun rid rec hget hmem => ?_, fun rid rec hget hmem => ?_, fun rid hget => ?_,
      fun hi rid rec hget hnone' v hv => ?_, fun si hsi rid rec hget hnone' v hv => ?_⟩
    · exact (hget' rid rec).mpr ⟨hget, Bool.eq_false_iff.mpr fun hd => hmem ((hdead _ _ hget).mp hd).1⟩
    · refine hnone rid fun rec' hrec' => ?_
      obtain rfl := Option.mem_unique hget hrec'
      exact (hdead rid rec hget).mpr ⟨hmem, hmax rid rec hget hmem⟩
    · exact hnone rid fun rec hrec => nomatch hget.symm.trans hrec
    · have hi' : (t.begin_write l.db.toTxnState.take_id.cur_txn).has_index = true := by
        unfold Table.has_index at hi ⊢
        rwa [begin_write_schema]
      have hpk := vacuum_rows_pk (p := fun x => rec_dead l.db.toTxnState.take_id x.2) hix hi'
        (hheap ▸ hget) (hgone rid rec hget hnone') hv
      rw [← vacuum_table_eq] at hpk
      rwa [(commit_indexes ..).1]
    · rw [(commit_indexes ..).2, vacuum_table_eq] at hsi
      exact vacuum_rows_sec hix hsi (hheap ▸ hget) (hgone rid rec hget hnone') hv

/-- A second VACUUM finds nothing to remove. -/
theorem RunInv.second_vacuum {l' : Ledger} {target : String}
    (hfound : target = "" ∨ (find_table l.db target).isSome)
    (hs : l.step (.vacuum target) = some l')
    (name : String) :
    (find_table (db_exec l'.db (.vacuum target)).1 name).map Table.files =
      (find_table l'.db name).map Table.files := by
  obtain ⟨-, htxn, hfind⟩ := vacuum_effect h.txn hclosed hfound
  rw [← ledger_step_db hs] at htxn hfind
  have h' : RunInv l' := h.step hs
  have hclosed' : AllClosed l'.db.toTxnState := by
    rw [htxn]
    exact hclosed
  have hfound' : target = "" ∨ (find_table l'.db target).isSome := by
    refine hfound.imp_right fun hsome => ?_
    rw [hfind, Option.isSome_map]
    exact hsome
  obtain ⟨-, -, hfind'⟩ := vacuum_effect h'.txn hclosed' hfound'
  rw [hfind', Option.map_map]
  cases hu : find_table l'.db name with
  | none => rfl
  | some u =>
    refine congrArg some ?_
    show Table.files (Table.commit _ _) = _
    rw [commit_files]
    split
    case isFalse => rfl
    next hv =>
    rw [hfind] at hu
    obtain ⟨t, ht, rfl⟩ := Option.map_eq_some_iff.mp hu
    rw [if_pos hv] at hu ⊢
    set u := (vacuum_table l.db.toTxnState.take_id t).commit l.db.next_txn with hudef
    have htmem := (find_table_mem ht).1
    have hfu : find_table l'.db name = some u := by
      rw [hfind, ht, Option.map_some, if_pos hv]
    have humem := (find_table_mem hfu).1
    -- whoever is dead for the second VACUUM was dead for the first one
    have hnone : ((heap_scan u.heap).filter fun x => rec_dead l'.db.toTxnState.take_id x.2) = [] := by
      refine filter_eq_nil_iff.mpr fun x hx hdead => ?_
      have hget := mem_heap_scan.mp hx
      obtain ⟨hget₀, hlive⟩ := (vacuum_table_get _ t _ x.1 x.2).mp hget
      rw [h'.dead_take_id hclosed' humem hget] at hdead
      rw [h.dead_take_id hclosed htmem hget₀] at hlive
      have hsame : rec_dead l'.db.toTxnState x.2 = rec_dead l.db.toTxnState x.2 := by
        unfold rec_dead
        rw [htxn]
        exact congrArg _ (vacuum_state_view h.toCommitInv hclosed
          (closed_stamps h.toCommitInv hclosed htmem hget₀).2)
      exact nomatch hdead.symm.trans (hsame.trans hlive)
    have hfiles : (u.begin_write l'.db.toTxnState.take_id.cur_txn).files = u.files := begin_write_files ..
    unfold vacuum_table
    rw [hnone, ← hfiles]
    exact vacuum_rows_again (hfiles.trans ((commit_files _ _).trans
      (congrArg Table.files (vacuum_table_eq _ t))))

end Vacuumed

/-- In every state that a run reaches from an opened database, and while no
    transaction is open, VACUUM does all it is for exactly if the outcome of the
    transactions that have deleted from its tables can be found. -/
theorem vacuum_invisible_complete {db₀ : Database} {sts : List Statement} {l : Ledger}
    (hopen : Opened db₀)
    (hstored : ∀ t ∈ db₀.tables, TableStamped (Committed db₀.toTxnState) t ∧ IndexesOk t)
    (hrun : Steps Ledger.step (fun _ _ => True) (.opened db₀) sts l)
    (hclosed : AllClosed l.db.toTxnState) {target : String}
    (hfound : target = "" ∨ (find_table l.db target).isSome) :
    Vacuumed l target ↔ ∀ name t, Vacuums target name → find_table l.db name = some t →
      ∀ rid rec, heap_get t.heap rid = some rec → rec.xmax ∈ l.committed → l.Known rec.xmax := by
  have h : RunInv l := run_inv_in_run (hopen.run_inv hstored) hrun
  obtain ⟨hok, htxn, hfind⟩ := vacuum_effect h.txn hclosed hfound
  have htables : ∀ name t, Vacuums target name → find_table l.db name = some t →
      find_table (db_exec l.db (.vacuum target)).1 name =
        some ((vacuum_table l.db.toTxnState.take_id t).commit l.db.next_txn) := by
    intro name t hv ht
    rw [hfind, ht, Option.map_some, if_pos hv]
  constructor
  · intro hdone name t hv ht
    have hrel := hdone.tables name hv
    rw [htables name t hv ht, ht] at hrel
    cases hrel with
    | some hrel => exact (h.vacuumed_table hclosed (find_table_mem ht).1).mp hrel
  · intro hmax
    refine ⟨hok, fun sel hjoins hstar => ?_, fun name hv => ?_, fun name hv => ?_, fun name => ?_⟩
    · have hcur : l.db.cur_txn = l.db.own_txn :=
        (h.cur.closed h.txn hclosed).trans (closed_own h.toCommitInv hclosed).symm
      refine SameTables.select (fun name => ?_) hcur (by rw [htxn]; rfl) hjoins hstar
      rw [hfind, htxn]
      cases ht : find_table l.db name with
      | none => exact .none
      | some t =>
        obtain ⟨hkept, hvacuumed⟩ := h.table_same_rows hclosed (find_table_mem ht).1
        refine .some ?_
        split
        · exact hvacuumed
        · exact hkept
    · cases ht : find_table l.db name with
      | none =>
        rw [hfind, ht]
        exact .none
      | some t =>
        rw [htables name t hv ht]
        exact .some ((h.vacuumed_table hclosed (find_table_mem ht).1).mpr (hmax name t hv ht))
    · rw [hfind, Option.map_map]
      refine congrArg (fun f => Option.map f _) (funext fun t => ?_)
      show Table.files (Table.commit _ _) = _
      rw [if_neg hv, commit_files]
    · obtain ⟨l', hs⟩ := ledger_step_some l (.vacuum target)
      have hagain := h.second_vacuum hclosed hfound hs name
      rwa [ledger_step_db hs] at hagain

/-- Three rows with a key, one of them deleted. -/
def one_deleted : List Statement :=
  insert_keys [3, 1, 2] ++ [.delete "t" [[compare_int "a" .CMP_EQ 1]]]

set_option maxRecDepth 100000 in
theorem vacuum_invisible_complete_three_rows :
    ∃ l, Steps Ledger.step (fun _ _ => True) Ledger.start one_deleted l ∧ Vacuumed l "t" := by
  have hany : (run Ledger.step Ledger.start one_deleted).any (fun l =>
      decide (AllClosed l.db.toTxnState) && (find_table l.db "t").isSome &&
        l.committed.all (· < TXN_MAX)) = true := by
    decide +kernel
  obtain ⟨l, hl, hfacts⟩ := (Option.any_eq_true _ _).1 hany
  simp only [Bool.and_eq_true, decide_eq_true_eq, all_eq_true] at hfacts
  obtain ⟨⟨hclosed, hsome⟩, hmax⟩ := hfacts
  have hrun := Steps.of_run (fun _ _ _ => trivial) hl
  refine ⟨l, hrun, (vacuum_invisible_complete db_new_opened (forall_mem_nil _) hrun hclosed
    (.inr hsome)).mpr ?_⟩
  exact fun _ _ _ _ _ rec _ hmem => .inr (hmax rec.xmax hmem)

/-! ### Beyond the status table -/

/-- The table with the row that transaction 2 has inserted. -/
def noted_table : Table := (insert_row (notes_table.begin_write 2) 2 [.text [120]]).1.commit 2

/-- The row is there, nobody works on it, and the next id is `k`. -/
structure NoteKept (db : Database) (k : Nat) : Prop where
  closed : ∀ i, (db.sessions i).in_txn = false
  lm : db.lm = [⟨0, "t", 0, .LOCK_X⟩]
  next : db.next_txn = k
  below : db.committed_below = 1
  tables : db.tables = [noted_table]
  inserted : OnRecord db.toTxnState 2

theorem NoteKept.pass {db : Database} {k : Nat} (h : NoteKept db k) (hk : 2 < k) :
    NoteKept (db_exec (db_exec db .begin).1 .rollback).1 (k + 1) := by
  obtain ⟨-, hnext, hbelow, hlm, htables, hclosed, hrec⟩ :=
    pass_effect (h.closed _) (by rw [h.next]; exact Nat.ne_of_gt (Nat.zero_lt_of_lt hk)) rfl fun t ht => by
      rw [h.tables] at ht
      rw [mem_singleton.1 ht]
      rfl
  refine ⟨fun i => hclosed i (h.closed i), ?_, hnext.trans (congrArg (· + 1) h.next),
    hbelow.trans h.below, htables.trans h.tables, hrec 2 (by rw [h.next]; exact ne_of_lt hk) h.inserted⟩
  rw [hlm, h.lm]
  show (if 0 = db.next_txn then _ else _) :: [] = _
  split <;> rfl

theorem note_kept_run (k : Nat) : ∃ sts l,
    Steps Ledger.step (fun _ _ => True) Ledger.start sts l ∧ NoteKept l.db (k + 3) := by
  induction k with
  | zero =>
    obtain ⟨l₁, hl₁⟩ := ledger_step_some Ledger.start (.create notes)
    obtain ⟨l₂, hl₂⟩ := ledger_step_some l₁ insert_note
    refine ⟨_, l₂, ((Steps.nil _).snoc _ trivial hl₁).snoc _ trivial hl₂, ?_⟩
    rw [ledger_step_db hl₂, ledger_step_db hl₁]
    exact ⟨fun _ => rfl, rfl, rfl, rfl, rfl, rfl⟩
  | succ k ih =>
    obtain ⟨sts, l, hrun, hkept⟩ := ih
    obtain ⟨l₁, hl₁⟩ := ledger_step_some l .begin
    obtain ⟨l₂, hl₂⟩ := ledger_step_some l₁ .rollback
    refine ⟨_, l₂, (hrun.snoc .begin trivial hl₁).snoc .rollback trivial hl₂, ?_⟩
    rw [ledger_step_db hl₂, ledger_step_db hl₁]
    exact hkept.pass (by omega)

/-- `DELETE FROM t` -/
def delete_notes : Statement := .delete "t" []

theorem NoteKept.delete {db : Database} {k : Nat} (h : NoteKept db k) (hk : 2 < k) :
    (db_exec db delete_notes).2.ok = true ∧ AllClosed (db_exec db delete_notes).1.toTxnState ∧
      ∃ t, find_table (db_exec db delete_notes).1 "t" = some t ∧
        heap_get t.heap ⟨0, 0⟩ = some { note 2 with xmax := k } := by
  obtain ⟨lm, hlm⟩ : ∃ lm, acquire_stmt_locks (db.on TxnState.take_id).lm delete_notes db.next_txn =
      some lm := by
    change ∃ lm, acquire_stmt_locks db.lm _ _ = some lm
    rw [h.lm]
    exact ⟨_, rfl⟩
  set db₁ := (db.on TxnState.take_id).on (·.set_lm lm) with hdb₁
  have hcur : db₁.cur_txn = k := h.next
  have htables : db₁.tables = [noted_table] := h.tables
  -- the row is visible, and so it is stamped
  have hseen : rec_visible db₁.toTxnState (note 2) = true := by
    have hstatus : txnlog_status db₁.txnlog 2 = .TXN_COMMITTED :=
      (txnlog_status_set_ne _ _ (by rw [h.next]; exact ne_of_lt hk)).trans h.inserted
    have hsession : db₁.session.in_txn = false := h.closed _
    have hview : txn_committed_view db₁.toTxnState 2 = true := by
      rw [txn_committed_view_eq, sees_closed hsession]
      exact sees_recorded _ (by decide) hstatus
    rw [rec_visible_def, row_visible_eq, show (note 2).xmin = 2 from rfl, hview, Bool.or_true]
    rfl
  have hcollect : (collect_rids db₁.toTxnState noted_table []).found = [⟨0, 0⟩] := by
    have hscan : heap_scan noted_table.heap = [(⟨0, 0⟩, note 2)] := rfl
    unfold collect_rids scan_read
    rw [hscan]
    simp only [filterMap_cons, hseen, if_true, filterMap_nil]
    rfl
  set t := delete_row k (noted_table.begin_write k) ⟨0, 0⟩ with ht
  obtain ⟨tests, hstmt⟩ : ∃ tests, exec_stmt db₁ delete_notes =
      ({ db₁ with tables := [t] }, ⟨true, .none, tests⟩) := by
    have hfind : find_table db₁ "t" = some noted_table := by
      unfold find_table
      rw [htables]
      rfl
    change ∃ tests, exec_delete db₁ "t" [] = _
    rw [exec_delete, hfind]
    dsimp only
    rw [hcollect, hcur, Database.update, htables]
    exact ⟨_, rfl⟩
  have hauto : exec_autocommit db delete_notes =
      ((end_txn { db₁ with tables := [t] } k true).on (·.set_cur db.own_txn), ⟨true, .none, tests⟩) := by
    unfold exec_autocommit
    dsimp only
    rw [hlm]
    dsimp only
    rw [← hdb₁, hstmt, h.next]
  have hdb : db_exec db delete_notes =
      (let r := exec_autocommit db delete_notes; (r.1, { r.2 with tests := [] ++ r.2.tests })) := by
    show (let r := exec_prepared db delete_notes; (r.1, { r.2 with tests := [] ++ r.2.tests })) = _
    rw [exec_prepared, show db.session.in_txn = false from h.closed _]
    rfl
  rw [hdb, hauto]
  refine ⟨rfl, fun i _ => h.closed i, t.commit k, ?_, ?_⟩
  · show [t.commit k].find? (·.schema.table == "t") = _
    have hschema : (t.commit k).schema = notes := by
      rw [commit_schema]
      exact begin_write_schema noted_table k
    rw [find?_singleton, hschema]
    rfl
  · rw [commit_heap]
    show heap_get (stamp_xmax (noted_table.begin_write k).heap ⟨0, 0⟩ k) ⟨0, 0⟩ = _
    rw [heap_get_stamp, begin_write_heap, if_pos rfl]
    rfl

/-- The first deletion that the status table has no place for stays in the heap. -/
theorem vacuum_keeps_deleted_row :
    ¬ ∀ sts l target, Steps Ledger.step (fun _ _ => True) Ledger.start sts l →
      AllClosed l.db.toTxnState → (find_table l.db target).isSome → Vacuumed l target := by
  intro hall
  obtain ⟨k, hk⟩ : ∃ k, TXN_MAX = k + 3 := ⟨TXN_MAX - 3, rfl⟩
  obtain ⟨sts, l, hrun, hkept⟩ := note_kept_run k
  obtain ⟨hok, hclosed, t, ht, hget⟩ := hkept.delete (by omega)
  obtain ⟨l', hs⟩ := ledger_step_some l delete_notes
  rw [← ledger_step_db hs] at hclosed ht
  have hrun' := hrun.snoc delete_notes trivial hs
  have hmem : k + 3 ∈ l'.committed := by
    refine (ledger_step_committed hs _).mpr (.inr ?_)
    unfold committed_by
    rw [hok, if_pos rfl, autocommits, show l.db.session.in_txn = false from hkept.closed _, hkept.next]
    rfl
  have hsome : (find_table l'.db "t").isSome := by
    rw [ht]
    rfl
  have hdone := hall _ l' "t" hrun' hclosed hsome
  have hrel := hdone.tables "t" (.inr rfl)
  have hinv := run_inv_in_run (db_new_opened.run_inv (forall_mem_nil _)) hrun'
  obtain ⟨-, -, hfind⟩ := vacuum_effect hinv.txn hclosed (.inr hsome)
  rw [hfind, ht, Option.map_some, if_pos (.inr rfl)] at hrel
  cases hrel with
  | some hrel =>
    have hknown : k + 3 < l'.db.committed_below ∨ k + 3 < TXN_MAX :=
      (hinv.vacuumed_table hclosed (find_table_mem ht).1).mp hrel ⟨0, 0⟩ _ hget hmem
    rw [ledger_step_db hs, (db_exec_move l.db delete_notes).below, hkept.below, hk] at hknown
    omega

end MiniDb
