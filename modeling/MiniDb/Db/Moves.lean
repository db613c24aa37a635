import MiniDb.Db.Sessions

/-! # What a statement does to a table

  `TableMove` lists it once, for a statement that runs under the own id of the
  state `d`; `DbStep` lists what a call of `db_exec` does to transactions,
  locks and tables together.  An invariant of single tables is proved by one
  lemma per move, `DbStep.keeps`. -/

namespace MiniDb

open Framework List

/-- Addresses of visible versions, each once. -/
structure Collected (d : TxnState) (h : Heap) (rids : List Rid) : Prop where
  nodup : rids.Nodup
  visible : ∀ rid ∈ rids, ∃ rec, heap_get h rid = some rec ∧ rec_visible d rec = true

inductive TableMove (d : TxnState) : Statement → Table → Table → Prop where
  | same (st : Statement) (t : Table) : TableMove d st t t
  | create_index (name table column : String) (t : Table) (col : Nat)
      (hname : t.schema.table = table) (hcol : index_column t name column = some col) :
      TableMove d (.create_index name table column) t
        { t with sec := t.sec ++ [⟨name, col, (secidx_build d t col).1⟩] }
  | insert (table : String) (vals : List Value) (t : Table) (hname : t.schema.table = table)
      (hnull : null_violation t vals = false) :
      TableMove d (.insert table vals) t (insert_row (t.begin_write d.cur_txn) d.cur_txn vals).1
  | delete (table : String) (w : Where) (t : Table) (rids : List Rid)
      (hname : t.schema.table = table) (hrids : Collected d t.heap rids)
      (hfound : rids = (collect_rids d t w).found) :
      TableMove d (.delete table w) t (rids.foldl (delete_row d.cur_txn) (t.begin_write d.cur_txn))
  | update (table set_col : String) (set_val : Value) (w : Where) (t : Table) (sci : Nat)
      (rids : List Rid) (hname : t.schema.table = table)
      (hcol : set_column t set_col set_val = some sci) (hrids : Collected d t.heap rids)
      (hfound : rids = (collect_rids d t w).found) :
      TableMove d (.update table set_col set_val w) t
        (rids.foldl (update_row d.cur_txn sci set_val) (t.begin_write d.cur_txn))
  | vacuum (table : String) (t : Table)
      (hnone : ∀ i < DB_MAX_SESSIONS, (d.sessions i).in_txn = false) :
      TableMove d (.vacuum table) t (vacuum_table d t)
  | analyze (table : String) (t : Table) :
      TableMove d (.analyze table) t { t with stats := some (analyze_table d t).1 }

/-! ### Tables by name -/

/-- A table is changed where it is, the others stay. -/
theorem forall₂_set_table {R : Table → Table → Prop} (hrefl : ∀ t, R t t) {name : String}
    {f : Table → Table} {ts : List Table}
    (hf : ∀ t, ts.find? (·.schema.table == name) = some t → R t (f t)) :
    List.Forall₂ R ts (set_table name f ts) := by
  induction ts with
  | nil => exact .nil
  | cons t ts ih =>
    unfold set_table
    by_cases hname : t.schema.table = name
    · rw [if_pos hname]
      exact .cons (hf t (List.find?_cons_of_pos (by simpa using hname)))
        (forall₂_same.mpr fun t _ => hrefl t)
    · rw [if_neg hname]
      refine .cons (hrefl t) (ih fun t' ht' => hf t' ?_)
      rw [List.find?_cons_of_neg (by simpa using hname), ht']

theorem find_table_mem {db : Database} {name : String} {t : Table}
    (h : find_table db name = some t) : t ∈ db.tables ∧ t.schema.table = name := by
  unfold find_table at h
  exact ⟨mem_of_find?_eq_some h, by simpa using List.find?_some h⟩

/-- A scan that keeps what is visible and passes a test. -/
theorem scan_read_found {α : Type} (d : TxnState) (h : Heap) (p : Rid × Version → Bool)
    (f : Rid × Version → α) :
    (scan_read d h fun x => if p x then some (f x) else none).found =
      ((heap_scan h).filter fun x => rec_visible d x.2 && p x).map f := by
  show (heap_scan h).filterMap _ = _
  induction heap_scan h with
  | nil => rfl
  | cons x xs ih =>
    rw [filterMap_cons, filter_cons]
    by_cases hv : rec_visible d x.2 = true <;> by_cases hp : p x = true <;> simp [hv, hp, ih]

theorem collect_rids_collected (d : TxnState) (t : Table) (w : Where) :
    Collected d t.heap (collect_rids d t w).found := by
  have hfound := scan_read_found d t.heap
    (fun x => where_matches t.schema t.schema.table w x.2.row) Prod.fst
  have hsub : (collect_rids d t w).found.Sublist ((heap_scan t.heap).map Prod.fst) := by
    refine (take_sublist _ _).trans ?_
    rw [hfound]
    exact filter_sublist.map _
  refine ⟨(heap_scan_nodup t.heap).sublist hsub, fun rid hrid => ?_⟩
  have hmem := mem_of_mem_take hrid
  rw [hfound] at hmem
  obtain ⟨x, hx, rfl⟩ := mem_map.mp hmem
  obtain ⟨hx, hvis⟩ := mem_filter.mp hx
  exact ⟨x.2, mem_heap_scan.mp hx, (Bool.and_eq_true_iff.mp hvis).1⟩

/-! ### One statement -/

section Step

variable {db : Database} {st : Statement} {R : Table → Table → Prop} {t' : Table}

/-- Every table after a statement comes from the one at its place before;
    CREATE TABLE adds one. -/
theorem exec_stmt_tables (db : Database) (h : st.is_control = false) :
    ∃ ts created, (exec_stmt db st).1.tables = ts ++ created ∧
      List.Forall₂ (TableMove db.toTxnState st) db.tables ts ∧
      (created = [] ∨ ∃ c, st = .create c ∧ created = [(table_new c).begin_write db.cur_txn]) := by
  have hsame : List.Forall₂ (TableMove db.toTxnState st) db.tables db.tables :=
    forall₂_same.mpr fun t _ => .same st t
  have hno : ∀ ts, List.Forall₂ (TableMove db.toTxnState st) db.tables ts →
      ∃ ts' created, ts = ts' ++ created ∧ List.Forall₂ (TableMove db.toTxnState st) db.tables ts' ∧
        (created = [] ∨ ∃ c, st = .create c ∧ created = [(table_new c).begin_write db.cur_txn]) :=
    fun ts hts => ⟨ts, [], (append_nil ts).symm, hts, .inl rfl⟩
  cases st with
  | begin => cases h
  | commit => cases h
  | rollback => cases h
  | session n => cases h
  | select sel => exact hno _ hsame
  | create c =>
    simp only [exec_stmt, exec_create]
    split
    · exact hno _ hsame
    · exact ⟨db.tables, [(table_new c).begin_write db.cur_txn], rfl, hsame, .inr ⟨c, rfl, rfl⟩⟩
  | create_index name table column =>
    simp only [exec_stmt, exec_create_index]
    split
    · exact hno _ hsame
    next t hfind =>
    split
    · exact hno _ hsame
    next col hcol =>
    refine hno _ (forall₂_set_table (.same _) fun t₀ hfind' => ?_)
    obtain rfl := Option.mem_unique hfind hfind'
    exact .create_index name table column t col (find_table_mem hfind).2 hcol
  | insert table vals =>
    simp only [exec_stmt, exec_insert]
    split
    · exact hno _ hsame
    next t hfind =>
    split
    · exact hno _ hsame
    next hnull =>
    refine hno _ (forall₂_set_table (.same _) fun t₀ hfind' => ?_)
    obtain rfl := Option.mem_unique hfind hfind'
    exact .insert table vals t (find_table_mem hfind).2 (Bool.eq_false_iff.mpr hnull)
  | delete table w =>
    simp only [exec_stmt, exec_delete]
    split
    · exact hno _ hsame
    next t hfind =>
    refine hno _ (forall₂_set_table (.same _) fun t₀ hfind' => ?_)
    obtain rfl := Option.mem_unique hfind hfind'
    exact .delete table w t _ (find_table_mem hfind).2 (collect_rids_collected _ t w) rfl
  | update table set_col set_val w =>
    simp only [exec_stmt, exec_update]
    split
    · exact hno _ hsame
    next t hfind =>
    split
    · exact hno _ hsame
    next sci hsci =>
    refine hno _ (forall₂_set_table (.same _) fun t₀ hfind' => ?_)
    obtain rfl := Option.mem_unique hfind hfind'
    exact .update table set_col set_val w t sci _ (find_table_mem hfind).2 hsci
      (collect_rids_collected _ t w) rfl
  | vacuum table =>
    simp only [exec_stmt, exec_vacuum]
    split
    · exact hno _ hsame
    next hidle =>
    have hnone : ∀ i < DB_MAX_SESSIONS, (db.sessions i).in_txn = false := by
      intro i hi
      rw [Bool.not_eq_true, any_eq_false] at hidle
      exact Bool.eq_false_iff.mpr (hidle i (mem_range.mpr hi))
    split
    · refine hno _ ?_
      rw [forall₂_map_right_iff]
      exact forall₂_same.mpr fun t _ => .vacuum table t hnone
    split
    · exact hno _ hsame
    · exact hno _ (forall₂_set_table (.same _) fun t _ => .vacuum table t hnone)
  | analyze table =>
    simp only [exec_stmt, exec_analyze]
    split
    · refine hno _ ?_
      show List.Forall₂ _ db.tables (db.tables.map _)
      rw [forall₂_map_right_iff]
      exact forall₂_same.mpr fun t _ => .analyze table t
    split
    · exact hno _ hsame
    · exact hno _ (forall₂_set_table (.same _) fun t _ => .analyze table t)

/-- A table after the end of a transaction. -/
def Table.finish (t : Table) (txn : Nat) (ok : Bool) : Table :=
  if ok then t.commit txn else t.abort txn

theorem end_txn_tables (db : Database) (txn : Nat) (ok : Bool) :
    (end_txn db txn ok).tables = db.tables.map (·.finish txn ok) := by
  cases ok <;> rfl

/-- The state in which a statement's tests are made: under the session's own
    id, or under the id that the statement gets for itself. -/
inductive Running (d : TxnState) : TxnState → Prop where
  | session (lm : LockManager) : Running d ((d.set_lm lm).set_cur d.own_txn)
  | auto (lm : LockManager) : Running d (d.take_id.set_lm lm)

/-- What a call of `db_exec` does. -/
inductive DbStep (db : Database) (st : Statement) (db' : Database) : Prop where
  /-- The statement was refused, or is about nothing that is kept here. -/
  | idle (cur_txn : Nat) (htxn : db'.toTxnState = db.toTxnState.set_cur cur_txn)
      (htab : db'.tables = db.tables)
  /-- A statement that is no write, or a write inside the session's transaction. -/
  | stmt (lm : LockManager) (hin : st.is_write = true → db.session.in_txn = true)
      (hlock : acquire_stmt_locks db.lm st db.own_txn = some lm)
      (htxn : db'.toTxnState = (db.toTxnState.set_lm lm).set_cur db.own_txn)
      (htab : List.Forall₂ (TableMove ((db.toTxnState.set_lm lm).set_cur db.own_txn) st)
        db.tables db'.tables)
  /-- A write that is a transaction of its own. -/
  | auto (lm : LockManager) (ok : Bool) (hin : db.session.in_txn = false ∨ st.is_create = true)
      (hlock : acquire_stmt_locks db.lm st db.next_txn = some lm) (ts created : List Table)
      (htxn : db'.toTxnState =
        ((db.toTxnState.take_id.set_lm lm).record db.next_txn ok).set_cur db.own_txn)
      (hmoves : List.Forall₂ (TableMove (db.toTxnState.take_id.set_lm lm) st) db.tables ts)
      (hcreated : created = [] ∨
        ∃ c, st = .create c ∧ created = [(table_new c).begin_write db.next_txn])
      (htab : db'.tables = (ts ++ created).map (·.finish db.next_txn ok))
  /-- Such a write that did not get its lock. -/
  | conflict (htxn : db'.toTxnState =
        (db.toTxnState.take_id.record db.next_txn false).set_cur db.own_txn)
      (htab : db'.tables = db.tables)
  | begin (hin : db.session.in_txn = false)
      (htxn : db'.toTxnState = db.toTxnState.take_id.set_session
        ⟨true, db.next_txn, db.next_txn + 1, db.toTxnState.inprog⟩)
      (htab : db'.tables = db.tables)
  | finish (ok : Bool) (hin : db.session.in_txn = true)
      (htxn : db'.toTxnState = ((db.toTxnState.record db.session.txn ok).set_session
        { db.session with in_txn := false }).set_cur 0)
      (htab : db'.tables = db.tables.map (·.finish db.session.txn ok))
  | switch (n : Nat) (hn : n < DB_MAX_SESSIONS)
      (htxn : db'.toTxnState = { db.toTxnState.set_cur db.own_txn with cur_session := n })
      (htab : db'.tables = db.tables)

theorem exec_control_step (h : st.is_control = true) :
    DbStep db st (exec_stmt (db.on fun d => d.set_cur d.own_txn) st).1 := by
  have hend : ∀ ok, DbStep db st (exec_end (db.on fun d => d.set_cur d.own_txn) ok).1 := by
    intro ok
    unfold exec_end
    split
    · exact .idle db.own_txn rfl rfl
    · next hin =>
      have hin' : (db.on fun d => d.set_cur d.own_txn).session.in_txn = true := by simpa using hin
      refine .finish ok hin' ?_ ?_
      · cases ok <;> rfl
      · exact end_txn_tables _ _ ok
  cases st with
  | begin =>
    simp only [exec_stmt, exec_begin]
    split
    · exact .idle db.own_txn rfl rfl
    · next hin => exact .begin (Bool.eq_false_iff.mpr hin) rfl rfl
  | commit => exact hend true
  | rollback => exact hend false
  | session n =>
    simp only [exec_stmt, exec_session]
    split
    · exact .idle db.own_txn rfl rfl
    · next hn =>
      push Not at hn
      exact .switch n.toNat (by omega) rfl rfl
  | _ => cases h

theorem exec_prepared_step (db : Database) (st : Statement) : DbStep db st (exec_prepared db st).1 := by
  unfold exec_prepared
  split
  · next hw =>
    have hc := is_control_of_is_write hw
    split
    · next hauto =>
      unfold exec_autocommit
      dsimp only
      split
      · exact .conflict rfl rfl
      · next lm hlm =>
        obtain ⟨ts, created, htab, hmoves, hcreated⟩ :=
          exec_stmt_tables ((db.on TxnState.take_id).on (·.set_lm lm)) hc
        have htxn := exec_stmt_txn ((db.on TxnState.take_id).on (·.set_lm lm)) hc
        refine .auto lm (exec_stmt ((db.on TxnState.take_id).on (·.set_lm lm)) st).2.ok ?_ hlm ts
          created ?_ hmoves hcreated ?_
        · exact (Bool.or_eq_true_iff.mp hauto).imp_left fun h => by simpa using h
        · show (end_txn _ _ _).toTxnState.set_cur _ = _
          rw [end_txn_txn, htxn]
          rfl
        · show (end_txn _ _ _).tables = _
          rw [end_txn_tables, htab]
    · next hauto =>
      simp only [Bool.or_eq_true, Bool.not_eq_true', not_or, Bool.not_eq_false] at hauto
      have hown : db.own_txn = db.session.txn := if_pos hauto.1
      unfold exec_in_txn
      dsimp only
      split
      · exact .idle _ rfl rfl
      · next lm hlm =>
        obtain ⟨ts, created, htab, hmoves, hcreated⟩ := exec_stmt_tables
          (db.on fun d => (d.set_lm lm).set_cur db.session.txn) hc
        have htxn := exec_stmt_txn (db.on fun d => (d.set_lm lm).set_cur db.session.txn) hc
        rcases hcreated with rfl | ⟨c, rfl, -⟩
        · rw [append_nil] at htab
          refine .stmt lm (fun _ => hauto.1) (hown ▸ hlm) ?_ ?_
          · rw [htxn, hown]
            rfl
          · rw [htab, hown]
            exact hmoves
        · exact absurd rfl hauto.2
  · next hw =>
    by_cases hc : st.is_control = true
    · exact exec_control_step hc
    · have hc := Bool.eq_false_iff.mpr hc
      obtain ⟨ts, created, htab, hmoves, hcreated⟩ :=
        exec_stmt_tables (db.on fun d => d.set_cur d.own_txn) hc
      rcases hcreated with rfl | ⟨c, rfl, -⟩
      · rw [append_nil] at htab
        refine .stmt db.lm (fun h => absurd h hw) ?_ (exec_stmt_txn _ hc) (htab ▸ hmoves)
        cases st <;> first | rfl | exact absurd rfl hw
      · exact absurd rfl hw

/-- Nothing happens to a statement whose subqueries fail. -/
theorem db_exec_prepared (db : Database) (st : Statement) :
    (db_exec db st).1 = db ∨
      ∃ st₁, (prepare_stmt db st).result = some st₁ ∧ DbStep db st₁ (db_exec db st).1 := by
  unfold db_exec
  dsimp only
  split
  · exact .inl rfl
  · next st₁ hst₁ => exact .inr ⟨st₁, hst₁, exec_prepared_step db st₁⟩

/-- The inversion of a whole call. -/
theorem db_exec_step (db : Database) (st : Statement) :
    ∃ st₁, SameWrite st st₁ ∧ DbStep db st₁ (db_exec db st).1 := by
  rcases db_exec_prepared db st with hsame | ⟨st₁, hst₁, hstep⟩
  · refine ⟨st, ?_, .idle db.cur_txn (by rw [hsame]; rfl) (by rw [hsame])⟩
    cases st <;> first | rfl | exact ⟨rfl, rfl, rfl⟩ | trivial
  · exact ⟨st₁, prepare_stmt_same hst₁, hstep⟩

theorem DbStep.move {db' : Database} (h : DbStep db st db') :
    TxnMove db.toTxnState db'.toTxnState := by
  cases h with
  | idle cur_txn htxn => rw [htxn]; exact .idle cur_txn db.lm
  | stmt lm _ _ htxn => rw [htxn]; exact .idle _ lm
  | auto lm ok _ _ _ _ htxn => rw [htxn]; exact .auto ok _ lm
  | conflict htxn => rw [htxn]; exact .auto false _ db.lm
  | begin hin htxn => rw [htxn]; exact .begin hin
  | finish ok hin htxn => rw [htxn]; exact .finish ok hin
  | switch n hn htxn => rw [htxn]; exact .switch n hn

theorem db_exec_move (db : Database) (st : Statement) :
    TxnMove db.toTxnState (db_exec db st).1.toTxnState := by
  obtain ⟨_, -, hstep⟩ := db_exec_step db st
  exact hstep.move

/-- The invariant of the transactions holds in every run. -/
theorem txn_inv_run {db db' : Database} {sts : List Statement} (hopen : Opened db)
    (hrun : run db_step db sts = some db') : TxnInv db'.toTxnState := by
  have hsteps : Steps db_step (fun _ _ => True) db sts db' := .of_run (fun _ _ _ => trivial) hrun
  exact hsteps.invariant (fun db => TxnInv db.toTxnState)
    (fun db st _ hinv _ hs => by cases hs; exact hinv.move (db_exec_move db st)) hopen.inv

theorem forall₂_mem_right {ts ts' : List Table}
    (h : List.Forall₂ R ts ts') (ht' : t' ∈ ts') : ∃ t ∈ ts, R t t' := by
  induction h with
  | nil => cases ht'
  | cons hr _ ih =>
    rcases mem_cons.mp ht' with rfl | ht'
    · exact ⟨_, mem_cons_self, hr⟩
    · obtain ⟨t, ht, hrt⟩ := ih ht'
      exact ⟨t, mem_cons_of_mem _ ht, hrt⟩

/-- The tables of an autocommitted statement at its end: the old ones after
    their moves, and a new one. -/
theorem mem_moved_or_new {txn : Nat} {ts ts' created : List Table}
    (hmoves : List.Forall₂ R ts ts')
    (hcreated : created = [] ∨ ∃ c, st = .create c ∧ created = [(table_new c).begin_write txn])
    (ht' : t' ∈ ts' ++ created) :
    (∃ t ∈ ts, R t t') ∨ ∃ c, t' = (table_new c).begin_write txn := by
  rcases mem_append.mp ht' with ht' | ht'
  · exact .inl (forall₂_mem_right hmoves ht')
  · rcases hcreated with rfl | ⟨c, -, rfl⟩
    · cases ht'
    · exact .inr ⟨c, mem_singleton.mp ht'⟩

/-- A property of single tables holds after a call if moves give it, the end of
    transactions keeps it, and new tables have it. -/
theorem DbStep.keeps {db' : Database} {P : Table → Prop} (hstep : DbStep db st db')
    (h : ∀ t ∈ db.tables, P t)
    (hmove : ∀ d, Running db.toTxnState d → ∀ t ∈ db.tables, ∀ t', TableMove d st t t' → P t')
    (hfinish : ∀ t txn ok, (TxnInv db.toTxnState → txn ≠ 0) → P t → P (t.finish txn ok))
    (hnew : ∀ c txn, P ((table_new c).begin_write txn)) : ∀ t' ∈ db'.tables, P t' := by
  intro t' ht'
  cases hstep with
  | idle _ _ htab => exact h t' (htab ▸ ht')
  | conflict _ htab => exact h t' (htab ▸ ht')
  | begin _ _ htab => exact h t' (htab ▸ ht')
  | switch _ _ _ htab => exact h t' (htab ▸ ht')
  | stmt lm _ _ _ htab =>
    obtain ⟨t, ht, hm⟩ := forall₂_mem_right htab ht'
    exact hmove _ (.session lm) t ht t' hm
  | auto lm ok _ _ ts created _ hmoves hcreated htab =>
    rw [htab] at ht'
    obtain ⟨t₁, ht₁, rfl⟩ := mem_map.mp ht'
    refine hfinish t₁ _ ok TxnInv.next_ne ?_
    rcases mem_moved_or_new hmoves hcreated ht₁ with ⟨t, ht, hm⟩ | ⟨c, rfl⟩
    · exact hmove _ (.auto lm) t ht t₁ hm
    · exact hnew c _
  | finish ok hin _ htab =>
    rw [htab] at ht'
    obtain ⟨t, ht, rfl⟩ := mem_map.mp ht'
    exact hfinish t _ ok (·.txn_pos hin) (h t ht)

end Step

end MiniDb
