import MiniDb.Db.Moves

/-! # The id a statement takes for its own

  Every test of visibility compares with `cur_txn`.  It is set before the
  statement itself runs, but after its subqueries: these still use what the
  statement before has left there. -/

namespace MiniDb

open Framework List

/-- A statement that is a transaction of its own. -/
def autocommits (db : Database) (st : Statement) : Bool :=
  st.is_write && (!db.session.in_txn || st.is_create)

/-- The session's transaction, or 0 without one, or the id the statement gets
    for itself. -/
def OwnId (db : Database) (st : Statement) (x : Nat) : Prop :=
  x = db.own_txn ∨ autocommits db st = true ∧ x = db.next_txn

instance (db : Database) (st : Statement) (x : Nat) : Decidable (OwnId db st x) :=
  inferInstanceAs (Decidable (_ ∨ _))

/-- Every test was made in state `d`. -/
def TestsIn (d : TxnState) (tests : List Test) : Prop := ∀ x ∈ tests, x = rec_test d x.version

section Tests

variable {d : TxnState} (p : JoinPlan) {α : Type}

theorem TestsIn.nil : TestsIn d [] := by simp [TestsIn]

theorem TestsIn.append {l l' : List Test} (h : TestsIn d l) (h' : TestsIn d l') :
    TestsIn d (l ++ l') := by
  exact forall_mem_append.mpr ⟨h, h'⟩

theorem TestsIn.map (f : α → Version) (l : List α) : TestsIn d (l.map fun a => rec_test d (f a)) := by
  intro x hx
  obtain ⟨_, _, rfl⟩ := mem_map.mp hx
  rfl

theorem TestsIn.bind {α β : Type} {x : Tested α} {f : α → Tested β} (hx : TestsIn d x.tests)
    (hf : ∀ a, TestsIn d (f a).tests) : TestsIn d (x >>= f).tests := by
  show TestsIn d (x.bind f).tests
  unfold Tested.bind
  split
  · exact hx
  · next a _ => exact hx.append (hf a)

theorem TestsIn.pure (a : α) : TestsIn d (pure a : Tested α).tests := nofun

/-! ### Subqueries -/

mutual

theorem run_subquery_tests (db : Database) :
    ∀ sub : SelectStmt, TestsIn db.toTxnState (run_subquery db sub).tests
  | ⟨_, table, as_name, joins, _, select_star, items, _, _, group_col, _, _, _, filter, _, _, _⟩ => by
    unfold run_subquery
    split
    · refine .bind (prepare_where_tests db filter) fun w => ?_
      split
      · exact .nil
      · exact .map _ _
    · exact .nil

theorem run_sub_tests (db : Database) :
    ∀ sub : Option SelectStmt, TestsIn db.toTxnState (run_sub db sub).tests
  | none => .nil
  | some sub => run_subquery_tests db sub

theorem prepare_cond_tests (db : Database) :
    ∀ c : Condition, TestsIn db.toTxnState (prepare_cond db c).tests
  | ⟨tbl, col, op, val, in_sub, in_negate, scalar_sub, sub, in_set⟩ => by
    unfold prepare_cond
    split
    · exact .bind (run_sub_tests db sub) fun set => .pure _
    · exact .pure _

theorem prepare_group_tests (db : Database) :
    ∀ g : List Condition, TestsIn db.toTxnState (prepare_group db g).tests
  | [] => .nil
  | c :: cs => .bind (prepare_cond_tests db c) fun _ =>
      .bind (prepare_group_tests db cs) fun _ => .pure _

theorem prepare_where_tests (db : Database) :
    ∀ w : List (List Condition), TestsIn db.toTxnState (prepare_where db w).tests
  | [] => .nil
  | g :: gs => .bind (prepare_group_tests db g) fun _ =>
      .bind (prepare_where_tests db gs) fun _ => .pure _

end

theorem prepare_stmt_tests (db : Database) (st : Statement) :
    TestsIn db.toTxnState (prepare_stmt db st).tests := by
  cases st with
  | select sel => exact .bind (prepare_where_tests db sel.filter) fun _ => .pure _
  | delete table w => exact .bind (prepare_where_tests db w) fun _ => .pure _
  | update table set_col set_val w => exact .bind (prepare_where_tests db w) fun _ => .pure _
  | _ => exact .nil

/-! ### Joins -/

/-- A part of the walk that makes no other tests. -/
def KeepsIn (d : TxnState) (f : MJoin → MJoin × Bool) : Prop :=
  ∀ m, TestsIn d m.tests → TestsIn d (f m).1.tests

theorem KeepsIn.visit_all {visit : α → MJoin → MJoin × Bool}
    (h : ∀ a, KeepsIn d (visit a)) (as : List α) : KeepsIn d (visit_all visit as) := by
  induction as with
  | nil => exact fun m hm => hm
  | cons a as ih =>
    intro m hm
    have hnext := h a m hm
    unfold MiniDb.visit_all
    split
    · next heq => rwa [heq] at hnext
    · next m' heq =>
      rw [heq] at hnext
      exact ih m' hnext

theorem pk_vis_find_tests (d : TxnState) (recs : List Version) :
    TestsIn d (pk_vis_find d recs).2 := by
  induction recs with
  | nil => exact .nil
  | cons rec recs ih =>
    unfold pk_vis_find
    split
    · exact .map id [rec]
    · exact .append (.map id [rec]) ih

theorem KeepsIn.mjoin_emit : KeepsIn d (mjoin_emit p) := by
  intro m hm
  unfold MiniDb.mjoin_emit
  dsimp only
  repeat' split
  all_goals exact hm

theorem KeepsIn.join_level (k : Nat) (l : JoinLevel)
    {down : MJoin → MJoin × Bool} (h : KeepsIn d down) :
    KeepsIn d (join_level d p k l down) := by
  intro m hm
  unfold MiniDb.join_level
  split
  · split
    · next v _ =>
      have htests := hm.append
        (pk_vis_find_tests d (fetch_all l.tab (btree_find_all l.tab.index v)))
      dsimp only
      split
      · exact h _ htests
      · exact htests
    · exact hm
  · refine KeepsIn.visit_all (fun e m hm => ?_) _ m hm
    split
    · exact h _ hm
    · exact hm
  · refine KeepsIn.visit_all (fun x m hm => ?_) _ m hm
    have htests := hm.append (.map id [x.2] : TestsIn d [rec_test d x.2])
    dsimp only
    split
    · exact htests
    split
    · exact h _ htests
    split
    · exact h _ htests
    · exact htests

theorem KeepsIn.mjoin_descend (ls : List JoinLevel) (k : Nat) :
    KeepsIn d (mjoin_descend d p k ls) := by
  induction ls generalizing k with
  | nil => exact .mjoin_emit p
  | cons l ls ih =>
    intro m hm
    have hlevel := KeepsIn.join_level p k l (ih (k + 1)) (if k = 0 then m else m.mark k false)
      (by split <;> exact hm)
    unfold MiniDb.mjoin_descend
    dsimp only
    split
    · next heq => rwa [heq] at hlevel
    · next m' heq =>
      rw [heq] at hlevel
      split
      · exact ih (k + 1) _ hlevel
      · exact hlevel

theorem join_rows_tests (sel : SelectStmt) (levels : List JoinLevel) (method : Nat → JoinMethod) :
    TestsIn d (join_rows d sel levels method).tests := by
  have hbuilt : TestsIn d
      ((List.range levels.length).flatMap fun k => (join_hash d levels method k).2) := by
    intro x hx
    obtain ⟨k, -, hx⟩ := mem_flatMap.mp hx
    unfold join_hash at hx
    repeat' split at hx
    · exact TestsIn.map _ _ x hx
    all_goals cases hx
  have hwalk := KeepsIn.mjoin_descend (d := d) (join_plan d sel levels method) levels 0
    mjoin_start .nil
  unfold join_rows
  dsimp only
  repeat' split
  · exact hbuilt
  all_goals exact hbuilt.append hwalk

theorem exec_select_single_tests (t : Table) (sel : SelectStmt) :
    TestsIn d (exec_select_single d t sel).tests := by
  unfold exec_select_single
  extract_lets tname r
  split
  · exact .nil
  split
  · unfold exec_select_project
    dsimp only
    split <;> exact .map _ _
  split
  · exact .map _ _
  · show TestsIn d r.tests
    unfold r path_read
    split <;> exact .map _ _

theorem exec_select_tests (db : Database) (sel : SelectStmt) :
    TestsIn db.toTxnState (exec_select db sel).tests := by
  unfold exec_select exec_select_join
  repeat' split
  · exact .nil
  · exact .nil
  · exact .nil
  · exact join_rows_tests sel _ _
  · exact .nil
  · next t _ => exact exec_select_single_tests t sel

/-! ### Statements -/

theorem exec_stmt_tests (db : Database) (st : Statement) :
    TestsIn db.toTxnState (exec_stmt db st).2.tests := by
  cases st with
  | select sel => exact exec_select_tests db sel
  | create_index name table column =>
    simp only [exec_stmt, exec_create_index]
    repeat' split
    · exact .nil
    · exact .nil
    · exact .map _ _
  | delete table w =>
    simp only [exec_stmt, exec_delete]
    split
    · exact .nil
    · exact .map _ _
  | update table set_col set_val w =>
    simp only [exec_stmt, exec_update]
    repeat' split
    · exact .nil
    · exact .nil
    · exact .map _ _
  | analyze table =>
    simp only [exec_stmt, exec_analyze]
    repeat' split
    · intro x hx
      obtain ⟨t, -, hx⟩ := mem_flatMap.mp hx
      exact TestsIn.map _ _ x hx
    · exact .nil
    · exact .map _ _
  | _ =>
    -- no other statement makes a test
    simp only [exec_stmt, exec_create, exec_insert, exec_vacuum, exec_begin, exec_commit,
      exec_rollback, exec_end, exec_session]
    repeat' split
    all_goals exact .nil

end Tests

section Statements

variable {db : Database} {st : Statement}

/-- Preparing a statement does not change what kind of statement it is. -/
theorem prepare_stmt_kind {st' : Statement} (h : (prepare_stmt db st).result = some st') :
    st'.is_write = st.is_write ∧ st'.is_create = st.is_create := by
  have hsame := prepare_stmt_same h
  cases st <;> cases st' <;> first | exact ⟨rfl, rfl⟩ | cases hsame

/-- The statement itself is tested under its own id. -/
theorem exec_prepared_tests (db : Database) (st : Statement) :
    ∃ d', Running db.toTxnState d' ∧ OwnId db st d'.cur_txn ∧
      TestsIn d' (exec_prepared db st).2.tests := by
  have hown : (db.toTxnState.set_lm db.lm).set_cur db.own_txn = db.toTxnState.set_cur db.own_txn := rfl
  unfold exec_prepared
  split
  · next hw =>
    split
    · next hauto =>
      have hst : autocommits db st = true := by rw [autocommits, hw, hauto]; rfl
      unfold exec_autocommit
      dsimp only
      split
      · exact ⟨_, .auto db.lm, .inr ⟨hst, rfl⟩, .nil⟩
      · next lm _ => exact ⟨_, .auto lm, .inr ⟨hst, rfl⟩, exec_stmt_tests _ st⟩
    · next hin =>
      have hin' : db.session.in_txn = true := by
        simp only [Bool.or_eq_true, Bool.not_eq_true', not_or, Bool.not_eq_false] at hin
        exact hin.1
      have hsession : db.session.txn = db.own_txn := (if_pos hin').symm
      unfold exec_in_txn
      dsimp only
      split
      · exact ⟨_, .session db.lm, .inl rfl, .nil⟩
      · next lm _ =>
        rw [hsession]
        exact ⟨_, .session lm, .inl rfl, exec_stmt_tests _ st⟩
  · exact ⟨_, .session db.lm, .inl rfl, hown ▸ exec_stmt_tests _ st⟩

/-- The tests of the subqueries, and then those of the statement. -/
theorem db_exec_tests (db : Database) (st : Statement) :
    ∃ d' tests, Running db.toTxnState d' ∧ OwnId db st d'.cur_txn ∧ TestsIn d' tests ∧
      (db_exec db st).2.tests = (prepare_stmt db st).tests ++ tests := by
  unfold db_exec
  dsimp only
  split
  · exact ⟨_, [], .session db.lm, .inl rfl, .nil, (append_nil _).symm⟩
  · next st' hst' =>
    obtain ⟨d', hrun, hown, htests⟩ := exec_prepared_tests db st'
    obtain ⟨hw, hc⟩ := prepare_stmt_kind hst'
    rw [OwnId, autocommits, hw, hc] at hown
    exact ⟨d', _, hrun, hown, htests, rfl⟩

/-! ### Records that subqueries meet -/

/-- Whether two steps can both be made, and whether one of those made meets a
    record. -/
def both (a b : Bool × Bool) : Bool × Bool := (a.1 && b.1, a.2 || a.1 && b.2)

mutual

/-- Whether a subquery can be run, and whether it meets a record. -/
def subquery_meets (db : Database) : SelectStmt → Bool × Bool
  | ⟨_, table, _, joins, _, select_star, items, _, _, group_col, _, _, _, filter, _, _, _⟩ =>
    match subquery_item joins select_star items group_col, find_table db table with
    | some it, some t => both (where_meets db filter)
        ((last_column t.schema it.col).isSome,
          (last_column t.schema it.col).isSome && !(heap_scan t.heap).isEmpty)
    | _, _ => (false, false)

def sub_meets (db : Database) : Option SelectStmt → Bool × Bool
  | none => (false, false)
  | some sub => subquery_meets db sub

def cond_meets (db : Database) : Condition → Bool × Bool
  | ⟨_, _, _, _, in_sub, _, _, sub, in_set⟩ =>
    if in_sub && in_set.isNone then sub_meets db sub else (true, false)

def group_meets (db : Database) : List Condition → Bool × Bool
  | [] => (true, false)
  | c :: cs => both (cond_meets db c) (group_meets db cs)

def where_meets (db : Database) : List (List Condition) → Bool × Bool
  | [] => (true, false)
  | g :: gs => both (group_meets db g) (where_meets db gs)

end

/-- A subquery that is run for the statement scans a table that holds a record. -/
def subqueries_meet (db : Database) : Statement → Bool
  | .select sel => (where_meets db sel.filter).2
  | .delete _ w => (where_meets db w).2
  | .update _ _ _ w => (where_meets db w).2
  | _ => false

/-- Whether there is a result, and whether a test was made. -/
def Tested.meets {α : Type} (x : Tested α) : Bool × Bool := (x.result.isSome, !x.tests.isEmpty)

theorem Tested.meets_bind {α β : Type} {x : Tested α} {f : α → Tested β} {m : Bool × Bool}
    (h : ∀ a, (f a).meets = m) : (x >>= f).meets = both x.meets m := by
  show (Tested.bind x f).meets = _
  unfold Tested.bind
  cases hx : x.result with
  | none => simp [Tested.meets, both, hx]
  | some a =>
    rw [← h a]
    cases htests : x.tests <;> simp [Tested.meets, both, hx, htests]

theorem Tested.meets_pure {α β : Type} (x : Tested α) (f : α → β) :
    (x >>= fun a => (pure (f a) : Tested β)).meets = x.meets := by
  rw [Tested.meets_bind (m := (true, false)) fun _ => rfl]
  simp [both]

mutual

theorem run_subquery_meets (db : Database) :
    ∀ sub : SelectStmt, (run_subquery db sub).meets = subquery_meets db sub
  | ⟨_, table, as_name, joins, _, select_star, items, _, _, group_col, _, _, _, filter, _, _, _⟩ => by
    unfold run_subquery subquery_meets
    cases subquery_item joins select_star items group_col with
    | none => rfl
    | some it =>
      cases find_table db table with
      | none => rfl
      | some t =>
        dsimp only
        rw [← prepare_where_meets db filter]
        refine Tested.meets_bind fun w => ?_
        cases last_column t.schema it.col with
        | none => rfl
        | some col => simp [Tested.meets, sub_scan, scan_rows, scan_read]

theorem run_sub_meets (db : Database) :
    ∀ sub : Option SelectStmt, (run_sub db sub).meets = sub_meets db sub
  | none => rfl
  | some sub => run_subquery_meets db sub

theorem prepare_cond_meets (db : Database) :
    ∀ c : Condition, (prepare_cond db c).meets = cond_meets db c
  | ⟨tbl, col, op, val, in_sub, in_negate, scalar_sub, sub, in_set⟩ => by
    unfold prepare_cond cond_meets
    split
    · rw [Tested.meets_pure]
      exact run_sub_meets db sub
    · rfl

theorem prepare_group_meets (db : Database) :
    ∀ g : List Condition, (prepare_group db g).meets = group_meets db g
  | [] => rfl
  | c :: cs => by
    unfold prepare_group group_meets
    rw [Tested.meets_bind fun _ => Tested.meets_pure _ _, prepare_cond_meets, prepare_group_meets]

theorem prepare_where_meets (db : Database) :
    ∀ w : List (List Condition), (prepare_where db w).meets = where_meets db w
  | [] => rfl
  | g :: gs => by
    unfold prepare_where where_meets
    rw [Tested.meets_bind fun _ => Tested.meets_pure _ _, prepare_group_meets, prepare_where_meets]

end

theorem prepare_stmt_meets (db : Database) (st : Statement) :
    subqueries_meet db st = true ↔ (prepare_stmt db st).tests ≠ [] := by
  have hwhere : ∀ {w : Where} {f : Where → Statement},
      (where_meets db w).2 = true ↔ (prepare_where db w >>= fun w => pure (f w)).tests ≠ [] := by
    intro w f
    have hmeets := congrArg Prod.snd (Tested.meets_pure (prepare_where db w) f)
    rw [← prepare_where_meets, ← hmeets]
    simp [Tested.meets]
  cases st with
  | select sel => exact hwhere
  | delete table w => exact hwhere
  | update table set_col set_val w => exact hwhere
  | _ => exact iff_of_false nofun fun h => h rfl

/-- Every test of a statement uses its own id exactly when its subqueries meet
    no record or find that id already set. -/
theorem tests_own_iff (db : Database) (st : Statement) :
    (∀ x ∈ (db_exec db st).2.tests, OwnId db st x.own) ↔
      (subqueries_meet db st = true → OwnId db st db.cur_txn) := by
  have hprep := prepare_stmt_tests db st
  obtain ⟨d', tests, -, hown, htests, heq⟩ := db_exec_tests db st
  rw [heq, forall_mem_append, prepare_stmt_meets]
  constructor
  · rintro ⟨h, -⟩ hne
    obtain ⟨x, hx⟩ := exists_mem_of_ne_nil _ hne
    have := h x hx
    rwa [hprep x hx] at this
  · refine fun h => ⟨fun x hx => ?_, fun x hx => ?_⟩
    · rw [hprep x hx]
      exact h (ne_nil_of_mem hx)
    · rw [htests x hx]
      exact hown

/-- Under an own id no version of another session's open transaction is seen. -/
theorem OwnId.hides_open (hinv : TxnInv db.toTxnState) {d' : TxnState} {rec : Version} {i : Nat}
    (hd : d' = db.toTxnState ∨ Running db.toTxnState d') (h : OwnId db st d'.cur_txn)
    (hvis : rec_visible d' rec = true) (hi : i ≠ db.cur_session)
    (hopen : (db.sessions i).in_txn = true) : rec.xmin ≠ (db.sessions i).txn := by
  have hge := hinv.txn_ge i hopen
  have hlt := hinv.txn_lt i hopen
  have hpos := hinv.below_pos
  -- the state of the test has the transaction open as well
  have hstatus : d'.committed_below = db.committed_below ∧
      txnlog_status d'.txnlog (db.sessions i).txn = .TXN_INPROGRESS := by
    rcases hd with rfl | hrun
    · exact ⟨rfl, hinv.txn_open i hopen⟩
    · cases hrun with
      | session => exact ⟨rfl, hinv.txn_open i hopen⟩
      | auto => exact ⟨rfl, (txnlog_status_set_ne _ _ (ne_of_lt hlt)).trans (hinv.txn_open i hopen)⟩
  intro hmin
  rw [rec_visible_def, row_visible_eq, Bool.and_eq_true, Bool.or_eq_true, decide_eq_true_eq, hmin] at hvis
  rcases hvis.1 with hown | hview
  · rcases h with hx | ⟨-, hx⟩
    · rw [hx, TxnState.own_txn] at hown
      split at hown
      · next hin => exact hi (hinv.txn_inj i db.cur_session hopen hin hown)
      · omega
    · omega
  · -- an open transaction has no outcome yet
    unfold txn_committed_view at hview
    rw [if_neg (by omega), if_neg (by omega), hstatus.2, if_pos (by decide)] at hview
    cases hview

end Statements

/-! ### Rows that are found -/

def SelectRows.all : SelectRows → List Row
  | .none => []
  | .stream rows => rows
  | .collected rows => rows

/-- Every row found is that of a version seen in one of the tests. -/
def FromTests (rows : List Row) (tests : List Test) : Prop :=
  ∀ row ∈ rows, ∃ x ∈ tests, x.seen = true ∧ x.version.row = row

section Found

variable {d : TxnState} {t : Table} {tname : String} {w : Where}

theorem scan_rows_from : FromTests (scan_rows d t tname w).found (scan_rows d t tname w).tests := by
  intro row hrow
  obtain ⟨x, hx, hvisit⟩ := mem_filterMap.mp hrow
  obtain ⟨hvis, hvisit⟩ := Option.ite_none_right_eq_some.mp hvisit
  obtain ⟨-, hvisit⟩ := Option.ite_none_right_eq_some.mp hvisit
  exact ⟨rec_test d x.2, mem_map_of_mem hx, hvis, Option.some.inj hvisit⟩

theorem fetch_read_from (vals : List Int) :
    FromTests (fetch_read d t vals).found (fetch_read d t vals).tests := by
  intro row hrow
  obtain ⟨rec, hrec, hvisit⟩ := mem_filterMap.mp hrow
  obtain ⟨hvis, hvisit⟩ := Option.ite_none_right_eq_some.mp hvisit
  exact ⟨rec_test d rec, mem_map_of_mem hrec, hvis, Option.some.inj hvisit⟩

theorem exec_select_single_from (sel : SelectStmt) :
    FromTests (exec_select_single d t sel).rows.all (exec_select_single d t sel).tests := by
  have htake : ∀ (n : Nat) (tname : String) (w : Where),
      FromTests ((scan_rows d t tname w).found.take n) (scan_rows d t tname w).tests :=
    fun n _ _ row hrow => scan_rows_from row (mem_of_mem_take hrow)
  unfold exec_select_single
  extract_lets tname r
  split
  · exact nofun
  split
  · unfold exec_select_project
    dsimp only
    split
    · exact scan_rows_from
    · exact htake _ _ _
  split
  · exact htake _ _ _
  · show FromTests r.found r.tests
    unfold r path_read
    split
    · exact fetch_read_from _
    · exact fetch_read_from _
    · exact fun row hrow => fetch_read_from _ row (mem_filter.mp hrow).1
    · exact scan_rows_from

/-- A SELECT on one table. -/
theorem db_exec_select_from (db : Database) {sel : SelectStmt} (hjoins : sel.joins = []) :
    FromTests (db_exec db (.select sel)).2.rows.all (db_exec db (.select sel)).2.tests := by
  unfold db_exec
  dsimp only
  split
  · exact nofun
  · next st' hst' =>
    obtain ⟨w, rfl⟩ : ∃ w, st' = .select { sel with filter := w } := by
      rw [prepare_stmt, Tested.bind_result] at hst'
      obtain ⟨w, -, hw⟩ := Option.bind_eq_some_iff.mp hst'
      exact ⟨w, (Option.some.inj hw).symm⟩
    intro row hrow
    have hselect : ∀ db, FromTests (exec_select db { sel with filter := w }).rows.all
        (exec_select db { sel with filter := w }).tests := by
      intro db
      unfold exec_select
      rw [if_neg (by simp [hjoins])]
      split
      · exact nofun
      · exact exec_select_single_from _
    obtain ⟨x, hx, hseen⟩ := hselect _ row hrow
    exact ⟨x, mem_append_right _ hx, hseen⟩

end Found

/-- In every state that is reached, the tests of a statement all use its own id
    exactly when its subqueries meet no record or find that id set.  Then nothing
    that the statement finds was written by another session's open transaction;
    the rows of a SELECT on one table are rows found. -/
theorem own_ids_in_run {db₀ db : Database} {sts : List Statement} (hopen : Opened db₀)
    (hrun : run db_step db₀ sts = some db) (st : Statement) :
    ((∀ x ∈ (db_exec db st).2.tests, OwnId db st x.own) ↔
      (subqueries_meet db st = true → OwnId db st db.cur_txn)) ∧
    ((subqueries_meet db st = true → OwnId db st db.cur_txn) →
      ∀ x ∈ (db_exec db st).2.tests, x.seen = true →
        ∀ i, i ≠ db.cur_session → (db.sessions i).in_txn = true → x.version.xmin ≠ (db.sessions i).txn) ∧
    ∀ sel, st = .select sel → sel.joins = [] →
      FromTests (db_exec db st).2.rows.all (db_exec db st).2.tests := by
  have hinv := txn_inv_run hopen hrun
  refine ⟨tests_own_iff db st, fun hsub x hx hseen i hi hin => ?_, ?_⟩
  · have hown := (tests_own_iff db st).mpr hsub x hx
    obtain ⟨d', tests, hrunning, -, htests, heq⟩ := db_exec_tests db st
    rw [heq, mem_append] at hx
    obtain ⟨d, hd, hx⟩ : ∃ d, (d = db.toTxnState ∨ Running db.toTxnState d) ∧ x = rec_test d x.version :=
      hx.elim (fun hx => ⟨_, .inl rfl, prepare_stmt_tests db st x hx⟩)
        fun hx => ⟨d', .inr hrunning, htests x hx⟩
    rw [hx] at hown hseen
    exact OwnId.hides_open hinv hd hown hseen hi hin
  · rintro sel rfl hjoins
    exact db_exec_select_from db hjoins

/-- Session 0 has written a row and not committed it. -/
def open_insert : List Statement :=
  [.create ⟨"t", [int_column "id"], 0⟩, .begin, .insert "t" [.int 1]]

/-- `SELECT * FROM t WHERE id IN (SELECT id FROM t)` -/
def nested_select : Statement := .select (select_all "t" [[in_select "id" (select_col "t" "id" [])]])

theorem own_ids_nested_select :
    ∃ db, run db_step db_new open_insert = some db ∧ subqueries_meet db nested_select = true ∧
      db.cur_txn = 2 ∧ ∀ x ∈ (db_exec db nested_select).2.tests, OwnId db nested_select x.own := by
  have hfacts : (run db_step db_new open_insert).any fun db =>
      subqueries_meet db nested_select = true ∧ db.cur_txn = 2 ∧ db.own_txn = 2 := by
    decide +kernel
  simp only [Option.any_eq_true, decide_eq_true_eq] at hfacts
  obtain ⟨db, hrun, hmeet, hcur, hown⟩ := hfacts
  exact ⟨db, hrun, hmeet, hcur, (own_ids_in_run db_new_opened hrun nested_select).1.mpr
    fun _ => .inl (hcur.trans hown.symm)⟩

/-- After a switch to session 1 its subquery still runs under the id of
    session 0 and sees what that has not committed. -/
theorem own_ids_after_switch :
    ¬∀ (db₀ db : Database) (sts : List Statement) (st : Statement), Opened db₀ →
      run db_step db₀ sts = some db → ∀ x ∈ (db_exec db st).2.tests, OwnId db st x.own := by
  intro hall
  have hfacts : (run db_step db_new (open_insert ++ [.session 1])).any fun db =>
      (∃ x ∈ (db_exec db nested_select).2.tests, x.own = 2 ∧ x.seen = true ∧ x.version.xmin = 2) ∧
        db.own_txn = 0 ∧ autocommits db nested_select = false := by decide +kernel
  simp only [Option.any_eq_true, decide_eq_true_eq] at hfacts
  obtain ⟨db, hrun, ⟨x, hx, htwo, -⟩, hown, hauto⟩ := hfacts
  have hid := hall db_new db _ nested_select db_new_opened hrun x hx
  rw [OwnId, hown, hauto, htwo] at hid
  rcases hid with hid | ⟨hid, -⟩ <;> cases hid

end MiniDb
