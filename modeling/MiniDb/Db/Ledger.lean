import MiniDb.Db.JoinWalk
import MiniDb.Db.OwnIds
import MiniDb.Db.Writers

/-! # Committed transactions

  A `Ledger` notes beside a database which transactions have been reported as
  committed.  The status table has them too, as long as their ids have a place
  in it; what else ended transactions have left in a heap was committed. -/

namespace MiniDb

open Framework List Function

/-! ### The ledger -/

/-- The transaction that the outcome of a statement reports as committed. -/
def committed_by (db : Database) (st : Statement) : Option Nat :=
  if (db_exec db st).2.ok then
    if autocommits db st then some db.next_txn
    else
      match st with
      | .commit => some db.session.txn
      | _ => none
  else none

structure Ledger where
  db : Database
  committed : List Nat

/-- After `db_open`, the ids below the stored counter count as committed. -/
def Ledger.opened (db : Database) : Ledger := ⟨db, range' 1 (db.next_txn - 1)⟩

def Ledger.start : Ledger := .opened db_new

def Ledger.step (l : Ledger) (st : Statement) : Option Ledger :=
  let db := (db_exec l.db st).1
  match committed_by l.db st with
  | none => some { l with db := db }
  | some x => some ⟨db, x :: l.committed⟩

/-! ### Outcomes in the status table -/

/-- The status table has the transaction as committed. -/
def OnRecord (d : TxnState) (x : Nat) : Prop := txnlog_status d.txnlog x = .TXN_COMMITTED

section Outcomes

variable {db : Database} {st : Statement} {d : TxnState}

theorem OnRecord.in_range {x : Nat} (h : OnRecord d x) : 0 < x ∧ x < TXN_MAX := by
  unfold OnRecord txnlog_status at h
  by_contra hout
  rw [if_neg hout] at h
  cases h

theorem recorded_record {txn x : Nat} (ok : Bool) (hopen : ¬ OnRecord d txn) :
    OnRecord (d.record txn ok) x ↔ OnRecord d x ∨ (ok = true ∧ x = txn ∧ 0 < x ∧ x < TXN_MAX) := by
  by_cases hx : x = txn
  · subst hx
    cases ok with
    | false =>
      refine iff_of_false (fun h => ?_) (by simp [hopen])
      rcases txnlog_status_set_cases .TXN_ABORTED d.txnlog x with ha | ha
      · exact absurd (ha.symm.trans h) nofun
      · exact absurd (ha.symm.trans h) nofun
    | true =>
      refine ⟨fun h => .inr ⟨rfl, rfl, h.in_range⟩, fun h => ?_⟩
      rcases h with h | ⟨-, -, h0, hmax⟩
      · exact absurd h hopen
      · exact txnlog_status_set_self _ _ h0 hmax
  · have hsame : OnRecord (d.record txn ok) x ↔ OnRecord d x := by
      rw [OnRecord, status_record_ne d ok hx, OnRecord]
    rw [hsame]
    simp [hx]

theorem recorded_take_id (h : TxnInv d) (x : Nat) : OnRecord d.take_id x ↔ OnRecord d x := by
  by_cases hx : x = d.next_txn
  · subst hx
    refine iff_of_false (fun hc => ?_) fun hc => ?_
    · exact absurd ((status_set_self_open d.txnlog d.next_txn).symm.trans hc) nofun
    · exact absurd ((h.fresh _ le_rfl).symm.trans hc) nofun
  · rw [OnRecord, OnRecord]
    exact (congrArg (· = _) (txnlog_status_set_ne _ _ hx)).to_iff

theorem not_recorded_next (h : TxnInv d) : ¬ OnRecord d d.next_txn := by
  intro hc
  exact absurd ((h.fresh _ le_rfl).symm.trans hc) nofun

theorem not_recorded_open (h : TxnInv d) (hin : d.session.in_txn = true) :
    ¬ OnRecord d d.session.txn := by
  intro hc
  exact absurd ((h.txn_open _ hin).symm.trans hc) nofun

/-- The transaction that a prepared statement ends as committed. -/
def prepared_commit (db : Database) (st : Statement) : Option Nat :=
  if (exec_prepared db st).2.ok then
    if autocommits db st then some db.next_txn
    else
      match st with
      | .commit => some db.session.txn
      | _ => none
  else none

theorem prepared_commit_write (hin : autocommits db st = false) (hst : st ≠ .commit) :
    prepared_commit db st = none := by
  unfold prepared_commit
  rw [hin]
  split
  · rw [if_neg Bool.false_ne_true]
    split
    · exact absurd rfl hst
    · rfl
  · rfl

variable (h : TxnInv db.toTxnState)

include h

theorem exec_end_recorded (own x : Nat) (ok : Bool) :
    OnRecord (exec_end (db.on (·.set_cur own)) ok).1.toTxnState x ↔ OnRecord db.toTxnState x ∨
      ((exec_end (db.on (·.set_cur own)) ok).2.ok = true ∧ ok = true ∧ x = db.session.txn ∧ 0 < x ∧
        x < TXN_MAX) := by
  unfold exec_end
  split
  · exact ⟨.inl, fun h => h.elim id fun h => absurd h.1 nofun⟩
  · next hin =>
    have hin' : (db.on (·.set_cur own)).session.in_txn = true := by simpa using hin
    have hin : db.session.in_txn = true := hin'
    have hrec := recorded_record ok (x := x) (not_recorded_open h hin)
    have htxn : (end_txn (db.on (·.set_cur own)) db.session.txn ok).txnlog =
        (db.toTxnState.record db.session.txn ok).txnlog := by cases ok <;> rfl
    refine Iff.trans ?_ (hrec.trans (or_congr_right ?_))
    · change txnlog_status (end_txn (db.on (·.set_cur own)) db.session.txn ok).txnlog x = _ ↔ _
      rw [htxn]
      rfl
    · exact ⟨fun hr => ⟨rfl, hr⟩, And.right⟩

theorem exec_autocommit_recorded (hw : st.is_write = true) (x : Nat) :
    OnRecord (exec_autocommit db st).1.toTxnState x ↔ OnRecord db.toTxnState x ∨
      ((exec_autocommit db st).2.ok = true ∧ x = db.next_txn ∧ 0 < x ∧ x < TXN_MAX) := by
  have hnext : ¬ OnRecord db.toTxnState.take_id db.next_txn :=
    mt (recorded_take_id h _).1 (not_recorded_next h)
  unfold exec_autocommit
  dsimp only
  cases hlm : acquire_stmt_locks (db.on TxnState.take_id).lm st db.next_txn with
  | none =>
    have hrec : OnRecord (db.toTxnState.take_id.record db.next_txn false) x ↔ _ :=
      recorded_record false hnext
    rw [recorded_take_id h] at hrec
    refine hrec.trans (or_congr_right ?_)
    exact iff_of_false (fun hc => nomatch hc.1) fun hc => nomatch hc.1
  | some lm =>
    have hstmt := exec_stmt_txn ((db.on TxnState.take_id).on (·.set_lm lm))
      (is_control_of_is_write hw)
    dsimp only
    generalize exec_stmt ((db.on TxnState.take_id).on (·.set_lm lm)) st = r at hstmt ⊢
    have hold : ∀ y, OnRecord r.1.toTxnState y ↔ OnRecord db.toTxnState y := by
      intro y
      rw [hstmt]
      exact recorded_take_id h y
    have hrec : OnRecord (r.1.toTxnState.record db.next_txn r.2.ok) x ↔ _ :=
      recorded_record r.2.ok (mt (hold _).1 (not_recorded_next h))
    rw [hold, ← end_txn_txn] at hrec
    exact hrec

/-- A statement records the outcome it reports. -/
theorem exec_prepared_recorded (st : Statement) (x : Nat) :
    OnRecord (exec_prepared db st).1.toTxnState x ↔ OnRecord db.toTxnState x ∨
      (prepared_commit db st = some x ∧ 0 < x ∧ x < TXN_MAX) := by
  by_cases hw : st.is_write = true
  · by_cases hauto : (!db.session.in_txn || st.is_create) = true
    · have ha : autocommits db st = true := by rw [autocommits, hw, hauto]; rfl
      have hexec : exec_prepared db st = exec_autocommit db st := by
        rw [exec_prepared, if_pos hw, if_pos hauto]
      unfold prepared_commit
      rw [hexec, ha, exec_autocommit_recorded h hw]
      refine or_congr_right ?_
      cases (exec_autocommit db st).2.ok <;> simp [eq_comm]
    · have ha : autocommits db st = false := by
        rw [autocommits, hw, Bool.eq_false_iff.2 hauto]
        rfl
      have hst : st ≠ .commit := by
        rintro rfl
        cases hw
      have hsame : (exec_prepared db st).1.txnlog = db.txnlog := by
        rw [exec_prepared, if_pos hw, if_neg hauto, exec_in_txn]
        split
        · rfl
        · rw [exec_stmt_txn _ (is_control_of_is_write hw)]
          rfl
      rw [prepared_commit_write ha hst, OnRecord, hsame]
      simp [OnRecord]
  · have ha : autocommits db st = false := by
      rw [autocommits, Bool.eq_false_iff.2 hw]
      rfl
    have hexec : exec_prepared db st = exec_stmt (db.on (·.set_cur db.own_txn)) st := by
      rw [exec_prepared, if_neg hw]
      rfl
    by_cases hcommit : st = .commit
    · subst hcommit
      have hend := exec_end_recorded h db.own_txn x true
      have htxn : (exec_prepared db .commit).1 =
          (exec_end (db.on (·.set_cur db.own_txn)) true).1 := by
        rw [hexec]
        rfl
      have hok : (exec_prepared db .commit).2.ok =
          (exec_end (db.on (·.set_cur db.own_txn)) true).2.ok := by
        rw [hexec]
        rfl
      rw [htxn, hend, prepared_commit, hok, ha]
      refine or_congr_right ?_
      cases (exec_end (db.on (·.set_cur db.own_txn)) true).2.ok <;> simp [eq_comm]
    · have hsame : OnRecord (exec_stmt (db.on (·.set_cur db.own_txn)) st).1.toTxnState x ↔
          OnRecord db.toTxnState x := by
        cases st with
        | commit => exact absurd rfl hcommit
        | rollback => exact (exec_end_recorded h db.own_txn x false).trans (by simp)
        | begin =>
          simp only [exec_stmt, exec_begin]
          split
          · rfl
          · exact recorded_take_id h x
        | session n =>
          simp only [exec_stmt, exec_session]
          split <;> rfl
        | _ =>
          rw [exec_stmt_txn _ rfl]
          rfl
      rw [prepared_commit_write ha hcommit, hexec, hsame]
      simp

omit h in
theorem committed_by_prepared {st₁ : Statement} (hst : (prepare_stmt db st).result = some st₁) :
    committed_by db st = prepared_commit db st₁ ∧ (db_exec db st).1 = (exec_prepared db st₁).1 := by
  obtain ⟨hw, hc⟩ := prepare_stmt_kind hst
  have hsame := prepare_stmt_same hst
  have hexec : db_exec db st = ((exec_prepared db st₁).1,
      { (exec_prepared db st₁).2 with
        tests := (prepare_stmt db st).tests ++ (exec_prepared db st₁).2.tests }) := by
    unfold db_exec
    dsimp only
    rw [hst]
  have hauto : autocommits db st = autocommits db st₁ := by rw [autocommits, autocommits, hw, hc]
  refine ⟨?_, by rw [hexec]⟩
  unfold committed_by prepared_commit
  rw [hexec, hauto]
  cases st <;> cases st₁ <;> first | rfl | cases hsame

omit h in
theorem committed_by_refused (hst : (prepare_stmt db st).result = none) :
    committed_by db st = none ∧ (db_exec db st).1 = db := by
  have hexec : db_exec db st = (db, .error (prepare_stmt db st).tests) := by
    unfold db_exec
    dsimp only
    rw [hst]
  refine ⟨?_, by rw [hexec]⟩
  unfold committed_by
  rw [hexec]
  exact if_neg Bool.false_ne_true

theorem db_exec_recorded (st : Statement) (x : Nat) :
    OnRecord (db_exec db st).1.toTxnState x ↔ OnRecord db.toTxnState x ∨
      (committed_by db st = some x ∧ 0 < x ∧ x < TXN_MAX) := by
  cases hst : (prepare_stmt db st).result with
  | none =>
    rw [(committed_by_refused hst).1, (committed_by_refused hst).2]
    simp
  | some st₁ =>
    rw [(committed_by_prepared hst).1, (committed_by_prepared hst).2]
    exact exec_prepared_recorded h st₁ x

omit h in
/-- What commits is the statement itself, or the open transaction of the session. -/
theorem committed_by_cases {x : Nat} (hx : committed_by db st = some x) :
    autocommits db st = true ∧ x = db.next_txn ∨
      db.session.in_txn = true ∧ x = db.session.txn := by
  obtain ⟨hok, hx⟩ := Option.ite_none_right_eq_some.1 hx
  split at hx
  · next hauto => exact .inl ⟨hauto, (Option.some.inj hx).symm⟩
  split at hx
  · refine .inr ⟨Bool.of_not_eq_false fun hin => ?_, (Option.some.inj hx).symm⟩
    -- COMMIT fails outside a transaction
    have hsession : (db.on fun d => d.set_cur d.own_txn).session.in_txn = false := hin
    have hfail : (db_exec db .commit).2.ok = false := by
      change (exec_end (db.on fun d => d.set_cur d.own_txn) true).2.ok = false
      rw [exec_end, hsession]
      rfl
    exact absurd (hok.symm.trans hfail) (by simp)
  · cases hx

end Outcomes

/-! ### Versions of committed transactions -/

/-- The transaction has ended, and is counted as committed if its id has an
    entry in the status table. -/
def Committed (d : TxnState) (x : Nat) : Prop :=
  Finished d x ∧ (x < TXN_MAX → sees d session_closed x = true)

theorem Committed.move {d d' : TxnState} {x : Nat} (h : Committed d x) (hm : TxnMove d d') :
    Committed d' x :=
  ⟨h.1.move hm, fun hx => (h.1.sees hm _).trans (h.2 hx)⟩

theorem sees_recorded (d : TxnState) {x : Nat} (h0 : x ≠ 0)
    (hlog : txnlog_status d.txnlog x = .TXN_COMMITTED) : sees d session_closed x = true := by
  unfold sees
  rw [hlog]
  simp [h0, session_closed]

section Committed

variable {db db' : Database} {st : Statement}

theorem DbInv.committed_step (h : DbInv db) (hstep : DbStep db st db')
    (hs : ∀ t ∈ db.tables, TableStamped (Committed db.toTxnState) t) :
    ∀ t ∈ db'.tables, TableStamped (Committed db'.toTxnState) t := by
  refine h.stamped_step hstep (fun x hx => hx.move hstep.move) (fun lm htxn => ?_)
    (fun hin htxn => ?_) hs
  · rw [htxn]
    have hfin := finished_next h.txn lm true db.own_txn
    exact ⟨hfin, fun hmax => sees_recorded _ (Nat.ne_of_gt hfin.pos)
      (txnlog_status_set_self _ _ hfin.pos hmax)⟩
  · rw [htxn]
    have hfin := finished_session h.txn true hin
    exact ⟨hfin, fun hmax => sees_recorded _ (Nat.ne_of_gt hfin.pos)
      (txnlog_status_set_self _ _ hfin.pos hmax)⟩

/-- All that is left of ended transactions in a heap is what they committed. -/
structure CommitInv (db : Database) : Prop extends DbInv db where
  committed : ∀ t ∈ db.tables, TableStamped (Committed db.toTxnState) t

theorem Opened.commit_inv (h : Opened db)
    (hstored : ∀ t ∈ db.tables, TableStamped (Committed db.toTxnState) t) : CommitInv db :=
  ⟨h.db_inv fun t ht => (hstored t ht).mono fun _ => And.left, hstored⟩

/-- Whatever the sessions do. -/
theorem commit_inv_in_run (sts : List Statement) :
    CommitInv (sts.foldl (fun db st => (db_exec db st).1) db_new) := by
  refine List.foldlRecOn sts _ (db_new_opened.commit_inv (forall_mem_nil _)) fun db h st _ => ?_
  obtain ⟨st₀, -, hstep⟩ := db_exec_step db st
  exact ⟨h.toDbInv.step hstep, h.toDbInv.committed_step hstep h.committed⟩

end Committed

/-- No session is in a transaction. -/
def AllClosed (d : TxnState) : Prop := ∀ i < DB_MAX_SESSIONS, (d.sessions i).in_txn = false

instance (d : TxnState) : Decidable (AllClosed d) := inferInstanceAs (Decidable (∀ i < _, _))

/-! ### Steps -/

section Step

variable {l : Ledger} {st : Statement} {d : TxnState}

theorem sees_closed_iff (d : TxnState) (x : Nat) : sees d session_closed x = true ↔
    0 < x ∧ (x < d.committed_below ∨ OnRecord d x) := by
  unfold sees OnRecord
  simp [session_closed, Nat.pos_iff_ne_zero]

theorem committed_by_range {db : Database} (h : TxnInv db.toTxnState) {x : Nat}
    (hx : committed_by db st = some x) : 0 < x ∧ x < (db_exec db st).1.next_txn := by
  rcases committed_by_cases hx with ⟨hauto, rfl⟩ | ⟨hin, rfl⟩
  · refine ⟨lt_of_lt_of_le h.below_pos h.below_le, ?_⟩
    cases hst : (prepare_stmt db st).result with
    | none => exact absurd ((committed_by_refused hst).1.symm.trans hx) nofun
    | some st₁ =>
      obtain ⟨hw, hc⟩ := prepare_stmt_kind hst
      rw [autocommits, ← hw, ← hc, Bool.and_eq_true] at hauto
      rw [(committed_by_prepared hst).2, exec_prepared, if_pos hauto.1, if_pos hauto.2]
      unfold exec_autocommit
      dsimp only
      split
      · exact Nat.lt_succ_self _
      · next lm _ =>
        change db.next_txn < (end_txn _ _ _).next_txn
        rw [end_txn_txn, exec_stmt_txn _ (is_control_of_is_write hauto.1)]
        exact Nat.lt_succ_self _
  · exact ⟨Nat.pos_of_ne_zero (h.txn_pos hin), (h.txn_lt _ hin).trans_le (db_exec_move db st).next_le⟩

theorem commit_heap (t : Table) (txn : Nat) : (t.commit txn).heap = t.heap := by
  unfold Table.commit
  split <;> rfl

theorem ledger_step_db {l' : Ledger} (hs : l.step st = some l') : l'.db = (db_exec l.db st).1 := by
  unfold Ledger.step at hs
  split at hs <;> cases hs <;> rfl

end Step

/-! ### Beyond the status table -/

/-- `CREATE TABLE t (a TEXT)` -/
def notes : CreateStmt := ⟨"t", [⟨"a", .COL_TEXT, false⟩], 0⟩

/-- The table as the first transaction leaves it. -/
def notes_table : Table := ((table_new notes).begin_write 1).commit 1

/-- A transaction that does nothing uses up an id. -/
theorem pass_effect {db : Database} (hclosed : db.session.in_txn = false) (h0 : db.next_txn ≠ 0) {db' : Database}
    (hdb' : (db_exec (db_exec db .begin).1 .rollback).1 = db')
    (hwriters : ∀ t ∈ db.tables, t.writer_txn = 0) :
    db'.session.in_txn = false ∧ db'.next_txn = db.next_txn + 1 ∧
      db'.committed_below = db.committed_below ∧ db'.lm = lock_release_all db.lm db.next_txn ∧
      db'.tables = db.tables ∧ (∀ i, (db.sessions i).in_txn = false → (db'.sessions i).in_txn = false) ∧
      ∀ x ≠ db.next_txn, OnRecord db.toTxnState x → OnRecord db'.toTxnState x := by
  have hbegin : (db_exec db .begin).1 = (db.on fun d => d.set_cur d.own_txn).on fun d =>
      d.take_id.set_session ⟨true, d.next_txn, d.next_txn + 1, d.inprog⟩ := by
    change (exec_begin (db.on fun d => d.set_cur d.own_txn)).1 = _
    have hin : (db.on fun d => d.set_cur d.own_txn).session.in_txn = false := hclosed
    rw [exec_begin, hin]
    rfl
  generalize (db_exec db .begin).1 = db₁ at hbegin hdb'
  have hin : (db₁.on fun d => d.set_cur d.own_txn).session =
      ⟨true, db.next_txn, db.next_txn + 1, db.inprog⟩ := by
    rw [hbegin]
    exact update_self ..
  have hend : (db_exec db₁ .rollback).1 =
      ((end_txn (db₁.on fun d => d.set_cur d.own_txn) db.next_txn false).on
        fun d => (d.set_session { d.session with in_txn := false }).set_cur 0) := by
    change (exec_end (db₁.on fun d => d.set_cur d.own_txn) false).1 = _
    rw [exec_end, hin]
    rfl
  rw [← hdb', hend, hbegin]
  refine ⟨?_, rfl, rfl, rfl, ?_, fun i hi => ?_, fun x hx hrec => ?_⟩
  · have hself := fun s : DbSession => update_self db.cur_session s
      (update db.sessions db.cur_session ⟨true, db.next_txn, db.next_txn + 1, db.inprog⟩)
    exact congrArg DbSession.in_txn (hself _)
  · change db.tables.map (·.abort db.next_txn) = _
    refine (map_congr_left fun t ht => ?_).trans (map_id _)
    unfold Table.abort
    rw [if_pos (by rw [hwriters t ht]; exact h0.symm)]
    rfl
  · change ((update (update db.sessions db.cur_session _) db.cur_session _) i).in_txn = false
    by_cases hcur : i = db.cur_session
    · rw [hcur, update_self]
    · rw [update_of_ne hcur, update_of_ne hcur]
      exact hi
  · change txnlog_status (txnlog_abort (txnlog_begin db.txnlog db.next_txn) db.next_txn) x = _
    exact (txnlog_status_set_ne _ _ hx).trans ((txnlog_status_set_ne _ _ hx).trans hrec)

/-- `INSERT INTO t VALUES ('x')` -/
def insert_note : Statement := .insert "t" [.text [120]]

/-- What the statement writes under the id `k`. -/
def note (k : Nat) : Version := ⟨k, 0, [.text [120]], MVCC_HDR + 4⟩

theorem ledger_step_some (l : Ledger) (st : Statement) : ∃ l', l.step st = some l' := by
  unfold Ledger.step
  dsimp only
  split <;> exact ⟨_, rfl⟩

end MiniDb
