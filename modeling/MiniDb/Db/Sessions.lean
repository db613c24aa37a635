import MiniDb.Framework.Run
import MiniDb.Db.Exec

/-! # The transactions of the sessions

  What a statement may do to sessions, ids and the status table, and the
  invariant that follows: every open transaction belongs to one session, its
  id has been handed out, and its status is still open. -/

namespace MiniDb

open Framework Function

/-- One statement of a run. -/
def db_step (db : Database) (st : Statement) : Option Database := some (db_exec db st).1

/-- The state right after `db_open`: nothing is open, and every id below the
    stored counter counts as committed. -/
structure Opened (db : Database) : Prop where
  sessions : ∀ i, (db.sessions i).in_txn = false
  cur_session : db.cur_session = 0
  lm : db.lm = []
  cur_txn : db.cur_txn = 0
  next_pos : 1 ≤ db.next_txn
  below : db.committed_below = db.next_txn
  txnlog : db.txnlog = txnlog_init
  writers : ∀ t ∈ db.tables, t.writer_txn = 0

theorem db_new_opened : Opened db_new :=
  ⟨fun _ => rfl, rfl, rfl, rfl, Nat.le_refl 1, rfl, rfl, nofun⟩

/-! ### Preparation -/

/-- A WHERE clause does not matter to what a statement is. -/
def SameWrite : Statement → Statement → Prop
  | .delete table _, .delete table' _ => table = table'
  | .update table set_col set_val _, .update table' set_col' set_val' _ =>
      table = table' ∧ set_col = set_col' ∧ set_val = set_val'
  | .select _, .select _ => True
  | st, st' => st = st'

theorem prepare_stmt_same {db : Database} {st st₁ : Statement}
    (h : (prepare_stmt db st).result = some st₁) : SameWrite st st₁ := by
  have hbind : ∀ {α : Type} (x : Tested α) (f : α → Statement),
      (x >>= fun a => pure (f a)).result = some st₁ → ∃ a, st₁ = f a := by
    intro α x f hx
    change (x.bind fun a => pure (f a)).result = some st₁ at hx
    unfold Tested.bind at hx
    split at hx
    · cases hx
    · next a _ => exact ⟨a, (Option.some.inj hx).symm⟩
  cases st with
  | select sel =>
    obtain ⟨w, rfl⟩ := hbind _ _ h
    trivial
  | delete table w =>
    obtain ⟨w, rfl⟩ := hbind _ _ h
    rfl
  | update table set_col set_val w =>
    obtain ⟨w, rfl⟩ := hbind _ _ h
    exact ⟨rfl, rfl, rfl⟩
  | _ =>
    cases h
    rfl

/-! ### What a statement does to the transactions -/

/-- Statements that are about transactions or sessions. -/
def Statement.is_control : Statement → Bool
  | .begin | .commit | .rollback | .session _ => true
  | _ => false

/-- What a statement may do to the state of the transactions; its own id and
    the locks are left open. -/
inductive TxnMove (d : TxnState) : TxnState → Prop where
  | idle (cur_txn : Nat) (lm : LockManager) : TxnMove d ((d.set_lm lm).set_cur cur_txn)
  /-- A statement was a transaction of its own. -/
  | auto (ok : Bool) (cur_txn : Nat) (lm : LockManager) :
      TxnMove d (((d.take_id.set_lm lm).record d.next_txn ok).set_cur cur_txn)
  | begin (h : d.session.in_txn = false) :
      TxnMove d (d.take_id.set_session ⟨true, d.next_txn, d.next_txn + 1, d.inprog⟩)
  | finish (ok : Bool) (h : d.session.in_txn = true) :
      TxnMove d (((d.record d.session.txn ok).set_session
        { d.session with in_txn := false }).set_cur 0)
  | switch (n : Nat) (h : n < DB_MAX_SESSIONS) :
      TxnMove d { d.set_cur d.own_txn with cur_session := n }

section Moves

variable {st : Statement} (db : Database)

/-- Other statements leave the transactions alone. -/
theorem exec_stmt_txn (h : st.is_control = false) :
    (exec_stmt db st).1.toTxnState = db.toTxnState := by
  cases st with
  | begin => cases h
  | commit => cases h
  | rollback => cases h
  | session n => cases h
  | select sel => rfl
  | _ =>
    simp only [exec_stmt, exec_create, exec_create_index, exec_insert, exec_delete, exec_update,
      exec_vacuum, exec_analyze]
    repeat' split
    all_goals rfl

theorem is_control_of_is_write (h : st.is_write = true) : st.is_control = false := by
  cases st <;> first | rfl | cases h

@[simp] theorem end_txn_txn (txn : Nat) (ok : Bool) :
    (end_txn db txn ok).toTxnState = db.toTxnState.record txn ok := by
  cases ok <;> rfl

end Moves

/-! ### The invariant -/

/-- Ids are handed out once, and an open transaction belongs to one session. -/
structure TxnInv (d : TxnState) : Prop where
  cur_session : d.cur_session < DB_MAX_SESSIONS
  below_pos : 1 ≤ d.committed_below
  below_le : d.committed_below ≤ d.next_txn
  /-- Only the sessions there are have transactions. -/
  session_lt : ∀ i, (d.sessions i).in_txn = true → i < DB_MAX_SESSIONS
  txn_ge : ∀ i, (d.sessions i).in_txn = true → d.committed_below ≤ (d.sessions i).txn
  txn_lt : ∀ i, (d.sessions i).in_txn = true → (d.sessions i).txn < d.next_txn
  txn_inj : ∀ i j, (d.sessions i).in_txn = true → (d.sessions j).in_txn = true →
    (d.sessions i).txn = (d.sessions j).txn → i = j
  /-- An open transaction has no outcome, nor has an id that is still to come. -/
  txn_open : ∀ i, (d.sessions i).in_txn = true →
    txnlog_status d.txnlog (d.sessions i).txn = .TXN_INPROGRESS
  fresh : ∀ x, d.next_txn ≤ x → txnlog_status d.txnlog x = .TXN_INPROGRESS

section Invariant

variable {d d' : TxnState}

theorem status_set_self_open (log : TxnLog) (txn : Nat) :
    txnlog_status (txnlog_begin log txn) txn = .TXN_INPROGRESS := by
  rcases txnlog_status_set_cases .TXN_INPROGRESS log txn with h | h <;> exact h

theorem status_record_ne (d : TxnState) {txn x : Nat} (ok : Bool) (h : x ≠ txn) :
    txnlog_status (d.record txn ok).txnlog x = txnlog_status d.txnlog x := by
  cases ok <;> exact txnlog_status_set_ne _ _ h

/-- The session that changes, or another one as it was. -/
theorem update_session_cases {sessions : Nat → DbSession} {k i : Nat} {s : DbSession}
    (hi : (update sessions k s i).in_txn = true) :
    i = k ∧ s.in_txn = true ∧ (update sessions k s i).txn = s.txn ∨
      i ≠ k ∧ (sessions i).in_txn = true ∧ (update sessions k s i).txn = (sessions i).txn := by
  by_cases hik : i = k
  · subst hik
    rw [update_self] at hi ⊢
    exact .inl ⟨rfl, hi, rfl⟩
  · rw [update_of_ne hik] at hi ⊢
    exact .inr ⟨hik, hi, rfl⟩

theorem TxnInv.move (h : TxnInv d) (hm : TxnMove d d') : TxnInv d' := by
  have hnew : ∀ i, (d.sessions i).in_txn = true → (d.sessions i).txn ≠ d.next_txn := fun i hi =>
    ne_of_lt (h.txn_lt i hi)
  cases hm with
  | idle => exact { h with }
  | auto ok cur_txn lm =>
    have hstatus : ∀ x ≠ d.next_txn, txnlog_status (((d.take_id.set_lm lm).record d.next_txn ok).set_cur
        cur_txn).txnlog x = txnlog_status d.txnlog x := fun x hx =>
      (status_record_ne _ ok hx).trans (txnlog_status_set_ne _ _ hx)
    exact { h with
      below_le := Nat.le_succ_of_le h.below_le
      txn_lt := fun i hi => Nat.lt_succ_of_lt (h.txn_lt i hi)
      txn_open := fun i hi => (hstatus _ (hnew i hi)).trans (h.txn_open i hi)
      fresh := fun x (hx : d.next_txn + 1 ≤ x) =>
        (hstatus x (by omega)).trans (h.fresh x (by omega)) }
  | begin hin =>
    -- the new transaction has the new id, the others are as they were
    exact {
      __ := h
      below_le := Nat.le_succ_of_le h.below_le
      session_lt := fun i hi => by
        rcases update_session_cases hi with ⟨hic, -⟩ | ⟨-, hold, -⟩
        · rw [hic]
          exact h.cur_session
        · exact h.session_lt i hold
      txn_ge := fun i hi => by
        rcases update_session_cases hi with ⟨-, -, htxn⟩ | ⟨-, hold, htxn⟩
        · exact h.below_le.trans_eq htxn.symm
        · exact (h.txn_ge i hold).trans_eq htxn.symm
      txn_lt := fun i hi => by
        rcases update_session_cases hi with ⟨-, -, htxn⟩ | ⟨-, hold, htxn⟩
        · exact Nat.lt_succ_of_le htxn.le
        · exact Nat.lt_succ_of_lt (htxn.trans_lt (h.txn_lt i hold))
      txn_inj := fun i j hi hj heq => by
        rcases update_session_cases hi with ⟨hic, -, hti⟩ | ⟨-, hoi, hti⟩ <;>
          rcases update_session_cases hj with ⟨hjc, -, htj⟩ | ⟨-, hoj, htj⟩
        · rw [hic, hjc]
        · exact absurd (htj.symm.trans (heq.symm.trans hti)) (hnew j hoj)
        · exact absurd (hti.symm.trans (heq.trans htj)) (hnew i hoi)
        · exact h.txn_inj i j hoi hoj (hti.symm.trans (heq.trans htj))
      txn_open := fun i hi => by
        rcases update_session_cases hi with ⟨-, -, htxn⟩ | ⟨-, hold, htxn⟩
        · exact (congrArg _ htxn).trans (status_set_self_open d.txnlog d.next_txn)
        · exact (congrArg _ htxn).trans
            ((txnlog_status_set_ne _ _ (hnew i hold)).trans (h.txn_open i hold))
      fresh := fun x (hx : d.next_txn + 1 ≤ x) =>
        (txnlog_status_set_ne _ _ (by omega)).trans (h.fresh x (by omega)) }
  | finish ok hin =>
    have hcases : ∀ i, (update d.sessions d.cur_session { d.session with in_txn := false } i).in_txn = true →
        _ := fun i hi => (update_session_cases hi).resolve_left fun hk => Bool.false_ne_true hk.2.1
    exact {
      __ := h
      session_lt := fun i hi => h.session_lt i (hcases i hi).2.1
      txn_ge := fun i hi => (h.txn_ge i (hcases i hi).2.1).trans_eq (hcases i hi).2.2.symm
      txn_lt := fun i hi => (hcases i hi).2.2.trans_lt (h.txn_lt i (hcases i hi).2.1)
      txn_inj := fun i j hi hj heq => h.txn_inj i j (hcases i hi).2.1 (hcases j hj).2.1
        ((hcases i hi).2.2.symm.trans (heq.trans (hcases j hj).2.2))
      txn_open := fun i hi => by
        obtain ⟨hic, hold, htxn⟩ := hcases i hi
        refine (congrArg _ htxn).trans
          ((status_record_ne d ok fun hc => hic ?_).trans (h.txn_open i hold))
        exact h.txn_inj i d.cur_session hold hin hc
      fresh := fun x hx => by
        have hlt := h.txn_lt d.cur_session hin
        exact (status_record_ne d ok (by
          have hx' : d.next_txn ≤ x := hx
          show x ≠ (d.sessions d.cur_session).txn
          omega)).trans (h.fresh x hx) }
  | switch n hn => exact { h with cur_session := hn }

theorem TxnInv.txn_pos (h : TxnInv d) {i : Nat} (hi : (d.sessions i).in_txn = true) :
    (d.sessions i).txn ≠ 0 := by
  have := h.below_pos
  have := h.txn_ge i hi
  omega

theorem TxnInv.next_ne (h : TxnInv d) : d.next_txn ≠ 0 := by
  have := h.below_pos
  have := h.below_le
  omega

theorem Opened.inv {db : Database} (h : Opened db) : TxnInv db.toTxnState where
  cur_session := by rw [h.cur_session]; decide
  below_pos := by rw [h.below]; exact h.next_pos
  below_le := le_of_eq h.below
  session_lt i hi := by rw [h.sessions i] at hi; cases hi
  txn_ge i hi := by rw [h.sessions i] at hi; cases hi
  txn_lt i hi := by rw [h.sessions i] at hi; cases hi
  txn_inj i j hi := by rw [h.sessions i] at hi; cases hi
  txn_open i hi := by rw [h.sessions i] at hi; cases hi
  fresh x _ := by rw [h.txnlog]; unfold txnlog_status txnlog_init; split <;> rfl

end Invariant

end MiniDb
