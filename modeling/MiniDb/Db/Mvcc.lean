import MiniDb.Db.Locks

/-! # Transactions: status, sessions, visibility and locks

  Every row version carries the id of the transaction that wrote it (`xmin`)
  and of the one that deleted or replaced it (`xmax`, 0 for none).  Whether a
  version is visible depends on the status table, on the snapshot of the
  current session's open transaction, and on the id the statement takes to be
  its own.  Writers of one table exclude each other by table locks. -/

namespace MiniDb

/-! ### The status table -/

inductive TxnStatus where
  | TXN_INPROGRESS
  | TXN_COMMITTED
  | TXN_ABORTED
  deriving DecidableEq

/-- Ids from here on have no entry in the status table. -/
def TXN_MAX : Nat := 65536

abbrev TxnLog := Nat → TxnStatus

def txnlog_init : TxnLog := fun _ => .TXN_INPROGRESS

def txnlog_set (st : TxnStatus) (log : TxnLog) (txn : Nat) : TxnLog :=
  if 0 < txn ∧ txn < TXN_MAX then fun x => if x = txn then st else log x else log

def txnlog_begin : TxnLog → Nat → TxnLog := txnlog_set .TXN_INPROGRESS
def txnlog_commit : TxnLog → Nat → TxnLog := txnlog_set .TXN_COMMITTED
def txnlog_abort : TxnLog → Nat → TxnLog := txnlog_set .TXN_ABORTED

def txnlog_status (log : TxnLog) (txn : Nat) : TxnStatus :=
  if 0 < txn ∧ txn < TXN_MAX then log txn else .TXN_INPROGRESS

variable (st : TxnStatus)

theorem txnlog_status_set_ne (log : TxnLog) {txn x : Nat} (h : x ≠ txn) :
    txnlog_status (txnlog_set st log txn) x = txnlog_status log x := by
  unfold txnlog_status txnlog_set
  by_cases ht : 0 < txn ∧ txn < TXN_MAX
  · rw [if_pos ht, if_neg h]
  · rw [if_neg ht]

theorem txnlog_status_set_self (log : TxnLog) {txn : Nat} (h0 : 0 < txn)
    (hmax : txn < TXN_MAX) : txnlog_status (txnlog_set st log txn) txn = st := by
  simp [txnlog_status, txnlog_set, h0, hmax]

/-- Out of range nothing is ever recorded. -/
theorem txnlog_status_set_cases (log : TxnLog) (txn : Nat) :
    txnlog_status (txnlog_set st log txn) txn = st ∨
      txnlog_status (txnlog_set st log txn) txn = .TXN_INPROGRESS := by
  by_cases ht : 0 < txn ∧ txn < TXN_MAX
  · exact Or.inl (txnlog_status_set_self st log ht.1 ht.2)
  · right
    unfold txnlog_status
    rw [if_neg ht]

/-! ### Sessions and visibility -/

def DB_MAX_SESSIONS : Nat := 8

/-- `snap_next` and `snap_inprog` are taken at BEGIN. -/
structure DbSession where
  in_txn : Bool
  txn : Nat
  snap_next : Nat
  snap_inprog : List Nat

/-- The part of a `Database` that transactions are made of.  Session numbers
    are below `DB_MAX_SESSIONS`. -/
structure TxnState where
  sessions : Nat → DbSession
  cur_session : Nat
  lm : LockManager
  cur_txn : Nat
  next_txn : Nat
  committed_below : Nat
  txnlog : TxnLog

def TxnState.session (d : TxnState) : DbSession := d.sessions d.cur_session

/-- The current session's transaction, 0 outside one. -/
def TxnState.own_txn (d : TxnState) : Nat := if d.session.in_txn then d.session.txn else 0

def txn_committed_view (d : TxnState) (txn : Nat) : Bool :=
  if txn = 0 then false
  else if txn < d.committed_below then true
  else if txnlog_status d.txnlog txn ≠ .TXN_COMMITTED then false
  else if d.session.in_txn then
    -- born after my start, or in progress at my start
    !(decide (d.session.snap_next ≤ txn) || d.session.snap_inprog.contains txn)
  else true

def row_visible (d : TxnState) (xmin xmax my_txn : Nat) : Bool :=
  if !(xmin = my_txn || txn_committed_view d xmin) then false
  else if xmax ≠ 0 && (xmax = my_txn || txn_committed_view d xmax) then false
  else true

theorem row_visible_eq (d : TxnState) (xmin xmax my_txn : Nat) :
    row_visible d xmin xmax my_txn =
      ((xmin = my_txn || txn_committed_view d xmin) &&
        !(xmax ≠ 0 && (xmax = my_txn || txn_committed_view d xmax))) := by
  unfold row_visible
  cases (decide (xmin = my_txn) || txn_committed_view d xmin) <;>
    cases (decide (xmax ≠ 0) && (decide (xmax = my_txn) || txn_committed_view d xmax)) <;> rfl

end MiniDb
