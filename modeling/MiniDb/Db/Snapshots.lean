import MiniDb.Db.StoredRows

/-! # What sessions see

  Visibility of a version depends on the snapshot of a session and on the
  outcome of two transactions.  Once both have ended, what an open session
  sees of the version is fixed until the session's transaction ends, and a
  version that no session and no new snapshot sees stays unseen. -/

namespace MiniDb

open Framework Function

/-! ### Visibility for a session -/

def DbSession.own (s : DbSession) : Nat := if s.in_txn then s.txn else 0

/-- A session outside a transaction. -/
def session_closed : DbSession := ⟨false, 0, 0, []⟩

/-- The session counts the transaction as committed. -/
def sees (d : TxnState) (s : DbSession) (x : Nat) : Bool :=
  x ≠ 0 && (decide (x < d.committed_below) ||
    (txnlog_status d.txnlog x = .TXN_COMMITTED &&
      (!s.in_txn || !(decide (s.snap_next ≤ x) || s.snap_inprog.contains x))))

def version_seen (d : TxnState) (s : DbSession) (own : Nat) (rec : Version) : Bool :=
  (rec.xmin = own || sees d s rec.xmin) && !(rec.xmax ≠ 0 && (rec.xmax = own || sees d s rec.xmax))

/-- A statement of the session finds the version. -/
def session_sees (d : TxnState) (s : DbSession) (rec : Version) : Bool := version_seen d s s.own rec

theorem txn_committed_view_eq (d : TxnState) (x : Nat) : txn_committed_view d x = sees d d.session x := by
  unfold txn_committed_view sees
  by_cases h0 : x = 0
  · simp [h0]
  by_cases hb : x < d.committed_below
  · simp [h0, hb]
  by_cases hc : txnlog_status d.txnlog x = .TXN_COMMITTED
  · cases d.session.in_txn <;> simp [h0, hb, hc]
  · simp [h0, hb, hc]

theorem rec_visible_eq (d : TxnState) (rec : Version) :
    rec_visible d rec = version_seen d d.session d.cur_txn rec := by
  unfold version_seen
  rw [rec_visible_def, row_visible_eq, txn_committed_view_eq, txn_committed_view_eq]

/-- Sessions outside transactions see the same. -/
theorem sees_closed {d : TxnState} {s : DbSession} (h : s.in_txn = false) (x : Nat) :
    sees d s x = sees d session_closed x := by
  unfold sees
  rw [h]
  rfl

theorem session_sees_closed {d : TxnState} {s : DbSession} (h : s.in_txn = false) (rec : Version) :
    session_sees d s rec = session_sees d session_closed rec := by
  have hown : s.own = 0 := by
    unfold DbSession.own
    rw [h]
    rfl
  unfold session_sees version_seen
  rw [hown, sees_closed h, sees_closed h]
  rfl

/-! ### Transactions that have ended -/

structure Finished (d : TxnState) (x : Nat) : Prop where
  pos : 0 < x
  lt : x < d.next_txn
  closed : ∀ i, (d.sessions i).in_txn = true → (d.sessions i).txn ≠ x

section Moves

variable {d d' : TxnState} {x : Nat} {rec : Version}

theorem TxnMove.below (hm : TxnMove d d') : d'.committed_below = d.committed_below := by
  cases hm <;> rfl

theorem TxnMove.next_le (hm : TxnMove d d') : d.next_txn ≤ d'.next_txn := by
  cases hm with
  | idle => exact le_rfl
  | auto => exact Nat.le_succ _
  | begin => exact Nat.le_succ _
  | finish => exact le_rfl
  | switch => exact le_rfl

/-- A session keeps what it has, ends its transaction, or begins one. -/
theorem TxnMove.session (hm : TxnMove d d') (i : Nat) :
    d'.sessions i = d.sessions i ∨ (d'.sessions i).in_txn = false ∨
      d'.sessions i = ⟨true, d.next_txn, d.next_txn + 1, d.inprog⟩ := by
  cases hm with
  | idle => exact .inl rfl
  | auto => exact .inl rfl
  | switch => exact .inl rfl
  | begin =>
    by_cases hi : i = d.cur_session
    · subst hi
      exact .inr (.inr (update_self ..))
    · exact .inl (update_of_ne hi ..)
  | finish =>
    by_cases hi : i = d.cur_session
    · subst hi
      refine .inr (.inl ?_)
      have hself : update d.sessions d.cur_session { d.session with in_txn := false }
          d.cur_session = { d.session with in_txn := false } := update_self ..
      exact congrArg DbSession.in_txn hself
    · exact .inl (update_of_ne hi ..)

variable (h : Finished d x)

include h

theorem Finished.move (hm : TxnMove d d') : Finished d' x where
  pos := h.pos
  lt := lt_of_lt_of_le h.lt hm.next_le
  closed i hi := by
    rcases hm.session i with heq | hclosed | hnew
    · rw [heq] at hi ⊢
      exact h.closed i hi
    · rw [hclosed] at hi
      cases hi
    · rw [hnew]
      exact Nat.ne_of_gt h.lt

theorem Finished.status (hm : TxnMove d d') :
    txnlog_status d'.txnlog x = txnlog_status d.txnlog x := by
  have hne : x ≠ d.next_txn := ne_of_lt h.lt
  cases hm with
  | idle => rfl
  | switch => rfl
  | auto ok => exact (status_record_ne _ ok hne).trans (txnlog_status_set_ne _ _ hne)
  | begin => exact txnlog_status_set_ne _ _ hne
  | finish ok hin => exact status_record_ne d ok (h.closed d.cur_session hin).symm

theorem Finished.sees (hm : TxnMove d d') (s : DbSession) :
    sees d' s x = sees d s x := by
  unfold MiniDb.sees
  rw [hm.below, h.status hm]

/-- To a new snapshot, what has ended is as to no snapshot. -/
theorem Finished.sees_new (next txn : Nat) (hnext : d.next_txn ≤ next) :
    MiniDb.sees d ⟨true, txn, next, d.inprog⟩ x = MiniDb.sees d session_closed x := by
  have hlt : ¬ next ≤ x := by
    have := h.lt
    omega
  have hnot : d.inprog.contains x = false := by
    rw [Bool.eq_false_iff, ne_eq, List.contains_iff_mem]
    intro hmem
    unfold TxnState.inprog at hmem
    obtain ⟨i, hi, htxn⟩ := List.mem_map.mp hmem
    have hin := (Bool.and_eq_true_iff.mp (List.mem_filter.mp hi).2).2
    exact h.closed i hin htxn
  unfold MiniDb.sees session_closed
  rw [hnot]
  simp [hlt]

/-! ### Versions of ended transactions -/

/-- Both transactions of the version have ended. -/
def Settled (d : TxnState) (rec : Version) : Prop :=
  Finished d rec.xmin ∧ (rec.xmax = 0 ∨ Finished d rec.xmax)

/-- No session sees the version, nor does a new snapshot. -/
def Hidden (d : TxnState) (rec : Version) : Prop :=
  session_sees d session_closed rec = false ∧
    ∀ i < DB_MAX_SESSIONS, session_sees d (d.sessions i) rec = false

instance (d : TxnState) (rec : Version) : Decidable (Hidden d rec) :=
  inferInstanceAs (Decidable (_ ∧ _))

omit h

theorem Settled.move (h : Settled d rec) (hm : TxnMove d d') : Settled d' rec :=
  ⟨h.1.move hm, h.2.imp id fun hx => hx.move hm⟩

/-- An own id that is no transaction of the version does not matter. -/
theorem Settled.version_seen {s s' : DbSession} {own own' : Nat}
    (hx : ∀ x, Finished d x → MiniDb.sees d s x = MiniDb.sees d' s' x) (h : Settled d rec)
    (hown : ∀ x, Finished d x → x ≠ own) (hown' : ∀ x, Finished d x → x ≠ own') :
    MiniDb.version_seen d s own rec = MiniDb.version_seen d' s' own' rec := by
  obtain ⟨hmin, hmax⟩ := h
  unfold MiniDb.version_seen
  rw [decide_eq_false (hown _ hmin), decide_eq_false (hown' _ hmin), hx _ hmin]
  rcases hmax with h0 | hmax
  · rw [h0]
    rfl
  · rw [decide_eq_false (hown _ hmax), decide_eq_false (hown' _ hmax), hx _ hmax]

theorem Finished.ne_own (h : Finished d x) (i : Nat) : x ≠ (d.sessions i).own := by
  unfold DbSession.own
  split
  · next hin => exact (h.closed i hin).symm
  · exact Nat.ne_of_gt h.pos

/-- What sessions see of a settled version: an open session sees what it saw
    before, any other what a closed one saw. -/
theorem Settled.seen_move (h : Settled d rec) (hm : TxnMove d d') (i : Nat) :
    session_sees d' (d'.sessions i) rec = session_sees d (d.sessions i) rec ∨
      session_sees d' (d'.sessions i) rec = session_sees d session_closed rec := by
  have hpos : ∀ x, Finished d x → x ≠ 0 := fun x hx => Nat.ne_of_gt hx.pos
  rcases hm.session i with heq | hclosed | hnew
  · left
    rw [heq]
    exact (h.version_seen (fun x hx => (hx.sees hm _).symm) (fun x hx => hx.ne_own i)
      fun x hx => hx.ne_own i).symm
  · right
    rw [session_sees_closed hclosed]
    exact (h.version_seen (fun x hx => (hx.sees hm _).symm) hpos hpos).symm
  · right
    rw [hnew]
    refine (h.version_seen (fun x hx => ?_) hpos fun x hx => ne_of_lt hx.lt).symm
    rw [hx.sees hm, hx.sees_new _ _ (Nat.le_succ _)]

theorem Hidden.move (hh : Hidden d rec) (h : Settled d rec) (hm : TxnMove d d') :
    Hidden d' rec := by
  have hpos : ∀ x, Finished d x → x ≠ 0 := fun x hx => Nat.ne_of_gt hx.pos
  refine ⟨?_, fun i hi => ?_⟩
  · rw [← hh.1]
    exact (h.version_seen (fun x hx => (hx.sees hm _).symm) hpos hpos).symm
  · rcases h.seen_move hm i with heq | heq
    · rw [heq]
      exact hh.2 i hi
    · rw [heq]
      exact hh.1

end Moves

/-! ### The state a statement runs in -/

/-- A statement sees of a settled version what its session sees. -/
theorem Settled.visible {d d' : TxnState} {rec : Version} (h : Settled d rec) (hr : Running d d') :
    rec_visible d' rec = session_sees d d.session rec := by
  rw [rec_visible_eq]
  cases hr with
  | session lm => rfl
  | auto lm =>
    refine (h.version_seen (fun x hx => ?_) (fun x hx => hx.ne_own d.cur_session)
      fun x hx => ne_of_lt hx.lt).symm
    have hstatus : txnlog_status (txnlog_begin d.txnlog d.next_txn) x = txnlog_status d.txnlog x :=
      txnlog_status_set_ne _ _ (ne_of_lt hx.lt)
    unfold MiniDb.sees
    show _ = (_ && (_ || (decide (txnlog_status (txnlog_begin d.txnlog d.next_txn) x = _) && _)))
    rw [hstatus]
    rfl

theorem Hidden.not_visible {d d' : TxnState} {rec : Version} (hh : Hidden d rec) (h : Settled d rec)
    (hcur : d.cur_session < DB_MAX_SESSIONS) (hr : Running d d') : rec_visible d' rec = false :=
  (h.visible hr).trans (hh.2 d.cur_session hcur)

/-! ### Snapshots in runs -/

section Runs

variable {db₀ db db' : Database} {sts sts' : List Statement} {d d' : TxnState} {x : Nat}

/-- What has ended is later as it was. -/
def Later (d d' : TxnState) : Prop :=
  d'.committed_below = d.committed_below ∧
    ∀ x, Finished d x → Finished d' x ∧ ∀ s, sees d' s x = sees d s x

theorem later_of_run (hrun : run db_step db sts = some db') : Later db.toTxnState db'.toTxnState := by
  have hsteps : Steps db_step (fun _ _ => True) db sts db' := .of_run (fun _ _ _ => trivial) hrun
  refine hsteps.invariant (fun e => Later db.toTxnState e.toTxnState) ?_
    ⟨rfl, fun x hx => ⟨hx, fun _ => rfl⟩⟩
  rintro e st _ ⟨hbelow, hfin⟩ - hs
  cases hs
  have hm := db_exec_move e st
  refine ⟨hm.below.trans hbelow, fun x hx => ?_⟩
  obtain ⟨hx', hsees⟩ := hfin x hx
  exact ⟨hx'.move hm, fun s => (hx'.sees hm s).trans (hsees s)⟩

/-- A new snapshot leaves out what has not ended. -/
theorem TxnInv.unfinished (hinv : TxnInv d) (hin : d.session.in_txn = false) (hx : ¬ Finished d x)
    (hne : x ≠ d.next_txn) : x = 0 ∨
      txnlog_status d.txnlog x = .TXN_INPROGRESS ∧ (d.next_txn + 1 ≤ x ∨ x ∈ d.inprog) := by
  by_contra hc
  push Not at hc
  refine hx ⟨Nat.pos_of_ne_zero hc.1, ?_, ?_⟩
  · by_contra hle
    have := (hc.2 (hinv.fresh x (by omega))).1
    omega
  · rintro i hi rfl
    have hic : i ≠ d.cur_session := by
      rintro rfl
      cases hi.symm.trans hin
    refine (hc.2 (hinv.txn_open i hi)).2 (List.mem_map.mpr ⟨i, List.mem_filter.mpr ⟨?_, ?_⟩, rfl⟩)
    · exact List.mem_range.mpr (hinv.session_lt i hi)
    · simp [hic, hi]

/-- To the snapshot, a transaction is at any time what it was at BEGIN. -/
theorem Later.sees_snapshot (h : Later d d') (hinv : TxnInv d) (hin : d.session.in_txn = false)
    (hne : x ≠ d.next_txn) :
    sees d' ⟨true, d.next_txn, d.next_txn + 1, d.inprog⟩ x = sees d session_closed x := by
  by_cases hx : Finished d x
  · rw [(h.2 x hx).2, hx.sees_new _ _ (Nat.le_succ _)]
  · unfold sees
    rcases hinv.unfinished hin hx hne with rfl | ⟨hst, hlate | hmem⟩
    · rfl
    · simp [h.1, hst, hlate]
    · simp [h.1, hst, hmem]

/-- All its life a transaction sees what was committed when it began, and what
    it wrote itself; so do the tests of its statements. -/
theorem snapshot_in_run (hopen : Opened db₀) (hrun : run db_step db₀ sts = some db)
    (hin : db.session.in_txn = false) (hrun' : run db_step (db_exec db .begin).1 sts' = some db')
    (rec : Version) :
    session_sees db'.toTxnState (db_exec db .begin).1.session rec =
        version_seen db.toTxnState session_closed db.next_txn rec ∧
      (db'.session = (db_exec db .begin).1.session → ∀ lm,
        rec_visible ((db'.toTxnState.set_lm lm).set_cur db'.own_txn) rec =
          version_seen db.toTxnState session_closed db.next_txn rec) := by
  suffices hsees : session_sees db'.toTxnState (db_exec db .begin).1.session rec =
      version_seen db.toTxnState session_closed db.next_txn rec by
    refine ⟨hsees, fun hsession lm => ?_⟩
    rw [← hsees, rec_visible_eq, ← hsession]
    rfl
  have hs : (db_exec db .begin).1.session =
      ⟨true, db.next_txn, db.next_txn + 1, db.toTxnState.inprog⟩ := by
    show (exec_begin (db.on fun d => d.set_cur d.own_txn)).1.session = _
    unfold exec_begin
    split
    · next h => cases h.symm.trans hin
    · exact update_self ..
  have hlater : Later db.toTxnState db'.toTxnState :=
    later_of_run (show run db_step db (.begin :: sts') = some db' from hrun')
  have hsees : ∀ x ≠ db.next_txn, _ := fun x => hlater.sees_snapshot (txn_inv_run hopen hrun) hin
  rw [hs]
  unfold session_sees version_seen DbSession.own
  by_cases hmin : rec.xmin = db.next_txn <;> by_cases hmax : rec.xmax = db.next_txn <;>
    simp [hmin, hmax, hsees]

theorem snapshot_in_run_two_sessions : session_sees (db_exec (db_exec (db_exec
    (db_exec db_new .begin).1 (.session 1)).1 .begin).1 .commit).1.toTxnState
      (db_exec db_new .begin).1.session ⟨2, 0, [], 8⟩ = false :=
  (snapshot_in_run db_new_opened (show run _ _ [] = _ from rfl) rfl (show run _ _ [_, _, _] = _ from rfl) _).1

end Runs

end MiniDb
