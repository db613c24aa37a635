import MiniDb.Db.HeapMoves
import MiniDb.Db.Snapshots

/-! # Writers of a table

  A table has at most one writing transaction, which is open and holds the
  table's lock.  Every other transaction whose id is found in the heap has
  ended; a rollback restores a heap in which all have. -/

namespace MiniDb

open Framework List Function

/-! ### Ids in a heap -/

/-- The id is that of a transaction with the property, or of the writer. -/
def Stamp (F : Nat → Prop) (w x : Nat) : Prop := F x ∨ (w ≠ 0 ∧ x = w)

def WellStamped (F : Nat → Prop) (w : Nat) (h : Heap) : Prop :=
  ∀ r rec, heap_get h r = some rec → Stamp F w rec.xmin ∧ (rec.xmax = 0 ∨ Stamp F w rec.xmax)

/-- The ids in a table's heap and in what a rollback restores. -/
structure TableStamped (F : Nat → Prop) (t : Table) : Prop where
  heap : WellStamped F t.writer_txn t.heap
  undo : t.writer_txn ≠ 0 → WellStamped F 0 t.undo.heap

section Stamps

variable {F G : Nat → Prop} {w : Nat} {h h' : Heap} {t t' : Table}

theorem Stamp.mono (hFG : ∀ x, F x → G x) {x : Nat} (hs : Stamp F w x) : Stamp G w x := hs.imp_left
    (hFG x)

theorem WellStamped.mono (hFG : ∀ x, F x → G x) (hs : WellStamped F w h) : WellStamped G w h :=
  fun r rec hget => ⟨(hs r rec hget).1.mono hFG, (hs r rec hget).2.imp_right (Stamp.mono hFG)⟩

theorem TableStamped.mono (hFG : ∀ x, F x → G x) (hs : TableStamped F t) : TableStamped G t :=
  ⟨hs.heap.mono hFG, fun hw => (hs.undo hw).mono hFG⟩

theorem Stamp.of_zero {x : Nat} (hs : Stamp F 0 x) : F x := by
  rcases hs with hs | ⟨h0, -⟩
  · exact hs
  · exact absurd rfl h0

/-- Where nobody writes, a transaction may begin to. -/
theorem WellStamped.begin (hs : WellStamped F 0 h) (w : Nat) : WellStamped F w h :=
  fun r rec hget => ⟨.inl (hs r rec hget).1.of_zero, (hs r rec hget).2.imp_right fun hx => .inl hx.of_zero⟩

theorem WellStamped.written {rids : List Rid} (hs : WellStamped F w h) (h0 : w ≠ 0)
    (hw : Written w rids h h') : WellStamped F w h' := by
  intro r rec hget
  rcases hw.origin r rec hget with ⟨-, hmin, hmax⟩ | ⟨old, hold, rfl | ⟨-, rfl⟩⟩
  · exact ⟨.inr ⟨h0, hmin⟩, .inl hmax⟩
  · exact hs r rec hold
  · exact ⟨(hs r old hold).1, .inr (.inr ⟨h0, rfl⟩)⟩

theorem TableStamped.move {d : TxnState} {st : Statement} (hs : TableStamped F t)
    (hm : HeapMove d st t t') (h0 : st.is_write = true → d.cur_txn ≠ 0)
    (hlock : st.locked = some t.schema.table → t.writer_txn = 0 ∨ t.writer_txn = d.cur_txn)
    (hvac : (∀ i < DB_MAX_SESSIONS, (d.sessions i).in_txn = false) → t.writer_txn = 0) :
    TableStamped F t' := by
  have hbegin : (t.writer_txn = 0 ∨ t.writer_txn = d.cur_txn) → d.cur_txn ≠ 0 →
      WellStamped F d.cur_txn t.heap ∧ WellStamped F 0 (t.begin_write d.cur_txn).undo.heap := by
    intro hwriter h0
    unfold Table.begin_write
    split
    · next heq =>
      rw [← heq]
      exact ⟨hs.heap, hs.undo (heq ▸ h0)⟩
    · next hne =>
      have hzero := hwriter.resolve_right hne
      have hheap := hs.heap
      rw [hzero] at hheap
      exact ⟨hheap.begin _, hheap⟩
  cases hm with
  | calm hheap hwriter hundo =>
    constructor
    · rw [hheap, hwriter]
      exact hs.heap
    · rw [hwriter, hundo]
      exact hs.undo
  | write rids hlocked hrids hw hwriter hundo =>
    have hne : d.cur_txn ≠ 0 := h0 (by cases st <;> first | rfl | cases hlocked)
    obtain ⟨hheap, hback⟩ := hbegin (hlock hlocked) hne
    constructor
    · rw [hwriter]
      exact hheap.written hne hw
    · rw [hundo]
      exact fun _ => hback
  | vacuum hst hnone hheap hwriter hundo =>
    obtain ⟨hstamped, hback⟩ := hbegin (.inl (hvac hnone)) (h0 hst)
    constructor
    · rw [hwriter, hheap]
      exact fun r rec hget => hstamped r rec (heap_get_vacuum.mp hget).1
    · rw [hundo]
      exact fun _ => hback

/-- Only a transaction that commits leaves its id. -/
theorem TableStamped.finish (hs : TableStamped F t) {txn : Nat} (h0 : txn ≠ 0) {ok : Bool}
    (htxn : ok = true → F txn) : TableStamped F (t.finish txn ok) := by
  unfold Table.finish Table.commit Table.abort
  split
  · next hok =>
    have hend : ∀ x, Stamp F t.writer_txn x → t.writer_txn = txn → Stamp F 0 x := by
      rintro x (hx | ⟨-, rfl⟩) heq
      · exact .inl hx
      · exact .inl (heq ▸ htxn hok)
    split
    · exact hs
    · next heq =>
      have heq := not_not.mp heq
      exact ⟨fun r rec hget => ⟨hend _ (hs.heap r rec hget).1 heq,
        (hs.heap r rec hget).2.imp_right fun hx => hend _ hx heq⟩, fun hne => absurd rfl hne⟩
  · split
    · exact hs
    · next heq =>
      exact ⟨hs.undo (not_not.mp heq ▸ h0), fun hne => absurd rfl hne⟩

theorem table_new_stamped (F : Nat → Prop) (c : CreateStmt) (txn : Nat) :
    TableStamped F ((table_new c).begin_write txn) := by
  have hnone : ∀ w, WellStamped F w [] := fun w r rec hget => by
    cases hget
  unfold Table.begin_write
  split
  · exact ⟨hnone _, fun _ => hnone 0⟩
  · exact ⟨hnone _, fun _ => hnone 0⟩

end Stamps

/-! ### Databases -/

/-- A writer is an open transaction that holds the table's lock. -/
def WriterOk (d : TxnState) (t : Table) : Prop :=
  t.writer_txn ≠ 0 →
    (∃ i, (d.sessions i).in_txn = true ∧ (d.sessions i).txn = t.writer_txn) ∧
      Locked d.lm t.writer_txn (lock_name t.schema.table) 0

structure DbInv (db : Database) : Prop where
  txn : TxnInv db.toTxnState
  excl : Exclusive db.lm
  stamped : ∀ t ∈ db.tables, TableStamped (Finished db.toTxnState) t
  writer : ∀ t ∈ db.tables, WriterOk db.toTxnState t

section Finish

variable {txn : Nat} {ok : Bool} (t : Table)

theorem finish_schema (txn : Nat) (ok : Bool) : (t.finish txn ok).schema = t.schema := by
  unfold Table.finish Table.commit Table.abort
  split <;> split <;> rfl

theorem finish_writer (txn : Nat) (ok : Bool) :
    (t.finish txn ok).writer_txn = if t.writer_txn = txn then 0 else t.writer_txn := by
  unfold Table.finish Table.commit Table.abort
  by_cases h : t.writer_txn = txn <;> cases ok <;> simp [h]

end Finish

section Locks

variable {d : TxnState} {st : Statement} {lm : LockManager} {txn : Nat} {t : Table} {table : String}

/-- The lock of a statement, if it takes one. -/
theorem grant_of_stmt (hlock : acquire_stmt_locks d.lm st txn = some lm) :
    st.locked = none ∧ lm = d.lm ∨ ∃ table, st.locked = some table ∧
      LockGrant d.lm txn (lock_name table) 0 .LOCK_X lm := by
  unfold acquire_stmt_locks at hlock
  split at hlock
  · next hnone => exact .inl ⟨hnone, (Option.some.inj hlock).symm⟩
  · next table hst =>
    obtain ⟨hok, heq⟩ := Option.ite_none_right_eq_some.mp hlock
    exact .inr ⟨table, hst, grant_of_lock_acquire (lock_name_length table)
      (Prod.ext (Option.some.inj heq) hok)⟩

theorem Exclusive.stmt (h : Exclusive d.lm) (hlock : acquire_stmt_locks d.lm st txn = some lm) :
    Exclusive lm := by
  rcases grant_of_stmt hlock with ⟨-, rfl⟩ | ⟨_, -, hg⟩
  · exact h
  · exact hg.exclusive h

theorem Locked.stmt {txn' : Nat} (h : Locked d.lm txn' table 0) (h0 : txn' ≠ 0)
    (hlock : acquire_stmt_locks d.lm st txn = some lm) : Locked lm txn' table 0 := by
  rcases grant_of_stmt hlock with ⟨-, rfl⟩ | ⟨_, -, hg⟩
  · exact h
  · exact hg.keeps h h0

theorem locked_of_stmt (hst : st.locked = some table)
    (hlock : acquire_stmt_locks d.lm st txn = some lm) : Locked lm txn (lock_name table) 0 := by
  rcases grant_of_stmt hlock with ⟨hnone, -⟩ | ⟨table', hst', hg⟩
  · cases hnone.symm.trans hst
  · cases hst'.symm.trans hst
    exact hg.locked

/-- The lock shuts other writers out. -/
theorem WriterOk.locked (h : WriterOk d t) (hex : Exclusive d.lm) (h0 : txn ≠ 0)
    (hlock : acquire_stmt_locks d.lm st txn = some lm) (hst : st.locked = some t.schema.table) :
    t.writer_txn = 0 ∨ t.writer_txn = txn := by
  by_cases hw : t.writer_txn = 0
  · exact .inl hw
  · right
    exact ((h hw).2.stmt hw hlock).unique (hex.stmt hlock) (locked_of_stmt hst hlock) hw h0

/-- Where no session is in a transaction, nobody writes. -/
theorem WriterOk.none (h : WriterOk d t) (hinv : TxnInv d)
    (hnone : ∀ i < DB_MAX_SESSIONS, (d.sessions i).in_txn = false) : t.writer_txn = 0 := by
  by_contra hw
  obtain ⟨⟨i, hin, -⟩, -⟩ := h hw
  rw [hnone i (hinv.session_lt i hin)] at hin
  cases hin

/-- A writer's id is not the next one. -/
theorem WriterOk.ne_next (h : WriterOk d t) (hinv : TxnInv d) : t.writer_txn ≠ d.next_txn := by
  by_cases hw : t.writer_txn = 0
  · rw [hw]
    exact hinv.next_ne.symm
  · obtain ⟨⟨i, hin, htxn⟩, -⟩ := h hw
    rw [← htxn]
    exact ne_of_lt (hinv.txn_lt i hin)

end Locks

/-! ### One call -/

section Step

variable {db db' : Database} {st : Statement} {d : TxnState}

/-- The transaction that has just ended. -/
theorem finished_next (h : TxnInv d) (lm : LockManager) (ok : Bool) (cur_txn : Nat) :
    Finished (((d.take_id.set_lm lm).record d.next_txn ok).set_cur cur_txn) d.next_txn where
  pos := lt_of_lt_of_le h.below_pos h.below_le
  lt := Nat.lt_succ_self _
  closed i hi := ne_of_lt (h.txn_lt i hi)

theorem finished_session (h : TxnInv d) (ok : Bool) (hin : d.session.in_txn = true) :
    Finished (((d.record d.session.txn ok).set_session { d.session with in_txn := false }).set_cur 0)
      d.session.txn where
  pos := Nat.pos_of_ne_zero (h.txn_pos hin)
  lt := h.txn_lt _ hin
  closed i hi := by
    rcases update_session_cases hi with ⟨-, hclosed, -⟩ | ⟨hic, hopen, htxn⟩
    · cases hclosed
    · exact fun heq => hic (h.txn_inj i d.cur_session hopen hin (htxn.symm.trans heq))

/-- The writer of a table after a statement's move. -/
theorem HeapMove.writer {t t' : Table} (hm : HeapMove d st t t') :
    t'.writer_txn = t.writer_txn ∨ t'.writer_txn = d.cur_txn := by
  cases hm with
  | calm _ hwriter => exact .inl hwriter
  | write _ _ _ _ hwriter => exact .inr hwriter
  | vacuum _ _ _ hwriter => exact .inr hwriter

variable (h : DbInv db)

include h

variable (hstep : DbStep db st db')

include hstep

/-- The ids in the tables after a call; `G` holds of the transaction that a
    call commits. -/
theorem DbInv.stamped_step {F G : Nat → Prop} (hFG : ∀ x, F x → G x) (hauto : ∀ lm, db'.toTxnState =
      ((db.toTxnState.take_id.set_lm lm).record db.next_txn true).set_cur db.own_txn → G db.next_txn)
    (hcommit : db.session.in_txn = true →
      db'.toTxnState = ((db.toTxnState.record db.session.txn true).set_session
        { db.session with in_txn := false }).set_cur 0 → G db.session.txn)
    (hs : ∀ t ∈ db.tables, TableStamped F t) : ∀ t ∈ db'.tables, TableStamped G t := by
  intro t' ht'
  have hsame : db'.tables = db.tables → TableStamped G t' := fun htab => (hs t' (htab ▸ ht')).mono hFG
  have hnext := h.txn.next_ne
  cases hstep with
  | idle _ _ htab => exact hsame htab
  | switch _ _ _ htab => exact hsame htab
  | begin _ _ htab => exact hsame htab
  | conflict _ htab => exact hsame htab
  | stmt lm hin hlock htxn htab =>
    obtain ⟨t, ht, hmove⟩ := forall₂_mem_right htab ht'
    have hpos : st.is_write = true → db.own_txn ≠ 0 := fun hw => by
      rw [show db.own_txn = db.session.txn from if_pos (hin hw)]
      exact h.txn.txn_pos (hin hw)
    refine ((hs t ht).move hmove.heap hpos (fun hl => ?_) fun hnone =>
      (h.writer t ht).none h.txn hnone).mono hFG
    have hw : st.is_write = true := by cases st <;> first | rfl | cases hl
    exact (h.writer t ht).locked h.excl (hpos hw) hlock hl
  | auto lm ok hin hlock ts created htxn hmoves hcreated htab =>
    rw [htab] at ht'
    obtain ⟨t₁, ht₁, rfl⟩ := mem_map.mp ht'
    refine TableStamped.finish ?_ hnext fun hok => hauto lm (hok ▸ htxn)
    rcases mem_moved_or_new hmoves hcreated ht₁ with ⟨t, ht, hmove⟩ | ⟨c, rfl⟩
    · exact ((hs t ht).move hmove.heap (fun _ => hnext)
        (fun hl => (h.writer t ht).locked h.excl hnext hlock hl)
        fun hnone => (h.writer t ht).none h.txn hnone).mono hFG
    · exact table_new_stamped _ c _
  | finish ok hin htxn htab =>
    rw [htab] at ht'
    obtain ⟨t, ht, rfl⟩ := mem_map.mp ht'
    exact ((hs t ht).mono hFG).finish (h.txn.txn_pos hin) fun hok => hcommit hin (hok ▸ htxn)

theorem DbInv.finished_step : ∀ t ∈ db'.tables, TableStamped (Finished db'.toTxnState) t := by
  refine h.stamped_step hstep (fun x hx => hx.move hstep.move) (fun lm htxn => ?_)
    (fun hin htxn => ?_) h.stamped
  · rw [htxn]
    exact finished_next h.txn lm true db.own_txn
  · rw [htxn]
    exact finished_session h.txn true hin

omit hstep in
/-- The tables are as before, and their writers are still open and locked. -/
theorem DbInv.writer_same (htab : db'.tables = db.tables)
    (hopen : ∀ i, (db.sessions i).in_txn = true → db'.sessions i = db.sessions i)
    (hlocked : ∀ t ∈ db.tables, t.writer_txn ≠ 0 → Locked db.lm t.writer_txn (lock_name t.schema.table) 0 →
      Locked db'.lm t.writer_txn (lock_name t.schema.table) 0) :
    ∀ t ∈ db'.tables, WriterOk db'.toTxnState t := by
  intro t ht hw
  rw [htab] at ht
  obtain ⟨⟨i, hin, htxn⟩, hlock⟩ := h.writer t ht hw
  refine ⟨⟨i, ?_, ?_⟩, hlocked t ht hw hlock⟩
  · rw [hopen i hin]
    exact hin
  · rw [hopen i hin]
    exact htxn

theorem DbInv.writer_step : ∀ t ∈ db'.tables, WriterOk db'.toTxnState t := by
  cases hstep with
  | idle cur_txn htxn htab =>
    refine h.writer_same htab (fun i _ => ?_) fun t _ _ hlock => ?_
    · rw [htxn]
      rfl
    · rw [htxn]
      exact hlock
  | switch n hn htxn htab =>
    refine h.writer_same htab (fun i _ => ?_) fun t _ _ hlock => ?_
    · rw [htxn]
      rfl
    · rw [htxn]
      exact hlock
  | begin hin htxn htab =>
    refine h.writer_same htab (fun i hi => ?_) fun t _ _ hlock => ?_
    · rw [htxn]
      refine update_of_ne (fun hic => ?_) ..
      have hi' : db.session.in_txn = true := (congrArg (fun j => (db.sessions j).in_txn) hic).symm.trans hi
      rw [hin] at hi'
      cases hi'
    · rw [htxn]
      exact hlock
  | conflict htxn htab =>
    refine h.writer_same htab (fun i _ => ?_) fun t ht _ hlock => ?_
    · rw [htxn]
      rfl
    · rw [htxn]
      exact hlock.lock_release_all ((h.writer t ht).ne_next h.txn)
  | stmt lm hin hlock htxn htab =>
    intro t' ht' hw
    obtain ⟨t, ht, hmove⟩ := forall₂_mem_right htab ht'
    rw [hmove.schema, htxn]
    cases hmove.heap with
    | calm _ hwriter _ =>
      rw [hwriter] at hw ⊢
      obtain ⟨hopen, hl⟩ := h.writer t ht hw
      exact ⟨hopen, hl.stmt hw hlock⟩
    | write _ hlocked _ _ hwriter _ =>
      have hwr : st.is_write = true := by cases st <;> first | rfl | cases hlocked
      have hown : db.own_txn = db.session.txn := if_pos (hin hwr)
      rw [hwriter]
      exact ⟨⟨db.cur_session, hin hwr, hown.symm⟩, locked_of_stmt hlocked hlock⟩
    | vacuum hst hnone _ _ _ =>
      have hopen : (db.sessions db.cur_session).in_txn = true := hin hst
      have hclosed : (db.sessions db.cur_session).in_txn = false :=
        hnone db.cur_session h.txn.cur_session
      rw [hclosed] at hopen
      cases hopen
  | auto lm ok hin hlock ts created htxn hmoves hcreated htab =>
    intro t' ht' hw
    rw [htab] at ht'
    obtain ⟨t₁, ht₁, rfl⟩ := mem_map.mp ht'
    rw [finish_writer] at hw ⊢
    by_cases heq : t₁.writer_txn = db.next_txn
    · rw [if_pos heq] at hw
      exact absurd rfl hw
    rw [if_neg heq] at hw ⊢
    rw [finish_schema, htxn]
    rcases mem_moved_or_new hmoves hcreated ht₁ with ⟨t, ht, hmove⟩ | ⟨c, rfl⟩
    · have hwriter := hmove.heap.writer.resolve_right heq
      rw [hmove.schema, hwriter]
      rw [hwriter] at hw
      obtain ⟨hopen, hl⟩ := h.writer t ht hw
      exact ⟨hopen, (hl.stmt hw hlock).lock_release_all ((h.writer t ht).ne_next h.txn)⟩
    · exact absurd (begin_write_writer _ _) heq
  | finish ok hin htxn htab =>
    intro t' ht' hw
    rw [htab] at ht'
    obtain ⟨t, ht, rfl⟩ := mem_map.mp ht'
    rw [finish_writer] at hw ⊢
    by_cases heq : t.writer_txn = db.session.txn
    · rw [if_pos heq] at hw
      exact absurd rfl hw
    rw [if_neg heq] at hw ⊢
    obtain ⟨⟨i, hi, hitxn⟩, hl⟩ := h.writer t ht hw
    have hic : i ≠ db.cur_session := by
      rintro rfl
      exact heq hitxn.symm
    have hsame : update db.sessions db.cur_session { db.session with in_txn := false } i =
        db.sessions i := update_of_ne hic ..
    rw [finish_schema, htxn]
    exact ⟨⟨i, (congrArg DbSession.in_txn hsame).trans hi, (congrArg DbSession.txn hsame).trans hitxn⟩,
      hl.lock_release_all heq⟩

theorem DbInv.excl_step : Exclusive db'.lm := by
  cases hstep with
  | idle cur_txn htxn htab => rw [htxn]; exact h.excl
  | switch n hn htxn htab => rw [htxn]; exact h.excl
  | begin hin htxn htab => rw [htxn]; exact h.excl
  | conflict htxn htab => rw [htxn]; exact h.excl.lock_release_all db.next_txn
  | stmt lm hin hlock htxn htab => rw [htxn]; exact h.excl.stmt hlock
  | auto lm ok hin hlock ts created htxn =>
    rw [htxn]
    exact (h.excl.stmt hlock).lock_release_all db.next_txn
  | finish ok hin htxn htab => rw [htxn]; exact h.excl.lock_release_all db.session.txn

theorem DbInv.step : DbInv db' where
  txn := h.txn.move hstep.move
  excl := h.excl_step hstep
  stamped := h.finished_step hstep
  writer := h.writer_step hstep

omit hstep in
omit h in
theorem Opened.db_inv (hopen : Opened db)
    (hstored : ∀ t ∈ db.tables, TableStamped (Finished db.toTxnState) t) : DbInv db where
  txn := hopen.inv
  excl := by
    rw [hopen.lm]
    exact nofun
  stamped := hstored
  writer t ht hw := absurd (hopen.writers t ht) hw

end Step

end MiniDb
