import MiniDb.Storage.FileCommit

/-! # Tables: several files in one transaction

  A table is a heap file and its B+Tree files; each has its own log and its
  own buffer pool.  A transaction opens the WAL transactions of a table when
  it first writes it, and `COMMIT` commits the files of its tables one after
  another (`txn_commit_tables`).

  Each file by itself goes from its old pages to its new ones in one step.
  Between two files nothing of the kind holds: a stop after the first commit
  leaves one file new and the other old. -/

namespace MiniDb

open Framework List Option

/-- Frames of an index pool. -/
def BTREE_FRAMES : Nat := 32

structure TableFiles where
  /-- The heap file, then the index files, in commit order. -/
  files : List FileState
  /-- The transaction that writes the table, `0` for none. -/
  writer_txn : Nat

abbrev Store := List TableFiles

/-- The files of a table as `table_open_files` opens them. -/
def table_open_files (heap : Disk) (indexes : List Disk) : TableFiles :=
  { files := FileState.opened heap WAL_MAX_STAGED ::
      indexes.map fun d => FileState.opened d BTREE_FRAMES
    writer_txn := 0 }

/-- Take a step that is known to be possible. -/
def FileState.force (a : FileAct) (s : FileState) : FileState := (s.step a).getD s

/-- All files of a table take the same step; the table then belongs to `txn`. -/
def TableFiles.all (t : TableFiles) (a : FileAct) (txn : Nat) : TableFiles :=
  { files := t.files.map (FileState.force a), writer_txn := txn }

/-- First write of `txn` to a table.  `none`: another transaction holds its X lock. -/
def table_begin_write (t : TableFiles) (txn : Nat) : Option TableFiles :=
  if t.writer_txn = txn then some t
  else if t.writer_txn ≠ 0 then none
  else some (t.all .begin txn)

/-- Only the tables `txn` writes are committed. -/
def txn_commit_tables (st : Store) (txn : Nat) : Store :=
  st.map fun t => if t.writer_txn = txn then t.all .commit 0 else t

def txn_abort_tables (st : Store) (txn : Nat) : Store :=
  st.map fun t => if t.writer_txn = txn then t.all .abort 0 else t

/-- The files a commit of `txn` goes through, in order. -/
def txn_files (st : Store) (txn : Nat) : List FileState :=
  (st.filter fun t => t.writer_txn = txn).flatMap TableFiles.files

inductive StoreAct where
  | begin_write (t txn : Nat)
  /-- A client operation on file `i` of table `t`. -/
  | op (t i : Nat) (o : FileOp)
  | commit (txn : Nat)
  | abort (txn : Nat)

/-- Put a changed file back into its table. -/
def Store.put (st : Store) (t i : Nat) (tf : TableFiles) (f : FileState) : Store :=
  st.set t { tf with files := tf.files.set i f }

def Store.step_file (st : Store) (t i : Nat) (a : FileAct) : Option Store :=
  match st[t]? with
  | none => none
  | some tf =>
      match tf.files[i]? with
      | none => none
      | some f => (f.step a).map (st.put t i tf)

def Store.step (st : Store) : StoreAct → Option Store
  | .begin_write t txn =>
      if txn = 0 then none
      else
        match st[t]? with
        | none => none
        | some tf => (table_begin_write tf txn).map (st.set t)
  | .op t i o => st.step_file t i (.op o)
  | .commit txn =>
      if txn ≠ 0 ∧ ∀ f ∈ txn_files st txn, f.touched = [] then some (txn_commit_tables st txn)
      else none
  | .abort txn => if txn ≠ 0 then some (txn_abort_tables st txn) else none

/-- Every commit of a run finds its files in order. -/
def store_ok (st : Store) (a : StoreAct) : Prop :=
  ∀ txn, a = .commit txn → ∀ f ∈ txn_files st txn, commit_ok f.file

/-! ### The invariant -/

def StoreInv (st : Store) : Prop :=
  ∀ t ∈ st, ∀ f ∈ t.files, f.active = decide (t.writer_txn ≠ 0) ∧ ∃ hist cur, FileInv f hist cur

variable {st st' : Store} {txn : Nat} {f : FileState}

theorem mem_txn_files (h : f ∈ txn_files st txn) :
    ∃ t ∈ st, t.writer_txn = txn ∧ f ∈ t.files := by
  obtain ⟨t, ht, hf⟩ := mem_flatMap.mp h
  obtain ⟨hmem, htxn⟩ := mem_filter.mp ht
  exact ⟨t, hmem, by simpa using htxn, hf⟩

theorem mem_txn_files_of {t : TableFiles} (ht : t ∈ st) (htxn : t.writer_txn = txn)
    (hf : f ∈ t.files) : f ∈ txn_files st txn :=
  mem_flatMap.mpr ⟨t, mem_filter.mpr ⟨ht, by simpa using htxn⟩, hf⟩

/-- The mode a step leaves. -/
def FileAct.mode (active : Bool) : FileAct → Bool
  | .begin => true
  | .commit => false
  | .abort => false
  | _ => active

theorem step_active {s s' : FileState} {a : FileAct} (hs : s.step a = some s') :
    s'.active = a.mode s.active := by
  cases a with
  | begin =>
    obtain ⟨-, hs⟩ := ite_none_left_eq_some.mp hs
    cases hs
    rfl
  | op o =>
    cases o with
    | unpin p d =>
      cases d <;>
        (obtain ⟨-, hs⟩ := ite_none_right_eq_some.mp hs
         cases hs
         rfl)
    | _ =>
      obtain ⟨-, hs⟩ := ite_none_right_eq_some.mp hs
      cases hs
      rfl
  | _ =>
    obtain ⟨-, hs⟩ := ite_none_right_eq_some.mp hs
    cases hs
    rfl

/-! ### One property for all files -/

/-- Every file has the property `G`, and it is written exactly when its table is. -/
def StoreAll (G : FileState → Prop) (st : Store) : Prop :=
  ∀ t ∈ st, ∀ f ∈ t.files, f.active = decide (t.writer_txn ≠ 0) ∧ G f

section StoreAll

variable {G : FileState → Prop} {ok : FileState → FileAct → Prop} {tf : TableFiles}

theorem StoreAll.set (h : StoreAll G st) (t : Nat)
    (htf : ∀ f ∈ tf.files, f.active = decide (tf.writer_txn ≠ 0) ∧ G f) :
    StoreAll G (st.set t tf) := by
  intro t' ht'
  rcases mem_or_eq_of_mem_set ht' with hmem | rfl
  · exact h t' hmem
  · exact htf

variable (hG : ∀ s s' a, G s → ok s a → s.step a = some s' → G s') {a : FileAct} {txn : Nat}

include hG

/-- All files of a table take a step they can take. -/
theorem all_files
    (hmode : ∀ b, a.mode b = decide (txn ≠ 0))
    (h : ∀ f ∈ tf.files, G f ∧ ok f a ∧ ∃ f', f.step a = some f') :
    ∀ f ∈ (tf.all a txn).files, f.active = decide ((tf.all a txn).writer_txn ≠ 0) ∧ G f := by
  intro f hf
  obtain ⟨f0, hf0, rfl⟩ := mem_map.mp hf
  obtain ⟨hg, hok, f', hs⟩ := h f0 hf0
  have heq : f0.force a = f' := by simp [FileState.force, hs]
  rw [heq]
  exact ⟨(step_active hs).trans (hmode _), hG f0 f' a hg hok hs⟩

theorem StoreAll.step_file (h : StoreAll G st) {t i : Nat} (hok : ∀ f, ok f a)
    (hmode : ∀ b, a.mode b = b) (hs : st.step_file t i a = some st') : StoreAll G st' := by
  unfold Store.step_file at hs
  split at hs
  · cases hs
  next tf htf =>
  split at hs
  · cases hs
  next f hf =>
  obtain ⟨f', hf', rfl⟩ := map_eq_some_iff.mp hs
  have hmem : tf ∈ st := mem_of_getElem? htf
  obtain ⟨hact, hg⟩ := h tf hmem f (mem_of_getElem? hf)
  refine h.set t fun g hg' => ?_
  rcases mem_or_eq_of_mem_set hg' with hg' | rfl
  · exact h tf hmem g hg'
  · exact ⟨(step_active hf').trans ((hmode _).trans hact), hG f _ a hg (hok f) hf'⟩

/-- The writer of a table can always commit it or roll it back. -/
theorem StoreAll.end_txn (h : StoreAll G st) (htxn : txn ≠ 0)
    (ha : ∀ b, a.mode b = false) (hok : ∀ f ∈ txn_files st txn, ok f a)
    (hcan : ∀ f ∈ txn_files st txn, f.active = true → ∃ f', f.step a = some f') :
    StoreAll G (st.map fun t => if t.writer_txn = txn then t.all a 0 else t) := by
  intro t ht
  obtain ⟨t0, ht0, rfl⟩ := mem_map.mp ht
  split
  · next hw =>
    refine all_files hG (by simpa using ha) fun f hf => ?_
    obtain ⟨hact, hg⟩ := h t0 ht0 f hf
    have hmem := mem_txn_files_of ht0 hw hf
    exact ⟨hg, hok f hmem, hcan f hmem (by rw [hact, hw]; simp [htxn])⟩
  · exact h t0 ht0

/-- A property that the steps of a file keep is kept by the steps of the store. -/
theorem StoreAll.step (h : StoreAll G st) {a : StoreAct} (hfree : ∀ f b, b ≠ .commit → ok f b)
    (hcommit : ∀ txn, a = .commit txn → ∀ f ∈ txn_files st txn, ok f .commit)
    (hs : st.step a = some st') : StoreAll G st' := by
  cases a with
  | begin_write t txn =>
    obtain ⟨htxn, hs⟩ := ite_none_left_eq_some.mp hs
    split at hs
    · cases hs
    next tf htf =>
    obtain ⟨tf', htf', rfl⟩ := map_eq_some_iff.mp hs
    have hmem : tf ∈ st := mem_of_getElem? htf
    refine h.set t ?_
    unfold table_begin_write at htf'
    split at htf'
    · cases htf'
      exact h tf hmem
    split at htf'
    · cases htf'
    next hnone =>
    cases htf'
    refine all_files hG (by simp [FileAct.mode, htxn]) fun f hf => ?_
    obtain ⟨hact, hg⟩ := h tf hmem f hf
    refine ⟨hg, hfree f _ (by simp), { f with file := begin_write f.file, active := true }, ?_⟩
    have hidle : f.active = false := by simpa [hnone] using hact
    simp [FileState.step, hidle]
  | op t i o => exact h.step_file hG (fun f => hfree f _ (by simp)) (fun _ => rfl) hs
  | commit txn =>
    obtain ⟨⟨htxn, htouched⟩, hs⟩ := ite_none_right_eq_some.mp hs
    cases hs
    refine h.end_txn hG htxn (fun _ => rfl) (hcommit txn rfl) fun f hf hact => ?_
    simp [FileState.step, hact, htouched f hf]
  | abort txn =>
    obtain ⟨htxn, hs⟩ := ite_none_right_eq_some.mp hs
    cases hs
    refine h.end_txn hG htxn (fun _ => rfl) (fun f _ => hfree f _ (by simp)) fun f hf hact => ?_
    simp [FileState.step, hact]

end StoreAll

theorem table_open_files_inv {heap : Disk} {indexes : List Disk}
    (hheap : heap.sound) (hidx : ∀ d ∈ indexes, d.sound) :
    ∀ f ∈ (table_open_files heap indexes).files,
      f.active = decide ((table_open_files heap indexes).writer_txn ≠ 0) ∧
        ∃ hist cur, FileInv f hist cur := by
  intro f hf
  rcases mem_cons.mp hf with rfl | hf
  · exact ⟨rfl, [], [], FileInv.opened hheap le_rfl⟩
  · obtain ⟨d, hd, rfl⟩ := mem_map.mp hf
    exact ⟨rfl, [], [], FileInv.opened (hidx d hd) (by decide)⟩

theorem StoreInv.step (h : StoreInv st) {a : StoreAct} (hok : store_ok st a)
    (hs : st.step a = some st') : StoreInv st' := by
  have hkeep : ∀ (s s' : FileState) b, (∃ hist cur, FileInv s hist cur) → step_ok s b →
      s.step b = some s' → ∃ hist cur, FileInv s' hist cur :=
    fun _ _ _ ⟨_, _, hinv⟩ hb hs => hinv.step hb hs
  exact StoreAll.step hkeep h (fun _ _ hb hc => absurd hc hb) (fun txn ha f hf _ => hok txn ha f hf) hs

end MiniDb
