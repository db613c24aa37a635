import MiniDb.Storage.Tables

/-! # Atomicity of a commit over several files

  `killed fs j k b` is what a process leaves that stops inside `COMMIT`: the
  first `j` files of the transaction are committed, file `j` has done `k` of
  its disk operations (and `b` bytes of a log write in progress), the others
  are untouched.  Reopening is all or nothing when at most one of the files
  has something to commit. -/

namespace MiniDb

open Framework List Option

/-- The disk of the `i`-th file after the stop. -/
def killed (j k b i : Nat) (f : FileState) : Disk :=
  if i < j then f.file.wal.disk.run (flush_commit_io f.file)
  else if i = j then f.file.wal.disk.run (cut_io (flush_commit_io f.file) k b)
  else f.file.wal.disk

/-- Every file is reopened with its pages from before the transaction. -/
def AllOld (fs : List FileState) (j k b : Nat) : Prop :=
  ∀ i f, fs[i]? = some f → Reopens (killed j k b i f) f.committed

/-- Every file is reopened with the pages the transaction leaves. -/
def AllNew (fs : List FileState) (j k b : Nat) : Prop :=
  ∀ i f, fs[i]? = some f → Reopens (killed j k b i f) f.file.pages

/-- At most one of the files has something to commit. -/
def one_changed (fs : List FileState) : Prop :=
  ∀ (i j : Nat) (f g : FileState), fs[i]? = some f → fs[j]? = some g → f.file.changed = true →
    g.file.changed = true → i = j

/-- A database whose tables were opened on the given heap and index files. -/
def store_open (dss : List (Disk × List Disk)) : Store :=
  dss.map fun ds => table_open_files ds.1 ds.2

def disks_sound (dss : List (Disk × List Disk)) : Prop :=
  ∀ ds ∈ dss, ds.1.sound ∧ ∀ d ∈ ds.2, d.sound

variable {dss : List (Disk × List Disk)} {as : List StoreAct}

theorem store_open_inv (h : disks_sound dss) :
    StoreInv (store_open dss) := by
  intro t ht
  obtain ⟨ds, hds, rfl⟩ := mem_map.mp ht
  exact table_open_files_inv (h ds hds).1 (h ds hds).2

theorem StoreInv.run (hsound : disks_sound dss)
    {st : Store} (hrun : Steps Store.step store_ok (store_open dss) as st) : StoreInv st :=
  hrun.invariant StoreInv (fun _ _ _ hinv hok hs => hinv.step hok hs) (store_open_inv hsound)

/-- The commit of one file, seen from the stop. -/
theorem StoreInv.commit_spec {st : Store} (h : StoreInv st) {txn : Nat} (htxn : txn ≠ 0)
    {f : FileState} (hf : f ∈ txn_files st txn) (ht : f.touched = []) (hok : commit_ok f.file) :
    ∃ f', f'.committed = f.file.pages ∧ CommitSpec f f' := by
  obtain ⟨t, htm, hw, hft⟩ := mem_txn_files hf
  obtain ⟨hact, hist, cur, hinv⟩ := h t htm f hft
  have hact : f.active = true := by rw [hact, hw]; simp [htxn]
  have hs : f.step .commit = some ⟨commit_file f.file, false, f.file.pages, []⟩ := by
    simp [FileState.step, hact, ht]
  exact ⟨_, rfl, (hinv.commit hs hok).2⟩

/-- A file with nothing to commit is recovered old and new at every stop. -/
theorem CommitSpec.killed_unchanged {f f' : FileState} (h : CommitSpec f f')
    (hch : f.file.changed = false) (j k b i : Nat) :
    Reopens (killed j k b i f) f.committed ∧ Reopens (killed j k b i f) f'.committed := by
  obtain ⟨hio, hold, hnew⟩ := h.unchanged hch
  have heq : killed j k b i f = f.file.wal.disk := by
    unfold killed
    rw [hio]
    simp
  rw [heq]
  exact ⟨hold, hnew⟩

/-- Each file by itself is recovered old or new. -/
theorem CommitSpec.killed {f f' : FileState} (h : CommitSpec f f') (j k b i : Nat) :
    Reopens (killed j k b i f) f.committed ∨ Reopens (killed j k b i f) f'.committed := by
  unfold MiniDb.killed
  split
  · rw [← h.disk]
    exact .inr h.done
  split
  · exact h.stops k b
  · exact h.stops.here

theorem commit_all_or_none {dss : List (Disk × List Disk)} (hsound : disks_sound dss)
    {as : List StoreAct} {st st' : Store}
    (hrun : Steps Store.step store_ok (store_open dss) as st) {txn : Nat}
    (hcommit : st.step (.commit txn) = some st')
    (hok : ∀ f ∈ txn_files st txn, commit_ok f.file) (hone : one_changed (txn_files st txn))
    (j k b : Nat) : AllOld (txn_files st txn) j k b ∨ AllNew (txn_files st txn) j k b := by
  have hinv := StoreInv.run hsound hrun
  obtain ⟨⟨htxn, hunpinned⟩, -⟩ := ite_none_right_eq_some.mp hcommit
  have hspec : ∀ f ∈ txn_files st txn, ∃ f', f'.committed = f.file.pages ∧ CommitSpec f f' :=
    fun f hf => hinv.commit_spec htxn hf (hunpinned f hf) (hok f hf)
  by_cases hch : ∃ (i : Nat) (f : FileState), (txn_files st txn)[i]? = some f ∧
      f.file.changed = true
  · obtain ⟨i0, f0, hf0, hch0⟩ := hch
    -- the one file that changes decides; the others are recovered either way
    have hothers : ∀ (i : Nat) (f : FileState), (txn_files st txn)[i]? = some f → i ≠ i0 →
        f.file.changed = false := by
      intro i f hf hne
      by_contra hch
      exact hne (hone i i0 f f0 hf hf0 (by simpa using hch) hch0)
    obtain ⟨f0', hc0, hs0⟩ := hspec f0 (mem_of_getElem? hf0)
    have hsame : ∀ i f, (txn_files st txn)[i]? = some f → i = i0 → f = f0 := by
      rintro i f hf rfl
      exact mem_unique hf hf0
    rcases hs0.killed j k b i0 with hold | hnew
    · refine .inl fun i f hf => ?_
      by_cases hi : i = i0
      · rw [hsame i f hf hi, hi]
        exact hold
      · obtain ⟨f', -, hs⟩ := hspec f (mem_of_getElem? hf)
        exact (hs.killed_unchanged (hothers i f hf hi) j k b i).1
    · refine .inr fun i f hf => ?_
      by_cases hi : i = i0
      · rw [hsame i f hf hi, hi, ← hc0]
        exact hnew
      · obtain ⟨f', hc, hs⟩ := hspec f (mem_of_getElem? hf)
        rw [← hc]
        exact (hs.killed_unchanged (hothers i f hf hi) j k b i).2
  · refine .inl fun i f hf => ?_
    obtain ⟨f', -, hs⟩ := hspec f (mem_of_getElem? hf)
    refine (hs.killed_unchanged ?_ j k b i).1
    by_contra hne
    exact hch ⟨i, f, hf, by simpa using hne⟩

/-- Change page 0 of file `i` of table 0. -/
def rewrite_page0 (i : Nat) (buf : Page) : List StoreAct :=
  [.op 0 i (.fetch 0), .op 0 i (.store 0 buf), .op 0 i (.unpin 0 true)]

/-- One table of a heap and an index, each of one zero page. -/
def two_files : List (Disk × List Disk) := [(⟨[Page.zero], []⟩, [⟨[Page.zero], []⟩])]

/-- A transaction that changes the heap file only. -/
def heap_only : List StoreAct := .begin_write 0 1 :: rewrite_page0 0 (Page.fill 1)

/-- A transaction that changes the heap and the index. -/
def heap_and_index : List StoreAct := heap_only ++ rewrite_page0 1 (Page.fill 1)

theorem two_files_sound : disks_sound two_files := by
  have hone : Disk.sound ⟨[Page.zero], []⟩ := ⟨by simp [MAX_PAGES], rfl⟩
  simpa [disks_sound, two_files] using hone

/-- Where no commit has happened yet, a run needs no condition. -/
theorem store_ok_of_no_commit (h : ∀ txn, .commit txn ∉ as) :
    ∀ st : Store, ∀ a ∈ as, store_ok st a := by
  rintro st a ha txn rfl
  exact absurd ha (h txn)

/-- A file whose log is empty needs no condition to commit dirty frames. -/
theorem commit_ok_of_empty_log {f : PagedFile} (hlog : f.wal.log = [])
    (hdirty : f.bp.frames.any Frame.pending = true ∨ f.wal.stole = false) : commit_ok f := by
  refine ⟨hdirty, fun p _ _ => .inl ?_⟩
  rw [hlog]
  rfl

theorem commit_all_or_none_heap_only : ∃ st st', run Store.step (store_open two_files) heap_only =
      some st ∧ st.step (.commit 1) = some st' ∧
      (txn_files st 1).map (fun f => f.file.pages) = [[Page.fill 1], [Page.zero]] ∧
      ∀ j k b, AllOld (txn_files st 1) j k b ∨ AllNew (txn_files st 1) j k b := by
  obtain ⟨st, hst⟩ : ∃ st, run Store.step (store_open two_files) heap_only = some st := ⟨_, rfl⟩
  have hsteps := Steps.of_run (store_ok_of_no_commit (by simp [heap_only, rewrite_page0])) hst
  have hfacts : (run Store.step (store_open two_files) heap_only).map (fun st =>
      ((txn_files st 1).map (fun f => (f.file.pages, f.file.wal.log)),
        (txn_files st 1).map fun f => (f.file.changed, f.file.bp.frames.any Frame.pending),
        (st.step (.commit 1)).isSome)) =
      some ([([Page.fill 1], []), ([Page.zero], [])], [(true, true), (false, false)], true) := rfl
  rw [hst] at hfacts
  simp only [map_some, Option.some.injEq, Prod.mk.injEq] at hfacts
  obtain ⟨hpages, hchanged, hcan⟩ := hfacts
  obtain ⟨st', hst'⟩ := isSome_iff_exists.mp hcan
  obtain ⟨f0, f1, hfs⟩ : ∃ f0 f1, txn_files st 1 = [f0, f1] :=
    length_eq_two.mp (by simpa using congrArg List.length hpages)
  simp only [hfs, map_cons, map_nil, List.cons.injEq, Prod.mk.injEq, and_true] at hpages
  simp only [hfs, map_cons, map_nil, List.cons.injEq, Prod.mk.injEq, and_true] at hchanged
  refine ⟨st, st', hst, hst', by simp [hfs, hpages], ?_⟩
  refine commit_all_or_none two_files_sound hsteps hst' ?_ ?_
  · rw [hfs]
    intro f hf
    rcases mem_cons.mp hf with rfl | hf
    · exact commit_ok_of_empty_log hpages.1.2 (.inl hchanged.1.2)
    · rw [mem_singleton.mp hf]
      refine commit_ok_of_empty_log hpages.2.2 (.inr ?_)
      simpa [PagedFile.changed, hchanged.2.2] using hchanged.2.1
  · rw [hfs]
    have hidx : ∀ (i : Nat) (f : FileState), [f0, f1][i]? = some f → f.file.changed = true →
        i = 0 := by
      intro i f hf hch
      rcases i with _ | _ | i
      · rfl
      · cases hf
        rw [hchanged.2.1] at hch
        cases hch
      · simp at hf
    intro i j f g hf hg hcf hcg
    rw [hidx i f hf hcf, hidx j g hg hcg]

/-- The heap is committed, the process stops, the index is not. -/
theorem commit_torn_between_files :
    ¬ ∀ (dss : List (Disk × List Disk)) (as : List StoreAct) (st st' : Store) (txn : Nat),
      disks_sound dss → Steps Store.step (fun _ _ => True) (store_open dss) as st →
      st.step (.commit txn) = some st' →
      ∀ j k b, AllOld (txn_files st txn) j k b ∨ AllNew (txn_files st txn) j k b := by
  intro hall
  obtain ⟨st, hst⟩ : ∃ st, run Store.step (store_open two_files) heap_and_index = some st := ⟨_, rfl⟩
  have hsteps : Steps Store.step store_ok (store_open two_files) heap_and_index st :=
    Steps.of_run (store_ok_of_no_commit (by simp [heap_and_index, heap_only, rewrite_page0])) hst
  have hfacts : (run Store.step (store_open two_files) heap_and_index).map (fun st =>
      ((txn_files st 1).map (fun f => (f.file.pages, f.committed, f.file.wal.log, f.touched)),
        (txn_files st 1).map fun f => f.file.bp.frames.any Frame.pending,
        (st.step (.commit 1)).isSome)) =
      some ([([Page.fill 1], [Page.zero], [], []), ([Page.fill 1], [Page.zero], [], [])],
        [true, true], true) := rfl
  rw [hst] at hfacts
  simp only [map_some, Option.some.injEq, Prod.mk.injEq] at hfacts
  obtain ⟨hpages, hdirty, hcan⟩ := hfacts
  obtain ⟨st', hst'⟩ := isSome_iff_exists.mp hcan
  obtain ⟨f0, f1, hfs⟩ : ∃ f0 f1, txn_files st 1 = [f0, f1] :=
    length_eq_two.mp (by simpa using congrArg List.length hpages)
  have hinv := StoreInv.run two_files_sound hsteps
  have hspec : ∀ f ∈ txn_files st 1, f.touched = [] → f.file.wal.log = [] →
      f.file.bp.frames.any Frame.pending = true →
      ∃ f', f'.committed = f.file.pages ∧ CommitSpec f f' := fun f hf ht hlog hp =>
    hinv.commit_spec (by decide) hf ht (commit_ok_of_empty_log hlog (.inl hp))
  rw [hfs] at hspec
  simp only [hfs, map_cons, map_nil, List.cons.injEq, Prod.mk.injEq, and_true] at hpages
  simp only [hfs, map_cons, map_nil, List.cons.injEq, and_true] at hdirty
  obtain ⟨⟨hp0, hc0, hl0, ht0⟩, hp1, hc1, hl1, ht1⟩ := hpages
  obtain ⟨f0', hf0', hs0⟩ := hspec f0 (by simp) ht0 hl0 hdirty.1
  obtain ⟨f1', hf1', hs1⟩ := hspec f1 (by simp) ht1 hl1 hdirty.2
  have h01 : Page.fill 1 ≠ Page.zero := fun h => absurd (Page.fill_injective h) (by decide)
  -- stop right after the commit of the heap file
  have hnew0 : Recovers (killed 1 0 0 0 f0) [Page.fill 1] := by
    have : killed 1 0 0 0 f0 = f0'.file.wal.disk := hs0.disk.symm
    rw [this, ← hp0, ← hf0']
    exact hs0.done.1
  have hold1 : Recovers (killed 1 0 0 1 f1) [Page.zero] := by
    have hkilled : killed 1 0 0 1 f1 = f1.file.wal.disk := run_cut_io_zero _ _
    obtain ⟨t, htm, -, hft⟩ := mem_txn_files (show f1 ∈ txn_files st 1 by simp [hfs])
    obtain ⟨-, hist, cur, hinv1⟩ := hinv t htm f1 hft
    rw [hkilled, ← hc1]
    exact hinv1.reopens.1
  rcases hall two_files heap_and_index st st' 1 two_files_sound (hsteps.mono fun _ _ _ => trivial) hst'
    1 0 0 with h | h
  · have hold0 := h 0 f0 (by simp [hfs])
    rw [hc0] at hold0
    have := (hnew0 0 (by simp)).symm.trans (hold0.1 0 (by simp))
    exact h01 (by simpa using this)
  · have hnew1 := h 1 f1 (by simp [hfs])
    rw [hp1] at hnew1
    have := (hnew1.1 0 (by simp)).symm.trans (hold1 0 (by simp))
    exact h01 (by simpa using this)

end MiniDb
