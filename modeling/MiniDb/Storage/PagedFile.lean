import MiniDb.Storage.BufPool
import MiniDb.Storage.WalRecovery

/-! # A data file behind its buffer pool

  What a client of the buffer pool sees is the *view*: the cached frame of a
  page, or else the page in the file.  Fetches, with all the evictions and
  steals they cause, leave the view alone; a commit writes exactly the view,
  a rollback goes back to the committed pages.

  `FileState` adds to a file what the clients keep to: which transaction mode
  it is in, the pages of the last commit, and the pages that a client has
  stored to and not yet unpinned. -/

namespace MiniDb

open Framework Option

/-! ### The view -/

def PagedFile.view (f : PagedFile) (p : Nat) : Option Page :=
  match find_frame f.bp p with
  | some i => f.bp.frames[i]?.map Frame.data
  | none => f.wal.data.file[p]?

/-- The counted pages, as the clients see them. -/
def PagedFile.pages (f : PagedFile) : List Page :=
  (List.range f.wal.data.num_pages).map fun p => (f.view p).getD Page.zero

/-- Page `p` is cached in frame `fr`, at index `i`. -/
structure Caches (f : PagedFile) (i : Nat) (fr : Frame) (p : Nat) : Prop where
  at_index : f.bp.frames[i]? = some fr
  valid : fr.valid = true
  page_id : fr.page_id = p

/-- The frames of a pool over their file; `touched` are the pages stored to and
    not yet unpinned. -/
structure CacheInv (f : PagedFile) (touched : List Nat) : Prop where
  counted : ∀ i fr p, Caches f i fr p → p < f.wal.data.num_pages
  unique : ∀ i j fr fr' p, Caches f i fr p → Caches f j fr' p → i = j
  /-- A clean frame holds what the file holds. -/
  clean : ∀ i fr p, Caches f i fr p → fr.dirty = false → p ∉ touched →
    f.wal.data.file[p]? = some fr.data
  held : ∀ p ∈ touched, ∃ i fr, Caches f i fr p ∧ fr.pin_count ≠ 0

/-- A pool whose dirty frames can all be staged in one transaction. -/
structure PoolInv (f : PagedFile) (touched : List Nat) : Prop extends CacheInv f touched where
  size : f.bp.frames.length ≤ WAL_MAX_STAGED

variable {f f' : PagedFile} {touched touched' : List Nat}

variable {i p : Nat} {fr v : Frame} {g : Frame → Frame} {j : Nat} {fr' : Frame} {nf : Frame}

theorem find_frame_caches (h : find_frame f.bp p = some i) : ∃ fr, Caches f i fr p := by
  obtain ⟨fr, hget, hv, hid⟩ := find_frame_some h
  exact ⟨fr, hget, hv, hid⟩

theorem not_caches_of_find_frame (h : find_frame f.bp p = none) :
    ¬ Caches f i fr p := fun hc =>
  find_frame_none h fr (List.mem_of_getElem? hc.at_index) hc.valid hc.page_id

theorem CacheInv.frame_eq (h : CacheInv f touched) (hc : Caches f i fr p)
    (hc' : Caches f j fr' p) : fr = fr' := by
  have hij := h.unique i j fr fr' p hc hc'
  have := hc.at_index
  rw [hij, hc'.at_index] at this
  exact (some.inj this).symm

/-- Only the frames matter. -/
theorem Caches.congr (hc : Caches f i fr p) (hframes : f'.bp.frames = f.bp.frames) :
    Caches f' i fr p :=
  ⟨hframes ▸ hc.at_index, hc.valid, hc.page_id⟩

/-- The frame that has page `p`. -/
def PagedFile.cell (f : PagedFile) (p : Nat) : Option Frame :=
  (find_frame f.bp p).bind (f.bp.frames[·]?)

/-- Pins on page `p`. -/
def PagedFile.pins (f : PagedFile) (p : Nat) : Nat :=
  match find_frame f.bp p with
  | some i => (f.bp.frames[i]?.map Frame.pin_count).getD 0
  | none => 0

theorem view_eq_cell (f : PagedFile) (p : Nat) :
    f.view p = ((f.cell p).map Frame.data).or f.wal.data.file[p]? := by
  unfold PagedFile.view PagedFile.cell
  cases hfind : find_frame f.bp p with
  | none => rfl
  | some i =>
    obtain ⟨fr, hc⟩ := find_frame_caches hfind
    simp [hc.at_index]

theorem pins_eq_cell (f : PagedFile) (p : Nat) :
    f.pins p = ((f.cell p).map Frame.pin_count).getD 0 := by
  unfold PagedFile.pins PagedFile.cell
  cases find_frame f.bp p <;> rfl

theorem caches_of_cell (h : f.cell p = some fr) : ∃ i, Caches f i fr p := by
  obtain ⟨i, hfind, hget⟩ := bind_eq_some_iff.1 h
  obtain ⟨fr', hc⟩ := find_frame_caches hfind
  cases hc.at_index.symm.trans hget
  exact ⟨i, hc⟩

theorem CacheInv.cell_iff (h : CacheInv f touched) : f.cell p = some fr ↔ ∃ i, Caches f i fr p := by
  refine ⟨caches_of_cell, ?_⟩
  rintro ⟨i, hc⟩
  unfold PagedFile.cell
  cases hfind : find_frame f.bp p with
  | none => exact absurd hc (not_caches_of_find_frame hfind)
  | some j =>
    obtain ⟨fr', hc'⟩ := find_frame_caches hfind
    rw [h.frame_eq hc hc']
    exact hc'.at_index

theorem cell_uncached (h : ∀ i fr, ¬ Caches f i fr p) : f.cell p = none := by
  refine eq_none_iff_forall_ne_some.2 fun fr hcell => ?_
  obtain ⟨i, hc⟩ := caches_of_cell hcell
  exact h i fr hc

theorem CacheInv.view_cached (h : CacheInv f touched) (hc : Caches f i fr p) :
    f.view p = some fr.data := by
  rw [view_eq_cell, h.cell_iff.2 ⟨i, hc⟩]
  rfl

theorem view_uncached (h : ∀ i fr, ¬ Caches f i fr p) : f.view p = f.wal.data.file[p]? := by
  rw [view_eq_cell, cell_uncached h]
  rfl

theorem CacheInv.pins_of_caches (h : CacheInv f touched) (hc : Caches f i fr p) :
    f.pins p = fr.pin_count := by
  rw [pins_eq_cell, h.cell_iff.2 ⟨i, hc⟩]
  rfl

theorem pins_uncached (h : ∀ i fr, ¬ Caches f i fr p) : f.pins p = 0 := by
  rw [pins_eq_cell, cell_uncached h]
  rfl

/-! ### Updating one frame -/

theorem caches_modify_frame (h : Caches (f.modify_frame i g) j fr' p) :
    (i ≠ j ∧ Caches f j fr' p) ∨ ∃ fr, i = j ∧ f.bp.frames[i]? = some fr ∧ fr' = g fr := by
  have hget := h.at_index
  simp only [PagedFile.modify_frame, List.getElem?_modify] at hget
  by_cases hij : i = j
  · subst hij
    simp only [if_true, map_eq_map, map_eq_some_iff] at hget
    obtain ⟨fr, hfr, rfl⟩ := hget
    exact .inr ⟨fr, rfl, hfr, rfl⟩
  · simp only [hij, if_false, map_eq_map, map_id'] at hget
    exact .inl ⟨hij, hget, h.valid, h.page_id⟩

theorem caches_modify_frame_self (h : f.bp.frames[i]? = some fr) (hv : (g fr).valid = true) :
    Caches (f.modify_frame i g) i (g fr) (g fr).page_id :=
  ⟨by simp [PagedFile.modify_frame, h], hv, rfl⟩

theorem caches_modify_frame_other (h : Caches f j fr p) (hij : i ≠ j) :
    Caches (f.modify_frame i g) j fr p :=
  ⟨by simp [PagedFile.modify_frame, hij, h.at_index], h.valid, h.page_id⟩

theorem set_frame_eq (f : PagedFile) (i : Nat) (fr : Frame) :
    f.set_frame i fr = f.modify_frame i fun _ => fr := by
  simp [PagedFile.set_frame, PagedFile.modify_frame, List.set_eq_modify]

/-- The pool after an update of frame `i`: the new frame has to be in order by itself. -/
theorem CacheInv.modify_frame (h : CacheInv f touched) (hfr : f.bp.frames[i]? = some fr)
    (hnew : (g fr).valid = true →
      (g fr).page_id < f.wal.data.num_pages ∧
      (∀ j fr', Caches f j fr' (g fr).page_id → j = i) ∧
      ((g fr).dirty = false → (g fr).page_id ∉ touched' →
        f.wal.data.file[(g fr).page_id]? = some (g fr).data))
    (hother : ∀ j fr' q, j ≠ i → Caches f j fr' q → q ∉ touched' → q ∉ touched)
    (hheld : ∀ p ∈ touched', ∃ j fr', Caches (f.modify_frame i g) j fr' p ∧ fr'.pin_count ≠ 0) :
    CacheInv (f.modify_frame i g) touched' where
  counted := by
    intro j fr' p hc
    rcases caches_modify_frame hc with ⟨-, hc⟩ | ⟨fr0, rfl, hfr0, rfl⟩
    · exact h.counted j fr' p hc
    · cases hfr.symm.trans hfr0
      exact hc.page_id ▸ (hnew hc.valid).1
  unique := by
    intro j k fr1 fr2 p hc1 hc2
    rcases caches_modify_frame hc1 with ⟨-, hc1'⟩ | ⟨fr0, rfl, hfr0, rfl⟩
    · rcases caches_modify_frame hc2 with ⟨-, hc2'⟩ | ⟨fr0, rfl, hfr0, rfl⟩
      · exact h.unique j k fr1 fr2 p hc1' hc2'
      · cases hfr.symm.trans hfr0
        exact (hnew hc2.valid).2.1 j fr1 (hc2.page_id.symm ▸ hc1')
    · cases hfr.symm.trans hfr0
      rcases caches_modify_frame hc2 with ⟨-, hc2'⟩ | ⟨fr0, rfl, -, -⟩
      · exact ((hnew hc1.valid).2.1 k fr2 (hc1.page_id.symm ▸ hc2')).symm
      · rfl
  clean := by
    intro j fr' p hc hdirty hnot
    rcases caches_modify_frame hc with ⟨hij, hc'⟩ | ⟨fr0, rfl, hfr0, rfl⟩
    · exact h.clean j fr' p hc' hdirty (hother j fr' p (Ne.symm hij) hc' hnot)
    · cases hfr.symm.trans hfr0
      have hid := hc.page_id
      subst hid
      exact (hnew hc.valid).2.2 hdirty hnot
  held := hheld

/-- A page after an update of frame `i`: it is in the new frame, was in the old one,
    or is where it was. -/
theorem CacheInv.cell_modify_frame (h : CacheInv f touched)
    (h' : CacheInv (f.modify_frame i g) touched') (hfr : f.bp.frames[i]? = some fr) (q : Nat) :
    (f.modify_frame i g).cell q =
      if (g fr).valid = true ∧ (g fr).page_id = q then some (g fr)
      else if fr.valid = true ∧ fr.page_id = q then none else f.cell q := by
  split
  · next hnew => exact h'.cell_iff.2 ⟨i, hnew.2 ▸ caches_modify_frame_self hfr hnew.1⟩
  next hnew =>
  have hback : ∀ j fr', Caches (f.modify_frame i g) j fr' q → i ≠ j ∧ Caches f j fr' q := by
    intro j fr' hc
    rcases caches_modify_frame hc with hc' | ⟨fr0, rfl, hfr0, rfl⟩
    · exact hc'
    · cases hfr.symm.trans hfr0
      exact absurd ⟨hc.valid, hc.page_id⟩ hnew
  split
  · next hold =>
    refine cell_uncached fun j fr' hc => (hback j fr' hc).1 ?_
    exact h.unique i j fr fr' q ⟨hfr, hold.1, hold.2⟩ (hback j fr' hc).2
  · next hold =>
    refine Option.ext fun fr' => ?_
    rw [h'.cell_iff, h.cell_iff]
    refine exists_congr fun j => ⟨fun hc => (hback j fr' hc).2, fun hc => ?_⟩
    refine caches_modify_frame_other hc ?_
    rintro rfl
    cases hfr.symm.trans hc.at_index
    exact hold ⟨hc.valid, hc.page_id⟩

/-- Only the frames and the file matter, and of the file what clean frames hold. -/
theorem CacheInv.congr (h : CacheInv f touched) (hframes : f'.bp.frames = f.bp.frames)
    (hn : f.wal.data.num_pages ≤ f'.wal.data.num_pages)
    (hsame : ∀ i fr q, Caches f i fr q → fr.dirty = false →
      f'.wal.data.file[q]? = f.wal.data.file[q]?) : CacheInv f' touched where
  counted i fr p hc := (h.counted i fr p (hc.congr hframes.symm)).trans_le hn
  unique i j fr fr' p hc hc' := h.unique i j fr fr' p (hc.congr hframes.symm) (hc'.congr hframes.symm)
  clean i fr p hc hd hnot := by
    have hc' := hc.congr hframes.symm
    exact (hsame i fr p hc' hd).trans (h.clean i fr p hc' hd hnot)
  held p hp := by
    obtain ⟨i, fr, hc, hpin⟩ := h.held p hp
    exact ⟨i, fr, hc.congr hframes, hpin⟩

/-! ### What keeps the cache in order -/

theorem CacheInv.of_empty (hno : ∀ i fr p, ¬ Caches f i fr p) : CacheInv f [] :=
  ⟨fun i fr p hc => absurd hc (hno i fr p), fun i _ fr _ p hc => absurd hc (hno i fr p),
    fun i fr p hc => absurd hc (hno i fr p), by simp⟩

/-- The clients see the same pages in both files. -/
structure SameView (f f' : PagedFile) : Prop where
  view : ∀ q, f'.view q = f.view q
  count : f'.wal.data.num_pages = f.wal.data.num_pages

theorem SameView.trans {f f' f'' : PagedFile} (h : SameView f f') (h' : SameView f' f'') :
    SameView f f'' :=
  ⟨fun q => (h'.view q).trans (h.view q), h'.count.trans h.count⟩

/-- A frame nobody pins is not being stored to. -/
theorem CacheInv.not_touched (h : CacheInv f touched) (hc : Caches f i v p) (hpin : v.pin_count = 0)
    : p ∉ touched := by
  intro hp
  obtain ⟨j, fr, hc', hpin'⟩ := h.held p hp
  exact hpin' (h.frame_eq hc hc' ▸ hpin)

/-- A frame is given up that is free, or that has what the file has and no pins. -/
theorem CacheInv.drop (h : CacheInv f touched) (hfr : f.bp.frames[i]? = some fr)
    (hgone : (g fr).valid = false)
    (hold : fr.valid = true → fr.pin_count = 0 ∧ f.wal.data.file[fr.page_id]? = some fr.data) :
    CacheInv (f.modify_frame i g) touched ∧ SameView f (f.modify_frame i g) ∧
      ∀ q, (f.modify_frame i g).pins q = f.pins q := by
  have hcache : CacheInv (f.modify_frame i g) touched := by
    refine h.modify_frame hfr (fun hv => ?_) (fun _ _ _ _ _ hq => hq) fun q hq => ?_
    · cases hgone.symm.trans hv
    · obtain ⟨j, fr', hc, hpin⟩ := h.held q hq
      refine ⟨j, fr', caches_modify_frame_other hc ?_, hpin⟩
      rintro rfl
      cases hfr.symm.trans hc.at_index
      exact hpin (hold hc.valid).1
  have hboth : ∀ q, (f.modify_frame i g).view q = f.view q ∧
      (f.modify_frame i g).pins q = f.pins q := by
    intro q
    rw [view_eq_cell, pins_eq_cell, h.cell_modify_frame hcache hfr, hgone]
    by_cases hq : fr.valid = true ∧ fr.page_id = q
    · obtain ⟨hpin, hfile⟩ := hold hq.1
      have hc : Caches f i fr q := ⟨hfr, hq.1, hq.2⟩
      rw [h.view_cached hc, h.pins_of_caches hc, hpin, if_neg (by simp), if_pos hq]
      exact ⟨hq.2 ▸ hfile, rfl⟩
    · rw [if_neg (by simp), if_neg hq, view_eq_cell, pins_eq_cell]
      exact ⟨rfl, rfl⟩
  exact ⟨hcache, ⟨fun q => (hboth q).1, rfl⟩, fun q => (hboth q).2⟩

/-- A page loaded into a free frame. -/
theorem CacheInv.load (h : CacheInv f touched) (hfr : f.bp.frames[i]? = some fr)
    (hfree : fr.valid = false) (hno : ∀ j fr', ¬ Caches f j fr' p) (hp : p < f.wal.data.num_pages)
    (hv : nf.valid = true) (hid : nf.page_id = p) (hdata : f.wal.data.file[p]? = some nf.data) :
    CacheInv (f.modify_frame i fun _ => nf) touched ∧ SameView f (f.modify_frame i fun _ => nf) ∧
      ∀ q, (f.modify_frame i fun _ => nf).pins q = f.pins q + if q = p then nf.pin_count else 0 := by
  have hcache : CacheInv (f.modify_frame i fun _ => nf) touched := by
    refine h.modify_frame hfr (fun _ => ⟨?_, ?_, ?_⟩) (fun _ _ _ _ _ hq => hq) ?_
    · exact hid ▸ hp
    · intro j fr' hc'
      exact absurd (hid ▸ hc') (hno j fr')
    · intro _ _
      exact hid ▸ hdata
    · intro q hq
      obtain ⟨j, fr', hc', hpin⟩ := h.held q hq
      refine ⟨j, fr', caches_modify_frame_other hc' ?_, hpin⟩
      rintro rfl
      cases hfr.symm.trans hc'.at_index
      cases hc'.valid.symm.trans hfree
  have hboth : ∀ q, (f.modify_frame i fun _ => nf).view q = f.view q ∧
      (f.modify_frame i fun _ => nf).pins q = f.pins q + if q = p then nf.pin_count else 0 := by
    intro q
    rw [view_eq_cell, pins_eq_cell, h.cell_modify_frame hcache hfr, hv, hid, hfree]
    by_cases hq : p = q
    · subst hq
      rw [if_pos ⟨rfl, rfl⟩, view_uncached hno, pins_uncached hno, hdata]
      simp
    · rw [if_neg fun hand => hq hand.2, if_neg (by simp), if_neg (Ne.symm hq), view_eq_cell,
        pins_eq_cell]
      exact ⟨rfl, rfl⟩
  exact ⟨hcache, ⟨fun q => (hboth q).1, rfl⟩, fun q => (hboth q).2⟩

/-- Change the frame of a cached page in place; `touched'` may lose only that page. -/
theorem CacheInv.update (h : CacheInv f touched)
    (g : Frame → Frame) (touched' : List Nat) (hc : Caches f i fr p) (hv : (g fr).valid = true)
    (hid : (g fr).page_id = p)
    (hclean : (g fr).dirty = false → p ∉ touched' → f.wal.data.file[p]? = some (g fr).data)
    (hsub : ∀ q, q ≠ p → (q ∈ touched' ↔ q ∈ touched)) (hheld : p ∈ touched' → (g fr).pin_count ≠ 0) :
    CacheInv (f.modify_frame i g) touched' ∧
      (∀ q, (f.modify_frame i g).view q = if q = p then some (g fr).data else f.view q) ∧
      ∀ q, (f.modify_frame i g).pins q = if q = p then (g fr).pin_count else f.pins q := by
  have hself : Caches (f.modify_frame i g) i (g fr) p :=
    hid ▸ caches_modify_frame_self hc.at_index hv
  have hne : ∀ j fr' q, j ≠ i → Caches f j fr' q → q ≠ p := by
    rintro j fr' q hj hc' rfl
    exact hj (h.unique j i fr' fr q hc' hc)
  have hcache : CacheInv (f.modify_frame i g) touched' := by
    refine h.modify_frame hc.at_index (fun _ => ⟨?_, ?_, ?_⟩) ?_ ?_
    · exact hid.symm ▸ h.counted i fr p hc
    · intro j fr' hc'
      exact h.unique j i fr' fr p (hid ▸ hc') hc
    · intro hd hq
      rw [hid] at hq ⊢
      exact hclean hd hq
    · intro j fr' q hj hc' hq hq'
      exact hq ((hsub q (hne j fr' q hj hc')).mpr hq')
    · intro q hq
      by_cases hqp : q = p
      · exact ⟨i, g fr, hqp ▸ hself, hheld (hqp ▸ hq)⟩
      · obtain ⟨j, fr', hc', hpin⟩ := h.held q ((hsub q hqp).mp hq)
        have hij : i ≠ j := by
          rintro rfl
          cases hc.at_index.symm.trans hc'.at_index
          exact hqp (hc'.page_id.symm.trans hc.page_id)
        exact ⟨j, fr', caches_modify_frame_other hc' hij, hpin⟩
  have hcell : ∀ q, (f.modify_frame i g).cell q = if q = p then some (g fr) else f.cell q := by
    intro q
    rw [h.cell_modify_frame hcache hc.at_index, hv, hid, hc.valid, hc.page_id]
    by_cases hq : p = q
    · simp [hq]
    · simp [hq, Ne.symm hq]
  refine ⟨hcache, fun q => ?_, fun q => ?_⟩
  · rw [view_eq_cell, view_eq_cell, hcell]
    split <;> rfl
  · rw [pins_eq_cell, pins_eq_cell, hcell]
    split <;> rfl

/-! ### One fetch -/

/-- A pool that can write its victims, over a file with counted pages only. -/
structure CanEvict (f : PagedFile) (touched : List Nat) : Prop where
  cache : CacheInv f touched
  file : f.wal.data.file.length = f.wal.data.num_pages
  bound : f.wal.data.num_pages ≤ MAX_PAGES
  mode : f.bp.no_steal = false ∨ f.bp.steal_fn = true

/-- The pool has moved from `f` to `f'`, and the clients see what they saw. -/
structure Calm (f f' : PagedFile) (touched : List Nat) : Prop extends SameView f f' where
  next : CanEvict f' touched
  txn : f'.txn_pages = f.txn_pages
  mode : f'.bp.no_steal = f.bp.no_steal ∧ f'.bp.steal_fn = f.bp.steal_fn
  size : f'.bp.frames.length = f.bp.frames.length
  /-- A new frame has a page or no pins. -/
  free : ∀ fr ∈ f'.bp.frames, fr ∈ f.bp.frames ∨ fr.valid = true ∨ fr.pin_count = 0
  dirty : ∀ j fr q, Caches f' j fr q → fr.dirty = true → ∃ i fr', Caches f i fr' q ∧ fr'.dirty = true
  /-- A pinned frame stays with its page. -/
  stays : ∀ j fr q, Caches f j fr q → fr.pin_count ≠ 0 →
    ∃ fr', Caches f' j fr' q ∧ fr'.pin_count ≠ 0

theorem Calm.trans {f'' : PagedFile} (h : Calm f f' touched) (h' : Calm f' f'' touched) :
    Calm f f'' touched where
  toSameView := h.toSameView.trans h'.toSameView
  next := h'.next
  txn := h'.txn.trans h.txn
  mode := ⟨h'.mode.1.trans h.mode.1, h'.mode.2.trans h.mode.2⟩
  size := h'.size.trans h.size
  free fr hfr := (h'.free fr hfr).elim (h.free fr) .inr
  dirty j fr q hc hd := by
    obtain ⟨i, fr', hc', hd'⟩ := h'.dirty j fr q hc hd
    exact h.dirty i fr' q hc' hd'
  stays j fr q hc hpin := by
    obtain ⟨fr', hc', hpin'⟩ := h.stays j fr q hc hpin
    exact h'.stays j fr' q hc' hpin'

/-- A move that leaves the frames alone. -/
theorem Calm.of_frames (hsame : SameView f f') (hnext : CanEvict f' touched)
    (hframes : f'.bp.frames = f.bp.frames) (htxn : f'.txn_pages = f.txn_pages)
    (hmode : f'.bp.no_steal = f.bp.no_steal ∧ f'.bp.steal_fn = f.bp.steal_fn) :
    Calm f f' touched where
  toSameView := hsame
  next := hnext
  txn := htxn
  mode := hmode
  size := by rw [hframes]
  free fr hfr := .inl (hframes ▸ hfr)
  dirty j fr q hc hd := ⟨j, fr, hc.congr hframes.symm, hd⟩
  stays j fr q hc hpin := ⟨fr, hc.congr hframes, hpin⟩

theorem mem_modify_frame (hfr : f.bp.frames[i]? = some fr)
    (h : fr' ∈ (f.modify_frame i g).bp.frames) : fr' ∈ f.bp.frames ∨ fr' = g fr := by
  obtain ⟨j, hj⟩ := List.mem_iff_getElem?.1 h
  simp only [PagedFile.modify_frame, List.getElem?_modify] at hj
  by_cases hij : i = j
  · subst hij
    simp only [hfr, if_true, map_eq_map, map_some, some.injEq] at hj
    exact .inr hj.symm
  · simp only [hij, if_false, map_eq_map, map_id'] at hj
    exact .inl (List.mem_of_getElem? hj)

/-- The before-image of a page of the file can be read. -/
theorem steal_undo_some {w : Wal} (lsn : Nat) (hlt : p < w.data.file.length) :
    ∃ undo, steal_undo w lsn p = some undo := by
  unfold steal_undo pager_read
  split
  · exact ⟨_, rfl⟩
  split
  · rw [List.getElem?_eq_getElem hlt]
    exact ⟨_, rfl⟩
  · exact ⟨_, rfl⟩

/-- A steal of a page of the file succeeds and writes the page. -/
theorem wal_steal_inside {w : Wal} (hlt : p < w.data.file.length) (hmax : p < MAX_PAGES) (x : Page) :
    (wal_steal w p x).2 = 0 ∧
      (wal_steal w p x).1.data = ⟨write_at Page.zero w.data.file p x, w.data.num_pages⟩ ∧
      (wal_steal w p x).1.base_pages = w.base_pages ∧ (wal_steal w p x).1.stole = true := by
  obtain ⟨undo, hundo⟩ := steal_undo_some (w.next_lsn + (steal_begin w).length) hlt
  simp only [wal_steal, hundo, hmax, if_true, Wal.io, wal_steal_io, true_and]
  rw [Disk.run_append, run_log_recs]
  simp [Disk.apply, hmax, Wal.disk]

/-- What evicting `v` from frame `i` leaves. -/
def PagedFile.evicted (f : PagedFile) (i : Nat) (v : Frame) : PagedFile :=
  (evict f v).1.set_frame i { v with valid := false, dirty := false }

section Moves

variable (h : CanEvict f touched)

include h

/-- A move that changes one frame. -/
theorem CanEvict.modify_frame (hfr : f.bp.frames[i]? = some fr)
    (hcache : CacheInv (f.modify_frame i g) touched) (hsame : SameView f (f.modify_frame i g))
    (hfree : (g fr).valid = true ∨ (g fr).pin_count = 0)
    (hdirty : (g fr).valid = true → (g fr).dirty = true →
      fr.valid = true ∧ fr.dirty = true ∧ fr.page_id = (g fr).page_id)
    (hstays : fr.valid = true → fr.pin_count ≠ 0 →
      (g fr).valid = true ∧ (g fr).page_id = fr.page_id ∧ (g fr).pin_count ≠ 0) :
    Calm f (f.modify_frame i g) touched where
  toSameView := hsame
  next := ⟨hcache, h.file, h.bound, h.mode⟩
  txn := rfl
  mode := ⟨rfl, rfl⟩
  size := by simp [PagedFile.modify_frame]
  free fr' hfr' := by
    rcases mem_modify_frame hfr hfr' with hmem | rfl
    · exact .inl hmem
    · exact .inr hfree
  dirty j fr' q hc hd := by
    rcases caches_modify_frame hc with ⟨-, hc'⟩ | ⟨fr0, rfl, hfr0, rfl⟩
    · exact ⟨j, fr', hc', hd⟩
    · cases hfr.symm.trans hfr0
      obtain ⟨hv, hd', hid⟩ := hdirty hc.valid hd
      exact ⟨i, fr, ⟨hfr, hv, hid.trans hc.page_id⟩, hd'⟩
  stays j fr' q hc hpin := by
    by_cases hij : i = j
    · subst hij
      cases hfr.symm.trans hc.at_index
      obtain ⟨hv, hid, hpin'⟩ := hstays hc.valid hpin
      exact ⟨_, (hid.trans hc.page_id) ▸ caches_modify_frame_self hfr hv, hpin'⟩
    · exact ⟨fr', caches_modify_frame_other hc hij, hpin⟩

/-- Counters and stamps of the pool do not matter. -/
theorem CanEvict.with_pool (bp : BufferPool) (hframes : bp.frames = f.bp.frames)
    (hmode : bp.no_steal = f.bp.no_steal ∧ bp.steal_fn = f.bp.steal_fn) :
    Calm f { f with bp := bp } touched ∧ ∀ q, PagedFile.pins { f with bp := bp } q = f.pins q := by
  have hcache : CacheInv { f with bp := bp } touched := h.cache.congr hframes le_rfl fun _ _ _ _ _ => rfl
  refine ⟨.of_frames ⟨fun q => ?_, rfl⟩ ⟨hcache, h.file, h.bound, ?_⟩ hframes rfl hmode, fun q => ?_⟩
  · simp only [PagedFile.view, find_frame, hframes]
  · rw [hmode.1, hmode.2]
    exact h.mode
  · simp only [PagedFile.pins, find_frame, hframes]

/-- A victim is written, in place or by a steal. -/
theorem CanEvict.evict_wal (hc : Caches f i v p) (hpin : v.pin_count = 0) :
    ∃ w, evict f v = ({ f with wal := w }, 0) ∧
      w.data.num_pages = f.wal.data.num_pages ∧
      w.data.file.length = f.wal.data.file.length ∧
      (∀ q, q ≠ p → w.data.file[q]? = f.wal.data.file[q]?) ∧ w.data.file[p]? = some v.data := by
  have hp := h.cache.counted i v p hc
  have hlt : p < f.wal.data.file.length := h.file.symm ▸ hp
  cases hd : v.dirty with
  | false =>
    refine ⟨f.wal, by simp [evict, hd], rfl, rfl, fun _ _ => rfl, ?_⟩
    exact h.cache.clean i v p hc hd (h.cache.not_touched hc hpin)
  | true =>
    have hmax : p < MAX_PAGES := hp.trans_le h.bound
    have hid := hc.page_id
    subst hid
    have hwritten : ∀ w : Wal, w.data = ⟨write_at Page.zero f.wal.data.file v.page_id v.data,
          f.wal.data.num_pages⟩ →
        w.data.num_pages = f.wal.data.num_pages ∧
        w.data.file.length = f.wal.data.file.length ∧
        (∀ q, q ≠ v.page_id → w.data.file[q]? = f.wal.data.file[q]?) ∧
        w.data.file[v.page_id]? = some v.data := by
      intro w hw
      rw [hw]
      refine ⟨rfl, ?_, fun q hq => ?_, ?_⟩
      · dsimp only
        rw [length_write_at]
        omega
      · exact (getElem?_write_at_inside hlt.le _).trans (if_neg (Ne.symm hq))
      · exact (getElem?_write_at_inside hlt.le _).trans (if_pos rfl)
    by_cases hsteal : (f.bp.no_steal && f.bp.steal_fn) = true
    · obtain ⟨hrc, hdata, -⟩ := wal_steal_inside hlt hmax v.data
      refine ⟨(wal_steal f.wal v.page_id v.data).1, ?_, hwritten _ hdata⟩
      simp [evict, hd, hsteal, hrc]
    · refine ⟨{ f.wal with data := { f.wal.data with
        file := write_at Page.zero f.wal.data.file v.page_id v.data } }, ?_, hwritten _ rfl⟩
      simp [evict, hd, hsteal, pager_write, hmax]

/-- An eviction: the victim is written, and its frame given up. -/
theorem CanEvict.evicted (hc : Caches f i v p) (hpin : v.pin_count = 0) :
    (evict f v).2 = 0 ∧ Calm f (f.evicted i v) touched ∧
      (∀ q, (f.evicted i v).pins q = f.pins q) ∧
      (∀ j fr q, Caches (f.evicted i v) j fr q → Caches f j fr q) ∧
      (∃ fr, (f.evicted i v).bp.frames[i]? = some fr ∧ fr.valid = false) ∧
      (f.evicted i v).wal = (evict f v).1.wal := by
  obtain ⟨w, hev, hnum, hlen, hother, hself⟩ := h.evict_wal hc hpin
  have heq : f.evicted i v = ({ f with wal := w } : PagedFile).modify_frame i
      fun _ => { v with valid := false, dirty := false } := by
    rw [PagedFile.evicted, hev, set_frame_eq]
  have hcache : CacheInv { f with wal := w } touched := by
    refine h.cache.congr rfl hnum.ge fun j fr q hc' hd => ?_
    by_cases hq : q = p
    · subst hq
      obtain rfl := h.cache.frame_eq hc hc'
      exact hself.trans (h.cache.clean i v q hc hd (h.cache.not_touched hc hpin)).symm
    · exact hother q hq
  have hsame : SameView f { f with wal := w } := by
    refine ⟨fun q => (view_eq_cell _ q).trans ?_, hnum⟩
    rw [view_eq_cell f q]
    change ((f.cell q).map Frame.data).or w.data.file[q]? = _
    cases hcell : f.cell q with
    | some fr => rfl
    | none =>
      refine hother q ?_
      rintro rfl
      cases hcell.symm.trans (h.cache.cell_iff.2 ⟨i, hc⟩)
  have hnext : CanEvict { f with wal := w } touched :=
    ⟨hcache, hlen.trans (h.file.trans hnum.symm), hnum.le.trans h.bound, h.mode⟩
  have hget : ({ f with wal := w } : PagedFile).bp.frames[i]? = some v := hc.at_index
  obtain ⟨hdrop, hsame', hpins⟩ := hcache.drop (g := fun _ => { v with valid := false, dirty := false })
    hget rfl fun _ => ⟨hpin, hc.page_id ▸ hself⟩
  have hmove := hnext.modify_frame hget hdrop hsame' (.inr hpin) (fun hv => by cases hv)
    fun _ hne => absurd hpin hne
  rw [hev, heq]
  refine ⟨rfl, (Calm.of_frames hsame hnext rfl rfl ⟨rfl, rfl⟩).trans hmove, hpins,
    fun j fr q hc' => ?_, ⟨_, (List.getElem?_modify_eq ..).trans (by rw [hget]; rfl), rfl⟩, rfl⟩
  rcases caches_modify_frame hc' with ⟨-, hc''⟩ | ⟨fr0, rfl, -, rfl⟩
  · exact hc''.congr rfl
  · cases hc'.valid

/-- A frame to load into; there is none only when all are pinned. -/
theorem CanEvict.pick_frame :
    Calm f (pick_frame f).1 touched ∧ (∀ q, (pick_frame f).1.pins q = f.pins q) ∧
      (∀ j fr q, Caches (pick_frame f).1 j fr q → Caches f j fr q) ∧
      (∀ i, (pick_frame f).2 = some i →
        ∃ fr, (pick_frame f).1.bp.frames[i]? = some fr ∧ fr.valid = false) ∧
      ((pick_frame f).2 = none → ∀ fr ∈ f.bp.frames, fr.pin_count ≠ 0) ∧
      ((pick_frame f).1.wal = f.wal ∨
        ∃ i v p, Caches f i v p ∧ (pick_frame f).1.wal = (evict f v).1.wal) := by
  have hrefl : Calm f f touched := .of_frames ⟨fun _ => rfl, rfl⟩ h rfl rfl ⟨rfl, rfl⟩
  rcases pick_frame_cases f with ⟨i, fr, hfr, hv, heq⟩ | ⟨hvic, heq⟩ | ⟨i, v, hget, hv, hpin, hrest⟩
  · rw [heq]
    refine ⟨hrefl, fun _ => rfl, fun _ _ _ hc => hc, fun j hj => ?_, by simp, .inl rfl⟩
    cases hj
    exact ⟨fr, hfr, hv⟩
  · rw [heq]
    have hnone : victim_loop true f.bp.frames 0 none = none := by
      rcases h.mode with hm | hm <;> simpa [hm] using hvic
    exact ⟨hrefl, fun _ => rfl, fun _ _ _ hc => hc, by simp, fun _ => victim_loop_none hnone, .inl rfl⟩
  · have hc : Caches f i v v.page_id := ⟨hget, hv, rfl⟩
    obtain ⟨hrc, hcalm, hpins, hback, hfr, hwal⟩ := h.evicted hc hpin
    rcases hrest with ⟨hne, -⟩ | ⟨-, heq⟩
    · exact absurd hrc hne
    · rw [heq]
      refine ⟨hcalm, hpins, hback, fun j hj => ?_, by simp, .inr ⟨i, v, _, hc, hwal⟩⟩
      cases hj
      exact hfr

omit h in
/-- What a fetch of page `p` does. -/
structure FetchSpec (f : PagedFile) (touched : List Nat) (p : Nat) (r : PagedFile × Option Nat) :
    Prop extends Calm f r.1 touched where
  pins : ∀ q, r.1.pins q = f.pins q + if q = p ∧ r.2.isSome then 1 else 0
  shows : ∀ i, r.2 = some i → ∃ fr, Caches r.1 i fr p
  fails : p < f.wal.data.num_pages → r.2 = none → ∀ fr ∈ f.bp.frames, fr.pin_count ≠ 0
  wal : r.1.wal = f.wal ∨ ∃ i v p, Caches f i v p ∧ r.1.wal = (evict f v).1.wal

/-- A hit is one more pin. -/
theorem CanEvict.hit (hfind : find_frame f.bp p = some i) : FetchSpec f touched p (bufpool_fetch f p) := by
  obtain ⟨fr, hc⟩ := find_frame_caches hfind
  obtain ⟨hcache, hview, hpins⟩ := h.cache.update (Frame.pin (f.bp.clock + 1)) touched hc hc.valid
    hc.page_id (h.cache.clean i fr p hc) (fun _ _ => Iff.rfl) fun _ => Nat.succ_ne_zero _
  have hpin : Calm f (f.modify_frame i (Frame.pin (f.bp.clock + 1))) touched := by
    refine h.modify_frame hc.at_index hcache ⟨fun q => ?_, rfl⟩ (.inl hc.valid)
      (fun _ hd => ⟨hc.valid, hd, rfl⟩) fun _ _ => ⟨hc.valid, rfl, Nat.succ_ne_zero _⟩
    rw [hview q]
    split
    · next hq => rw [hq, h.cache.view_cached hc]; rfl
    · rfl
  obtain ⟨hcalm, hpins'⟩ := hpin.next.with_pool
    { (f.modify_frame i (Frame.pin (f.bp.clock + 1))).bp with
      hits := f.bp.hits + 1, clock := f.bp.clock + 1 } rfl ⟨rfl, rfl⟩
  have hself : Caches (f.modify_frame i (Frame.pin (f.bp.clock + 1))) i
      (Frame.pin (f.bp.clock + 1) fr) fr.page_id := caches_modify_frame_self hc.at_index hc.valid
  simp only [bufpool_fetch, hfind]
  refine { toCalm := hpin.trans hcalm, pins := fun q => ?_, shows := fun j hj => ?_,
           fails := by simp, wal := .inl rfl }
  · rw [hpins', hpins]
    by_cases hq : q = p
    · simp [hq, h.cache.pins_of_caches hc, Frame.pin]
    · simp [hq]
  · cases hj
    exact ⟨_, (hc.page_id ▸ hself).congr rfl⟩

/-- A miss reads the page into a frame nobody pins. -/
theorem CanEvict.miss (hfind : find_frame f.bp p = none) : FetchSpec f touched p (bufpool_fetch f p) := by
  obtain ⟨hcalm₀, hpins₀⟩ := h.with_pool { f.bp with misses := f.bp.misses + 1 } rfl ⟨rfl, rfl⟩
  obtain ⟨hcalm₁, hpins₁, hback, hfree, hfail, hwal⟩ := hcalm₀.next.pick_frame
  simp only [bufpool_fetch, hfind]
  set r := MiniDb.pick_frame { f with bp := { f.bp with misses := f.bp.misses + 1 } }
  have hcalm := hcalm₀.trans hcalm₁
  have hpins : ∀ q, r.1.pins q = f.pins q := fun q => (hpins₁ q).trans (hpins₀ q)
  have hwal' : r.1.wal = f.wal ∨ ∃ i v p, Caches f i v p ∧ r.1.wal = (evict f v).1.wal := by
    refine hwal.imp_right ?_
    rintro ⟨i, v, q, hc, hw⟩
    refine ⟨i, v, q, hc.congr rfl, hw.trans ?_⟩
    unfold evict
    repeat' split
    all_goals rfl
  cases hr : r.2 with
  | none =>
    exact { toCalm := hcalm, pins := by simp [hpins], shows := by simp, fails := fun _ _ => hfail hr,
            wal := hwal' }
  | some i =>
    obtain ⟨fr, hfr, hv⟩ := hfree i hr
    dsimp only
    cases hread : pager_read r.1.wal.data p with
    | none =>
      -- there is no such page: the frame is given back
      obtain ⟨hcache, hsame, hpins'⟩ := hcalm.next.cache.drop
        (g := fun fr => { fr.clear with page_id := p }) hfr rfl fun hv' => by cases hv.symm.trans hv'
      have hdrop := hcalm.next.modify_frame hfr hcache hsame (.inr rfl) (fun hv' => by cases hv')
        fun hv' => by cases hv.symm.trans hv'
      refine { toCalm := hcalm.trans hdrop, pins := by simp [hpins', hpins], shows := by simp,
               fails := fun hp => ?_, wal := hwal' }
      have hlt : p < r.1.wal.data.file.length := by
        rw [hcalm.next.file, hcalm.count]
        exact hp
      rw [pager_read, List.getElem?_eq_getElem hlt] at hread
      cases hread
    | some data =>
      dsimp only
      rw [set_frame_eq]
      have hp : p < r.1.wal.data.num_pages := by
        rw [← hcalm.next.file]
        exact (List.getElem?_eq_some_iff.1 hread).1
      have hno : ∀ j fr, ¬ Caches r.1 j fr p := fun j fr hc =>
        not_caches_of_find_frame hfind ((hback j fr p hc).congr rfl)
      obtain ⟨hcache, hsame, hpins'⟩ := hcalm.next.cache.load hfr hv hno hp
        (show (Frame.loaded p (r.1.bp.clock + 1) data).valid = true from rfl) rfl hread
      have hload := hcalm.next.modify_frame hfr hcache hsame (.inl rfl) (fun _ hd => by cases hd)
        fun hv' => by cases hv.symm.trans hv'
      obtain ⟨hcalm₂, hpins₂⟩ := hload.next.with_pool { (r.1.modify_frame i fun _ =>
        Frame.loaded p (r.1.bp.clock + 1) data).bp with clock := r.1.bp.clock + 1 } rfl ⟨rfl, rfl⟩
      have hself : Caches (r.1.modify_frame i fun _ => Frame.loaded p (r.1.bp.clock + 1) data) i _ _ :=
        caches_modify_frame_self hfr rfl
      refine { toCalm := hcalm.trans (hload.trans hcalm₂), pins := fun q => ?_,
               shows := fun j hj => ?_, fails := by simp, wal := hwal' }
      · rw [hpins₂, hpins', hpins]
        simp [Frame.loaded]
      · cases hj
        exact ⟨_, hself.congr rfl⟩

theorem CanEvict.fetch (p : Nat) : FetchSpec f touched p (bufpool_fetch f p) := by
  cases hfind : find_frame f.bp p with
  | some i => exact h.hit hfind
  | none => exact h.miss hfind

/-- A page more in the file: it is zero, and in no frame. -/
theorem CanEvict.allocate (hlt : f.wal.data.num_pages < MAX_PAGES) :
    ∃ g : PagedFile, pager_allocate f.wal.data = (g.wal.data, some f.wal.data.num_pages) ∧
      g = { f with wal := { f.wal with data := g.wal.data } } ∧ CanEvict g touched ∧
      g.wal.data.num_pages = f.wal.data.num_pages + 1 ∧
      ∀ q, g.view q = if q = f.wal.data.num_pages then some Page.zero else f.view q := by
  set np := f.wal.data.num_pages with hnp
  have hfile : f.wal.data.file.length = np := h.file
  set data : Pager := ⟨write_at Page.zero f.wal.data.file np Page.zero, np + 1⟩ with hdata
  have hget : ∀ q, data.file[q]? = if np = q then some Page.zero else f.wal.data.file[q]? :=
    getElem?_write_at_inside hfile.ge
  have hcache : CacheInv { f with wal := { f.wal with data := data } } touched := by
    refine h.cache.congr rfl (Nat.le_succ np) fun i fr q hc _ => (hget q).trans (if_neg ?_)
    exact (h.cache.counted i fr q hc).ne'
  refine ⟨{ f with wal := { f.wal with data := data } }, ?_, rfl, ⟨hcache, ?_, hlt, h.mode⟩, rfl,
    fun q => (view_eq_cell _ q).trans ?_⟩
  · rw [pager_allocate_eq, if_pos hlt]
  · rw [hdata]
    dsimp only
    rw [length_write_at]
    omega
  · rw [view_eq_cell f q]
    change ((f.cell q).map Frame.data).or data.file[q]? = _
    rw [hget q]
    cases hcell : f.cell q with
    | none => simp [eq_comm]
    | some fr =>
      obtain ⟨i, hc⟩ := caches_of_cell hcell
      rw [if_neg (h.cache.counted i fr q hc).ne]
      rfl

end Moves

/-! ### The state of a file -/

structure FileState where
  file : PagedFile
  /-- A transaction writes the file: `writer_txn` of its table is set. -/
  active : Bool
  /-- The counted pages after the last commit. -/
  committed : List Page
  /-- Pages stored to and not yet unpinned. -/
  touched : List Nat

/-- The file as a user of its log. -/
def FileState.session (s : FileState) : Session := ⟨s.file.wal, s.active, s.committed⟩

/-- The file has no pages but the counted ones, and behind the committed pages
    only what the open transaction has added: zeros until it steals. -/
structure Whole (s : Session) (hist : List Rec) : Prop where
  below : RedoBelow s hist
  counted : s.wal.data.file.length = s.wal.data.num_pages
  idle : s.in_txn = false → s.wal.data.num_pages = s.committed.length
  base : s.in_txn = true → s.wal.base_pages = s.committed.length
  tail : s.wal.stole = false → ∀ p x, s.committed.length ≤ p → s.wal.data.file[p]? = some x →
    x = Page.zero

structure FileInv (s : FileState) (hist cur : List Rec) : Prop where
  sess : SessionInv s.session hist cur
  pool : PoolInv s.file s.touched
  mode : s.file.bp.no_steal = s.active ∧ s.file.bp.steal_fn = s.active
  /-- Outside a transaction nothing is dirty. -/
  idle_clean : s.active = false → ∀ i fr p, Caches s.file i fr p →
    ¬ (fr.dirty = true ∨ p ∈ s.touched)
  base : s.active = true → s.file.txn_pages = s.file.wal.base_pages
  whole : Whole s.session hist

variable {s s' : FileState} {hist cur : List Rec}

variable (h : FileInv s hist cur)

include h

theorem FileInv.file_lt (hp : p < s.file.wal.data.num_pages) :
    p < s.file.wal.data.file.length := lt_of_lt_of_le hp h.sess.pages

theorem FileInv.max_lt (hp : p < s.file.wal.data.num_pages) :
    p < MAX_PAGES := lt_of_lt_of_le (h.file_lt hp) h.sess.disk.bound

theorem FileInv.modify_frame (hcache : CacheInv (s.file.modify_frame i g) touched')
    (hidle : s.active = false → ∀ j fr q, Caches (s.file.modify_frame i g) j fr q →
      ¬ (fr.dirty = true ∨ q ∈ touched')) :
    FileInv { s with file := s.file.modify_frame i g, touched := touched' } hist cur :=
  ⟨h.sess, ⟨hcache, by simpa [PagedFile.modify_frame] using h.pool.size⟩, h.mode, hidle, h.base,
    h.whole⟩

theorem FileInv.writable : CanEvict s.file s.touched where
  cache := h.pool.toCacheInv
  file := h.whole.counted
  bound := le_trans h.sess.pages h.sess.disk.bound
  mode := by
    rw [h.mode.1, h.mode.2]
    cases s.active <;> simp

/-- The log after the write of a victim: outside a transaction there is no dirty one. -/
theorem FileInv.evict_wal (hc : Caches s.file i v p) :
    (evict s.file v).1.wal.base_pages = s.file.wal.base_pages ∧
      ∃ cur', SessionInv { s.session with wal := (evict s.file v).1.wal } hist cur' ∧
        Whole { s.session with wal := (evict s.file v).1.wal } hist := by
  cases hdirty : v.dirty with
  | false =>
    rw [show evict s.file v = (s.file, 0) by simp [evict, hdirty]]
    exact ⟨rfl, cur, h.sess, h.whole⟩
  | true =>
    have hact : s.active = true := by
      by_contra hidle
      exact h.idle_clean (by simpa using hidle) i v p hc (.inl hdirty)
    have hp := h.pool.counted i v p hc
    have hid := hc.page_id
    subst hid
    obtain ⟨hrc, hdata, hbase, hstole⟩ := wal_steal_inside (h.file_lt hp) (h.max_lt hp) v.data
    have hstep : s.session.step (.steal v.page_id v.data) =
        some { s.session with wal := (wal_steal s.file.wal v.page_id v.data).1 } := by
      simp [Session.step, FileState.session, hact, hp, Session.take, hrc]
    obtain ⟨⟨cur', hinv⟩, -, -⟩ := h.sess.steal hstep
    rw [show (evict s.file v).1.wal = (wal_steal s.file.wal v.page_id v.data).1 by
      simp [evict, hdirty, h.mode, hact]]
    refine ⟨hbase, cur', hinv, h.whole.below, ?_, ?_, ?_, ?_⟩
    · have hlen : s.file.wal.data.file.length = s.file.wal.data.num_pages := h.whole.counted
      simp only [hdata, length_write_at]
      omega
    · intro hidle
      cases hact.symm.trans hidle
    · intro hin
      exact hbase.trans (h.whole.base hin)
    · intro hst
      cases hstole.symm.trans hst

/-- A fetch changes no client's view. -/
theorem FileInv.fetch (p : Nat) :
    (∃ cur', FileInv { s with file := (bufpool_fetch s.file p).1 } hist cur') ∧
      SameView s.file (bufpool_fetch s.file p).1 := by
  have hf := h.writable.fetch p
  have hwal : (bufpool_fetch s.file p).1.wal.base_pages = s.file.wal.base_pages ∧
      ∃ cur', SessionInv { s.session with wal := (bufpool_fetch s.file p).1.wal } hist cur' ∧
        Whole { s.session with wal := (bufpool_fetch s.file p).1.wal } hist := by
    rcases hf.wal with hw | ⟨i, v, q, hc, hw⟩
    · rw [hw]
      exact ⟨rfl, cur, h.sess, h.whole⟩
    · rw [hw]
      exact h.evict_wal hc
  obtain ⟨hbase, cur', hsess, hwhole⟩ := hwal
  refine ⟨⟨cur', hsess, ⟨hf.next.cache, hf.size ▸ h.pool.size⟩,
    ⟨hf.mode.1.trans h.mode.1, hf.mode.2.trans h.mode.2⟩, fun hact j fr q hc hd => ?_, fun hact => ?_,
    hwhole⟩, hf.toSameView⟩
  · rcases hd with hd | hd
    · obtain ⟨i, fr', hc', hd'⟩ := hf.dirty j fr q hc hd
      exact h.idle_clean hact i fr' q hc' (.inl hd')
    · obtain ⟨i, fr', hc', -⟩ := h.pool.held q hd
      exact h.idle_clean hact i fr' q hc' (.inr hd)
  · exact hf.txn.trans ((h.base hact).trans hbase.symm)

end MiniDb
