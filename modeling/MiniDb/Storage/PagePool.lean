import MiniDb.Storage.FileCommit

/-! # The buffer pool as a page store

  The pool is a cache over its file: outside a transaction a dirty victim is
  written in place, and in one by a steal, after its before-image.  Clients hold
  pins, change a page only through a pin, and say so when they unpin it.
  `PoolState` keeps, beside the pool, the pages as the clients have written them;
  `PoolRefines` is the simulation between the two, for every pool size and every
  access pattern. -/

namespace MiniDb

open Framework List Option

/-! ### One fetch -/

/-- Only frames with a page are pinned. -/
structure PlainPool (f : PagedFile) (touched : List Nat) : Prop extends CanEvict f touched where
  free : ∀ fr ∈ f.bp.frames, fr.valid = false → fr.pin_count = 0

variable {f : PagedFile} {touched touched' : List Nat} {i p : Nat} {g : Frame → Frame}

/-- A change of one frame that keeps the cache in order. -/
theorem PlainPool.modify_frame (h : PlainPool f touched) {fr : Frame}
    (hfr : f.bp.frames[i]? = some fr)
    (hcache : CacheInv (f.modify_frame i g) touched')
    (hfree : (g fr).valid = false → (g fr).pin_count = 0) :
    PlainPool (f.modify_frame i g) touched' := by
  refine ⟨⟨hcache, h.file, h.bound, h.mode⟩, fun fr' hfr' hv => ?_⟩
  rcases mem_modify_frame hfr hfr' with hfr' | rfl
  · exact h.free fr' hfr' hv
  · exact hfree hv

/-- What the loads and evictions of a fetch leave as they were. -/
structure Steady (f f' : PagedFile) : Prop extends SameView f f' where
  pins : ∀ q, f'.pins q = f.pins q
  /-- A pinned frame stays with its page. -/
  stays : ∀ j fr q, Caches f j fr q → fr.pin_count ≠ 0 → ∃ fr', Caches f' j fr' q

/-- What a fetch of page `p` does. -/
structure Fetched (f : PagedFile) (touched : List Nat) (p : Nat) (r : PagedFile × Option Nat) :
    Prop where
  plain : PlainPool r.1 touched
  same : SameView f r.1
  pins : ∀ q, r.1.pins q = f.pins q + if q = p ∧ r.2.isSome then 1 else 0
  stays : ∀ j fr q, Caches f j fr q → fr.pin_count ≠ 0 → ∃ fr', Caches r.1 j fr' q
  shows : ∀ i, r.2 = some i → ∃ fr, Caches r.1 i fr p
  fails : p < f.wal.data.num_pages → r.2 = none → ∀ fr ∈ f.bp.frames, fr.pin_count ≠ 0

theorem PlainPool.fetch (h : PlainPool f touched) (p : Nat) :
    Fetched f touched p (bufpool_fetch f p) := by
  have hf := h.toCanEvict.fetch p
  refine ⟨⟨hf.next, fun fr hfr hv => ?_⟩, hf.toSameView, hf.pins, fun j fr q hc hpin => ?_, hf.shows, hf.fails⟩
  · rcases hf.free fr hfr with hold | hvalid | hpin
    · exact h.free fr hold hv
    · cases hv.symm.trans hvalid
    · exact hpin
  · obtain ⟨fr', hc', -⟩ := hf.stays j fr q hc hpin
    exact ⟨fr', hc'⟩

/-- A page more in the file: it is zero, and in no frame. -/
theorem PlainPool.allocate (h : PlainPool f touched) (hlt : f.wal.data.num_pages < MAX_PAGES) :
    ∃ g : PagedFile, pager_allocate f.wal.data = (g.wal.data, some f.wal.data.num_pages) ∧
      g = { f with wal := { f.wal with data := g.wal.data } } ∧ PlainPool g touched ∧
      g.wal.data.num_pages = f.wal.data.num_pages + 1 ∧
      ∀ q, g.view q = if q = f.wal.data.num_pages then some Page.zero else f.view q := by
  obtain ⟨g, halloc, hg, hnext, hnum, hview⟩ := h.toCanEvict.allocate hlt
  refine ⟨g, halloc, hg, ⟨hnext, ?_⟩, hnum, hview⟩
  rw [hg]
  exact h.free

/-- The loop writes the dirty frames and leaves them clean. -/
theorem flush_all_loop_eq (data : Pager) (frames : List Frame)
    (h : ∀ u ∈ dirty_pages frames, u.1 < MAX_PAGES) :
    flush_all_loop data frames =
      (⟨write_all Page.zero data.file (dirty_pages frames), data.num_pages⟩,
        frames.map Frame.flushed, 0) := by
  induction frames generalizing data with
  | nil => rfl
  | cons fr frames ih =>
    by_cases hp : fr.pending = true
    · rw [dirty_pages_pos hp] at h ⊢
      have hmax : fr.page_id < MAX_PAGES := h _ mem_cons_self
      simp only [flush_all_loop, hp, if_true, pager_write, if_pos hmax, ne_eq, not_true_eq_false,
        if_false, ih _ fun u hu => h u (mem_cons_of_mem _ hu), map_cons, Frame.flushed]
      rfl
    · rw [dirty_pages_neg hp] at h ⊢
      simp only [flush_all_loop, hp, if_false, ih data h, map_cons, Frame.flushed,
        Bool.false_eq_true]

/-- A flush leaves the views and the pins. -/
theorem PlainPool.flush_all (h : PlainPool f touched) :
    (bufpool_flush_all f).2 = 0 ∧
      (bufpool_flush_all f).1.wal.data.file =
        write_all Page.zero f.wal.data.file (dirty_pages f.bp.frames) ∧
      PlainPool (bufpool_flush_all f).1 touched ∧ Steady f (bufpool_flush_all f).1 := by
  have hmax : ∀ u ∈ dirty_pages f.bp.frames, u.1 < MAX_PAGES :=
    fun u hu => (h.cache.dirty_lt u hu).trans_le h.bound
  have hin : ∀ u ∈ dirty_pages f.bp.frames, u.1 < f.wal.data.file.length :=
    fun u hu => h.file.symm ▸ h.cache.dirty_lt u hu
  have heq := flush_all_loop_eq f.wal.data f.bp.frames hmax
  have hframes : (bufpool_flush_all f).1.bp.frames = f.bp.frames.map Frame.flushed := by
    simp only [bufpool_flush_all, heq]
  have hdata : (bufpool_flush_all f).1.wal.data =
      ⟨write_all Page.zero f.wal.data.file (dirty_pages f.bp.frames), f.wal.data.num_pages⟩ := by
    simp only [bufpool_flush_all, heq]
  obtain ⟨hcache, -, hsame⟩ := h.cache.flushed h.file.ge hframes hdata
  have hto : ∀ j fr q, Caches f j fr q → Caches (bufpool_flush_all f).1 j fr.flushed q := by
    intro j fr q hc
    obtain ⟨hv, hid, -⟩ := fr.flushed_keeps
    exact ⟨by rw [hframes, getElem?_map, hc.at_index]; rfl, hv.trans hc.valid,
      hid.trans hc.page_id⟩
  refine ⟨by simp only [bufpool_flush_all, heq], by rw [hdata],
    ⟨⟨hcache, ?_, ?_, h.mode⟩, fun fr hfr hv => ?_⟩, hsame, fun q => ?_,
    fun j fr q hc _ => ⟨_, hto j fr q hc⟩⟩
  · rw [hdata, length_write_all_of_lt _ hin]
    exact h.file
  · rw [hdata]
    exact h.bound
  · rw [hframes] at hfr
    obtain ⟨fr0, hfr0, rfl⟩ := mem_map.1 hfr
    obtain ⟨hvalid, -, -, hpin⟩ := fr0.flushed_keeps
    rw [hpin]
    exact h.free fr0 hfr0 (hvalid ▸ hv)
  · cases hcell : f.cell q with
    | some fr =>
      obtain ⟨j, hc⟩ := caches_of_cell hcell
      rw [hcache.pins_of_caches (hto j fr q hc), h.cache.pins_of_caches hc]
      exact fr.flushed_keeps.2.2.2
    | none =>
      rw [pins_eq_cell f, hcell]
      refine pins_uncached fun j fr hc => ?_
      obtain ⟨-, fr0, hc0, -⟩ := caches_flushed hframes hc
      cases hcell.symm.trans (h.cache.cell_iff.2 ⟨j, hc0⟩)

/-! ### Clients of the pool -/

/-- A pin that a client holds, and whether the client has changed the page through it. -/
structure Pin where
  page_id : Nat
  changed : Bool
  deriving DecidableEq

structure PoolState where
  file : PagedFile
  /-- The pages as the clients have written them. -/
  store : List Page
  pins : List Pin

inductive PoolAct where
  | fetch (page_id : Nat)
  | new_page
  /-- Store through the pointer that comes with a pin. -/
  | write (pin : Pin) (buf : Page)
  | unpin (pin : Pin) (is_dirty : Bool)
  | flush_all

/-- A page is changed through a pin only, and a pin through which a page was
    changed is given back with `is_dirty`.  An allocation that fails is an I/O
    failure, which is left out. -/
def PoolState.step (s : PoolState) : PoolAct → Option PoolState
  | .fetch page_id =>
      let r := bufpool_fetch s.file page_id
      some { s with
        file := r.1
        pins := if r.2.isSome then ⟨page_id, false⟩ :: s.pins else s.pins }
  | .new_page =>
      if s.file.wal.data.num_pages < MAX_PAGES then
        let r := bufpool_new_page s.file
        some
          { file := r.1
            store := s.store ++ [Page.zero]
            pins := if r.2.isSome then ⟨s.store.length, false⟩ :: s.pins else s.pins }
      else none
  | .write pin buf =>
      if pin ∈ s.pins then
        some
          { file := MiniDb.store s.file pin.page_id buf
            store := s.store.set pin.page_id buf
            pins := ⟨pin.page_id, true⟩ :: s.pins.erase pin }
      else none
  | .unpin pin is_dirty =>
      if pin ∈ s.pins ∧ (pin.changed = true → is_dirty = true) then
        some { s with
          file := bufpool_unpin s.file pin.page_id is_dirty
          pins := s.pins.erase pin }
      else none
  | .flush_all => some { s with file := (bufpool_flush_all s.file).1 }

/-- A new pool over a file. -/
def PoolState.opened (w : Wal) (file : List Page) (num_frames : Nat) : PoolState :=
  { file :=
      { wal := { w with data := pager_open file }
        bp := bufpool_create num_frames
        txn_pages := 0 }
    store := file
    pins := [] }

/-- The pages somebody has changed and not yet unpinned. -/
def changed_pages (pins : List Pin) : List Nat := (pins.filter Pin.changed).map Pin.page_id

/-- The pool shows the pages of the store, and knows the pins of its clients. -/
structure PoolRefines (s : PoolState) : Prop where
  plain : PlainPool s.file (changed_pages s.pins)
  count : s.file.wal.data.num_pages = s.store.length
  view : ∀ p, s.file.view p = s.store[p]?
  pins : ∀ p, s.file.pins p = (s.pins.map Pin.page_id).count p

namespace PoolRefines

variable {s s' : PoolState}

theorem opened {w : Wal} {file : List Page} {num_frames : Nat} (hmax : file.length ≤ MAX_PAGES) :
    PoolRefines (PoolState.opened w file num_frames) := by
  have hframe : ∀ fr ∈ (PoolState.opened w file num_frames).file.bp.frames, fr = Frame.empty :=
    fun fr hfr => eq_of_mem_replicate hfr
  have hno : ∀ i fr p, ¬ Caches (PoolState.opened w file num_frames).file i fr p := by
    intro i fr p hc
    have hv := hc.valid
    rw [hframe fr (mem_of_getElem? hc.at_index)] at hv
    cases hv
  refine ⟨⟨⟨.of_empty hno, rfl, hmax, .inl rfl⟩, fun fr hfr _ => ?_⟩, rfl, fun p => ?_, fun p => ?_⟩
  · rw [hframe fr hfr]
    rfl
  · exact view_uncached fun i fr => hno i fr p
  · exact pins_uncached fun i fr => hno i fr p

variable (h : PoolRefines s)

include h

variable {pin : Pin} {a : PoolAct} {fr : Frame}

/-- The page of a pin is in a pinned frame. -/
theorem cached (hpin : pin ∈ s.pins) :
    ∃ i fr, find_frame s.file.bp pin.page_id = some i ∧ Caches s.file i fr pin.page_id ∧
      fr.pin_count = (s.pins.map Pin.page_id).count pin.page_id ∧ fr.pin_count ≠ 0 := by
  have hcount : 0 < (s.pins.map Pin.page_id).count pin.page_id :=
    count_pos_iff.2 (mem_map_of_mem hpin)
  have hpins := h.pins pin.page_id
  cases hfind : find_frame s.file.bp pin.page_id with
  | none =>
    rw [pins_uncached fun i fr hc => not_caches_of_find_frame hfind hc] at hpins
    omega
  | some i =>
    obtain ⟨fr, hc⟩ := find_frame_caches hfind
    rw [h.plain.cache.pins_of_caches hc] at hpins
    exact ⟨i, fr, rfl, hc, hpins, by omega⟩

omit h in
/-- The pins without one of them. -/
theorem pins_split {pins : List Pin} (hpin : pin ∈ pins) :
    (∀ q, (pins.map Pin.page_id).count q =
      ((pins.erase pin).map Pin.page_id).count q + if q = pin.page_id then 1 else 0) ∧
    ∀ q, q ∈ changed_pages pins ↔
      (pin.changed = true ∧ q = pin.page_id) ∨ q ∈ changed_pages (pins.erase pin) := by
  have hperm := perm_cons_erase hpin
  refine ⟨fun q => ?_, fun q => ?_⟩
  · rw [(hperm.map Pin.page_id).count_eq, map_cons, count_cons]
    by_cases hq : q = pin.page_id
    · simp [hq]
    · simp [hq, Ne.symm hq]
  · rw [changed_pages, ((hperm.filter Pin.changed).map Pin.page_id).mem_iff]
    cases hch : pin.changed with
    | true => simp [changed_pages, hch]
    | false => simp [changed_pages, hch]

theorem fetch {p : Nat} (hs : s.step (.fetch p) = some s') : PoolRefines s' := by
  cases hs
  have hf := h.plain.fetch p
  have hchanged : changed_pages
      (if (bufpool_fetch s.file p).2.isSome then ⟨p, false⟩ :: s.pins else s.pins) =
      changed_pages s.pins := by
    split <;> rfl
  refine ⟨?_, hf.same.count.trans h.count, fun q => (hf.same.view q).trans (h.view q), fun q => ?_⟩
  · rw [hchanged]
    exact hf.plain
  · rw [hf.pins q, h.pins q]
    dsimp only
    by_cases hsome : (bufpool_fetch s.file p).2.isSome = true
    · rw [if_pos hsome, map_cons, count_cons]
      by_cases hq : q = p
      · simp [hq, hsome]
      · simp [hq, Ne.symm hq]
    · rw [if_neg hsome, if_neg fun hand => hsome hand.2]
      rfl

theorem new_page (hs : s.step .new_page = some s') : PoolRefines s' := by
  obtain ⟨hlt, hs⟩ := ite_none_right_eq_some.mp hs
  cases hs
  obtain ⟨g, halloc, hg, hplain, hnum, hview⟩ := h.plain.allocate hlt
  have hf := hplain.fetch s.file.wal.data.num_pages
  have heq : bufpool_new_page s.file = ((bufpool_fetch g s.file.wal.data.num_pages).1,
      (bufpool_fetch g s.file.wal.data.num_pages).2.map fun i => (s.file.wal.data.num_pages, i)) := by
    rw [bufpool_new_page, halloc, ← hg]
  have hpins : ∀ q, g.pins q = s.file.pins q := by
    intro q
    rw [hg]
    rfl
  rw [heq]
  simp only [isSome_map]
  set r := bufpool_fetch g s.file.wal.data.num_pages
  have hchanged : changed_pages (if r.2.isSome then ⟨s.store.length, false⟩ :: s.pins else s.pins) =
      changed_pages s.pins := by
    split <;> rfl
  refine ⟨?_, ?_, fun q => ?_, fun q => ?_⟩
  · rw [hchanged]
    exact hf.plain
  · rw [hf.same.count, hnum, h.count]
    simp
  · rw [hf.same.view q, hview q, h.view q, h.count]
    by_cases hq : q = s.store.length
    · rw [if_pos hq, hq, getElem?_concat_length]
    · rw [if_neg hq]
      rcases lt_or_ge q s.store.length with hlt | hge
      · exact (getElem?_append_left hlt).symm
      · rw [getElem?_eq_none hge, getElem?_eq_none (by simp; omega)]
  · rw [hf.pins q, hpins q, h.pins q, h.count]
    by_cases hsome : r.2.isSome = true
    · rw [if_pos hsome, map_cons, count_cons]
      by_cases hq : q = s.store.length
      · simp [hq, hsome]
      · simp [hq, Ne.symm hq]
    · rw [if_neg hsome, if_neg fun hand => hsome hand.2]
      rfl

/-- The frame of a page is changed in place; the page keeps its frame. -/
theorem update {i p : Nat} {g : Frame → Frame} (hc : Caches s.file i fr p)
    (hv : (g fr).valid = true) (hid : (g fr).page_id = p) {file' : PagedFile} {store' : List Page}
    {pins' : List Pin} (hfile : file' = s.file.modify_frame i g)
    (hstore : store'.length = s.store.length)
    (hclean : (g fr).dirty = false → p ∉ changed_pages pins' →
      s.file.wal.data.file[p]? = some (g fr).data)
    (hsub : ∀ q, q ≠ p → (q ∈ changed_pages pins' ↔ q ∈ changed_pages s.pins))
    (hheld : p ∈ changed_pages pins' → (g fr).pin_count ≠ 0)
    (hview : ∀ q, store'[q]? = if q = p then some (g fr).data else s.store[q]?)
    (hcount : ∀ q, (pins'.map Pin.page_id).count q =
      if q = p then (g fr).pin_count else (s.pins.map Pin.page_id).count q) :
    PoolRefines ⟨file', store', pins'⟩ := by
  obtain ⟨hcache, hviews, hpins⟩ :=
    h.plain.cache.update g (changed_pages pins') hc hv hid hclean hsub hheld
  subst hfile
  refine ⟨h.plain.modify_frame hc.at_index hcache fun hn => absurd (hv.symm.trans hn) nofun,
    h.count.trans hstore.symm, fun q => ?_, fun q => ?_⟩
  · rw [hviews q, hview q, h.view q]
  · rw [hpins q, hcount q, h.pins q]

theorem write {buf : Page} (hs : s.step (.write pin buf) = some s') : PoolRefines s' := by
  obtain ⟨hpin, hs⟩ := ite_none_right_eq_some.mp hs
  cases hs
  obtain ⟨i, fr, hfind, hc, hcount, hne⟩ := h.cached hpin
  obtain ⟨hsplit, hchanged⟩ := pins_split hpin
  set g := fun fr : Frame => if fr.pin_count = 0 then fr else { fr with data := buf }
  have hg : g fr = { fr with data := buf } := if_neg hne
  have hlt : pin.page_id < s.store.length := h.count ▸ h.plain.cache.counted i fr _ hc
  have hmem : pin.page_id ∈ changed_pages (⟨pin.page_id, true⟩ :: s.pins.erase pin) := by
    simp [changed_pages]
  refine h.update (g := g) hc (by rw [hg]; exact hc.valid) (by rw [hg]; exact hc.page_id) ?_
    (by simp) (fun _ hnot => absurd hmem hnot) (fun q hq => ?_) (fun _ => by rw [hg]; exact hne)
    (fun q => ?_) fun q => ?_
  · simp only [MiniDb.store, hfind]
    rfl
  · rw [hchanged q]
    simp [changed_pages, hq]
  · rw [hg]
    by_cases hq : q = pin.page_id
    · rw [if_pos hq, hq, getElem?_set_self hlt]
    · rw [if_neg hq, getElem?_set_ne (Ne.symm hq)]
  · rw [map_cons, count_cons, hg]
    by_cases hq : q = pin.page_id
    · rw [if_pos hq, hq, hcount, hsplit]
      simp
    · rw [if_neg hq, hsplit q, if_neg hq]
      simp [Ne.symm hq]

theorem unpin {is_dirty : Bool} (hs : s.step (.unpin pin is_dirty) = some s') : PoolRefines s' := by
  obtain ⟨⟨hpin, hdirty⟩, hs⟩ := ite_none_right_eq_some.mp hs
  cases hs
  obtain ⟨i, fr, hfind, hc, hcount, hne⟩ := h.cached hpin
  obtain ⟨hsplit, hchanged⟩ := pins_split hpin
  have hleft : ((s.pins.erase pin).map Pin.page_id).count pin.page_id = fr.pin_count - 1 := by
    rw [hcount, hsplit, if_pos rfl]
    rfl
  refine h.update (g := fun fr => { fr with
    dirty := fr.dirty || is_dirty, pin_count := fr.pin_count - 1 }) hc hc.valid hc.page_id ?_ rfl
    (fun hclean hnot => ?_) (fun q hq => ?_) (fun hmem => ?_) (fun q => ?_) fun q => ?_
  · simp only [bufpool_unpin, hfind]
  · -- a frame left clean was not changed through this pin
    obtain ⟨hd, hfalse⟩ := Bool.or_eq_false_iff.1 hclean
    refine h.plain.cache.clean i fr _ hc hd fun hmem => ?_
    rcases (hchanged _).1 hmem with ⟨hch, -⟩ | hmem
    · cases (hdirty hch).symm.trans hfalse
    · exact hnot hmem
  · rw [hchanged q]
    simp [hq]
  · -- somebody else holds a pin and has changed the page
    change fr.pin_count - 1 ≠ 0
    rw [← hleft]
    obtain ⟨pin', hpin', hid⟩ := mem_map.1 hmem
    have hpos := count_pos_iff.2 (mem_map_of_mem (f := Pin.page_id)
      (mem_of_mem_filter hpin'))
    rw [hid] at hpos
    omega
  · by_cases hq : q = pin.page_id
    · rw [if_pos hq, hq, ← h.view, h.plain.cache.view_cached hc]
    · rw [if_neg hq]
  · by_cases hq : q = pin.page_id
    · rw [if_pos hq, hq, hleft]
    · rw [if_neg hq, hsplit q, if_neg hq, Nat.add_zero]

theorem flush_all (hs : s.step .flush_all = some s') : PoolRefines s' := by
  cases hs
  obtain ⟨-, -, hplain, hsteady⟩ := h.plain.flush_all
  exact ⟨hplain, hsteady.count.trans h.count, fun q => (hsteady.view q).trans (h.view q),
    fun q => (hsteady.pins q).trans (h.pins q)⟩

theorem step (hs : s.step a = some s') : PoolRefines s' := by
  cases a with
  | fetch p => exact h.fetch hs
  | new_page => exact h.new_page hs
  | write pin buf => exact h.write hs
  | unpin pin is_dirty => exact h.unpin hs
  | flush_all => exact h.flush_all hs

/-- A pinned frame keeps its page, whatever the clients do next. -/
theorem stays (hs : s.step a = some s') {i : Nat}
    (hfr : s.file.bp.frames[i]? = some fr) (hpin : fr.pin_count ≠ 0) :
    ∃ fr', Caches s'.file i fr' fr.page_id := by
  have hvalid : fr.valid = true := by
    by_contra hv
    exact hpin (h.plain.free fr (mem_of_getElem? hfr) (by simpa using hv))
  have hc : Caches s.file i fr fr.page_id := ⟨hfr, hvalid, rfl⟩
  -- changes of one frame that keep its page
  have hmodify : ∀ (j : Nat) (g : Frame → Frame), (∀ fr, (g fr).valid = fr.valid) →
      (∀ fr, (g fr).page_id = fr.page_id) →
      ∃ fr', Caches (s.file.modify_frame j g) i fr' fr.page_id := by
    intro j g hv hid
    by_cases hij : j = i
    · subst hij
      exact ⟨g fr, hid fr ▸ caches_modify_frame_self hfr ((hv fr).trans hvalid)⟩
    · exact ⟨fr, caches_modify_frame_other hc hij⟩
  cases a with
  | fetch p =>
    cases hs
    exact (h.plain.fetch p).stays i fr _ hc hpin
  | new_page =>
    obtain ⟨hlt, hs⟩ := ite_none_right_eq_some.mp hs
    cases hs
    obtain ⟨g, halloc, hg, hplain, -, -⟩ := h.plain.allocate hlt
    have hc' : Caches g i fr fr.page_id := by
      rw [hg]
      exact ⟨hfr, hvalid, rfl⟩
    have hstays := (hplain.fetch s.file.wal.data.num_pages).stays i fr _ hc' hpin
    simp only [bufpool_new_page, halloc, ← hg]
    exact hstays
  | write pin buf =>
    obtain ⟨-, hs⟩ := ite_none_right_eq_some.mp hs
    cases hs
    simp only [MiniDb.store]
    split
    · exact ⟨fr, hc⟩
    · exact hmodify _ _ (fun fr => by split <;> rfl) (fun fr => by split <;> rfl)
  | unpin pin is_dirty =>
    obtain ⟨-, hs⟩ := ite_none_right_eq_some.mp hs
    cases hs
    simp only [bufpool_unpin]
    split
    · exact ⟨fr, hc⟩
    · exact hmodify _ _ (fun _ => rfl) (fun _ => rfl)
  | flush_all =>
    cases hs
    exact h.plain.flush_all.2.2.2.stays i fr _ hc hpin

/-- With no pins held, a flush leaves the store in the file. -/
theorem flushed_file (hnone : s.pins = []) :
    (bufpool_flush_all s.file).2 = 0 ∧ (bufpool_flush_all s.file).1.wal.data.file = s.store := by
  obtain ⟨hrc, hfile, -, -⟩ := h.plain.flush_all
  refine ⟨hrc, ?_⟩
  have hin : ∀ u ∈ dirty_pages s.file.bp.frames, u.1 < s.file.wal.data.file.length :=
    fun u hu => h.plain.file.symm ▸ h.plain.cache.dirty_lt u hu
  have hlen : s.file.wal.data.file.length = s.store.length := h.plain.file.trans h.count
  have htouched : ∀ p, p ∉ changed_pages s.pins := by
    intro p
    rw [hnone]
    exact nofun
  rw [hfile]
  apply ext_getElem?
  intro p
  rcases lt_or_ge p s.store.length with hp | hp
  · rw [← h.plain.cache.view_eq (hlen.symm ▸ hp) (htouched p), h.view p]
  · rw [getElem?_eq_none hp, getElem?_eq_none]
    rw [length_write_all_of_lt _ hin, hlen]
    exact hp

end PoolRefines

/-- In every run of the clients of a pool of any size: a fetch shows the page as it
    was last written, and fails for an existing page only when every frame is
    pinned; a new page is zero; a page is in one frame at most; a pinned frame keeps
    its page; and a flush with no pins held leaves exactly the written pages in the
    file. -/
theorem pool_refines_store {w : Wal} {file : List Page} {num_frames : Nat}
    (hmax : file.length ≤ MAX_PAGES) {as : List PoolAct} {s : PoolState}
    (hrun : run PoolState.step (PoolState.opened w file num_frames) as = some s) :
    (∀ p i, (bufpool_fetch s.file p).2 = some i →
      ∃ fr, (bufpool_fetch s.file p).1.bp.frames[i]? = some fr ∧ s.store[p]? = some fr.data) ∧
    (∀ id i, s.file.wal.data.num_pages < MAX_PAGES →
      (bufpool_new_page s.file).2 = some (id, i) → id = s.store.length ∧
        ∃ fr, (bufpool_new_page s.file).1.bp.frames[i]? = some fr ∧ fr.data = Page.zero) ∧
    (∀ p < s.store.length, (bufpool_fetch s.file p).2 = none →
      ∀ fr ∈ s.file.bp.frames, fr.pin_count ≠ 0) ∧
    (∀ i j fr fr' p, Caches s.file i fr p → Caches s.file j fr' p → i = j) ∧
    (∀ a s', s.step a = some s' → ∀ (i : Nat) (fr : Frame), s.file.bp.frames[i]? = some fr →
      fr.pin_count ≠ 0 → ∃ fr' : Frame, s'.file.bp.frames[i]? = some fr' ∧ fr'.valid = true ∧
        fr'.page_id = fr.page_id) ∧
    (s.pins = [] → (bufpool_flush_all s.file).2 = 0 ∧
      (bufpool_flush_all s.file).1.wal.data.file = s.store) := by
  have hsteps : Steps PoolState.step (fun _ _ => True) (PoolState.opened w file num_frames) as s :=
    .of_run (fun _ _ _ => trivial) hrun
  have h : PoolRefines s :=
    hsteps.invariant PoolRefines (fun _ _ _ h _ hs => h.step hs) (.opened hmax)
  refine ⟨fun p i hi => ?_, fun id i hlt hnew => ?_, fun p hp hnone => ?_, h.plain.cache.unique,
    fun a s' hs i fr hfr hpin => ?_, h.flushed_file⟩
  · have hf := h.plain.fetch p
    obtain ⟨fr, hc⟩ := hf.shows i hi
    refine ⟨fr, hc.at_index, ?_⟩
    rw [← h.view p, ← hf.same.view p, hf.plain.cache.view_cached hc]
  · obtain ⟨g, halloc, hg, hplain, -, hview⟩ := h.plain.allocate hlt
    have hf := hplain.fetch s.file.wal.data.num_pages
    simp only [bufpool_new_page, halloc, ← hg] at hnew ⊢
    obtain ⟨j, hj, heq⟩ := map_eq_some_iff.1 hnew
    cases heq
    obtain ⟨fr, hc⟩ := hf.shows i hj
    have hdata := hf.plain.cache.view_cached hc
    rw [hf.same.view, hview, if_pos rfl] at hdata
    exact ⟨h.count, fr, hc.at_index, (some.inj hdata).symm⟩
  · exact (h.plain.fetch p).fails (h.count.symm ▸ hp) hnone
  · obtain ⟨fr', hc⟩ := h.stays hs hfr hpin
    exact ⟨fr', hc.at_index, hc.valid, hc.page_id⟩

/-- One frame for two pages: page 0 is changed, evicted and read again. -/
def evict_and_reread : List PoolAct :=
  [.fetch 0, .write ⟨0, false⟩ (Page.fill 1), .unpin ⟨0, true⟩ true, .fetch 1,
    .unpin ⟨1, false⟩ false]

set_option maxRecDepth 100000 in
theorem pool_refines_store_one_frame : ∃ s,
    run PoolState.step (PoolState.opened (wal_fresh ⟨[], []⟩) [Page.zero, Page.zero] 1)
      evict_and_reread = some s ∧ s.store = [Page.fill 1, Page.zero] ∧
      (bufpool_fetch s.file 0).2 = some 0 ∧
      ∃ fr, (bufpool_fetch s.file 0).1.bp.frames[0]? = some fr ∧ s.store[0]? = some fr.data := by
  have hrun : (run PoolState.step (PoolState.opened (wal_fresh ⟨[], []⟩) [Page.zero, Page.zero] 1)
      evict_and_reread).any (fun s => s.store = [Page.fill 1, Page.zero] ∧
        (bufpool_fetch s.file 0).2 = some 0) = true := by decide +kernel
  obtain ⟨s, hs, hfacts⟩ := (any_eq_true _ _).1 hrun
  obtain ⟨hstore, hfetch⟩ : s.store = _ ∧ (bufpool_fetch s.file 0).2 = some 0 := by
    simpa using hfacts
  exact ⟨s, hs, hstore, hfetch, (pool_refines_store (by decide) hs).1 0 0 hfetch⟩

end MiniDb
