import MiniDb.Storage.FileSteps

/-! # Commit and rollback of a paged file

  A commit stages the dirty frames and commits them in one WAL transaction.
  `commit_ok` is what it takes to make the view durable: a marker is written
  when pages have been stolen, and no page keeps an after-image in the log
  that is older than the file.  Then a stop anywhere inside the commit leaves
  the old pages or the new ones as a whole (`FileInv.commit`). -/

namespace MiniDb

open Framework List

/-- The pages a commit stages. -/
def dirty_pages (frames : List Frame) : List StagedPage :=
  (frames.filter Frame.pending).map fun fr => (fr.page_id, fr.data)

/-- The log as `wal_flush_commit` hands it to `wal_commit`. -/
def staged_wal (f : PagedFile) : Wal :=
  { wal_begin f.wal with staged := dirty_pages f.bp.frames }

/-- The disk operations of `wal_flush_commit`. -/
def flush_commit_io (f : PagedFile) : List IoOp :=
  if f.bp.frames.any Frame.pending then wal_commit_io (staged_wal f) else []

/-- Something has to be committed: a dirty frame or a stolen page. -/
def PagedFile.changed (f : PagedFile) : Bool := f.bp.frames.any Frame.pending || f.wal.stole

/-- Every page that is not staged has no after-image in the log, or its newest
    one is what the file holds. -/
def log_fresh (f : PagedFile) : Prop :=
  ∀ p < f.wal.data.num_pages, p ∉ (dirty_pages f.bp.frames).map Prod.fst →
    last_write (redo_images f.wal.log) p = none ∨
      last_write (redo_images f.wal.log) p = f.wal.data.file[p]?

/-- When a commit starts: stolen pages come with a dirty frame, so that a
    marker is written, and the log is fresh. -/
def commit_ok (f : PagedFile) : Prop :=
  (f.bp.frames.any Frame.pending = true ∨ f.wal.stole = false) ∧ log_fresh f

/-! ### Staging the dirty frames -/

/-- A frame after its page has been staged. -/
def Frame.flushed (fr : Frame) : Frame := if fr.pending then { fr with dirty := false } else fr

theorem Frame.flushed_keeps (fr : Frame) : fr.flushed.valid = fr.valid ∧
    fr.flushed.page_id = fr.page_id ∧ fr.flushed.data = fr.data ∧
    fr.flushed.pin_count = fr.pin_count := by
  unfold Frame.flushed
  split <;> exact ⟨rfl, rfl, rfl, rfl⟩

section Dirty

variable {fr : Frame} {frames : List Frame}

theorem dirty_pages_pos (hp : fr.pending = true) :
    dirty_pages (fr :: frames) = (fr.page_id, fr.data) :: dirty_pages frames := by
  simp [dirty_pages, hp]

theorem dirty_pages_neg (hp : ¬ fr.pending = true) :
    dirty_pages (fr :: frames) = dirty_pages frames := by
  simp [dirty_pages, hp]

end Dirty

theorem stage_replace_eq_none {page_id : Nat} {buf : Page} {staged : List StagedPage}
    (h : page_id ∉ staged.map Prod.fst) : stage_replace page_id buf staged = none := by
  induction staged with
  | nil => rfl
  | cons u staged ih =>
    simp only [map_cons, mem_cons, not_or] at h
    simp only [stage_replace]
    rw [if_neg (Ne.symm h.1), ih h.2]
    rfl

theorem wal_stage_new {w : Wal} {page_id : Nat} {buf : Page}
    (hnew : page_id ∉ w.staged.map Prod.fst) (hroom : w.staged.length < WAL_MAX_STAGED) :
    wal_stage w page_id buf = ({ w with staged := w.staged ++ [(page_id, buf)] }, 0) := by
  unfold wal_stage
  rw [stage_replace_eq_none hnew]
  simp only
  rw [if_neg (by omega)]

theorem flush_cb_loop_stages (w : Wal) (frames : List Frame) (n : Int)
    (hroom : w.staged.length + (dirty_pages frames).length ≤ WAL_MAX_STAGED)
    (hnodup : ((w.staged ++ dirty_pages frames).map Prod.fst).Nodup) :
    flush_cb_loop w frames n =
      ({ w with staged := w.staged ++ dirty_pages frames }, frames.map Frame.flushed,
        n + (dirty_pages frames).length) := by
  induction frames generalizing w n with
  | nil => simp [flush_cb_loop, dirty_pages]
  | cons fr frames ih =>
    by_cases hp : fr.pending = true
    · rw [dirty_pages_pos hp] at hroom hnodup ⊢
      have hsplit : w.staged ++ (fr.page_id, fr.data) :: dirty_pages frames =
          (w.staged ++ [(fr.page_id, fr.data)]) ++ dirty_pages frames := by simp
      have hnew : fr.page_id ∉ w.staged.map Prod.fst := by
        rw [map_append, nodup_append] at hnodup
        exact fun hmem => hnodup.2.2 _ hmem _ (by simp) rfl
      simp only [length_cons] at hroom ⊢
      simp only [flush_cb_loop, hp, if_true]
      rw [wal_stage_new hnew (by omega)]
      simp only [ne_eq, not_true, if_false]
      rw [ih _ (n + 1) (by simp only [length_append, length_cons, length_nil]; omega)
        (by rw [hsplit] at hnodup; exact hnodup), hsplit]
      simp only [map_cons, Frame.flushed, hp, if_true, Prod.mk.injEq, true_and]
      push_cast
      omega
    · rw [dirty_pages_neg hp] at hroom hnodup ⊢
      simp only [flush_cb_loop, hp]
      rw [ih w n hroom hnodup]
      simp [Frame.flushed, hp]

theorem dirty_pages_any (frames : List Frame) :
    frames.any Frame.pending = false ↔ dirty_pages frames = [] := by
  simp [dirty_pages, filter_eq_nil_iff]

variable {f : PagedFile} {touched : List Nat} {frames : List Frame}

theorem mem_dirty_pages {u : StagedPage} (h : u ∈ dirty_pages frames) :
    ∃ (i : Nat) (fr : Frame), frames[i]? = some fr ∧ fr.valid = true ∧ fr.dirty = true ∧
      u = (fr.page_id, fr.data) := by
  obtain ⟨fr, hfr, rfl⟩ := mem_map.mp h
  obtain ⟨hmem, hp⟩ := mem_filter.mp hfr
  obtain ⟨i, hi⟩ := getElem?_of_mem hmem
  simp only [Frame.pending, Bool.and_eq_true] at hp
  exact ⟨i, fr, hi, hp.1, hp.2, rfl⟩

theorem last_write_uncached {p : Nat} (hno : ∀ i fr, ¬ Caches f i fr p) :
    last_write (dirty_pages f.bp.frames) p = none := by
  rw [last_write_eq_none]
  intro hmem
  obtain ⟨u, hu, rfl⟩ := mem_map.mp hmem
  obtain ⟨j, fr', hj, hv, -, rfl⟩ := mem_dirty_pages hu
  exact hno j fr' ⟨hj, hv, rfl⟩

/-- Frames on different pages stage different pages. -/
theorem dirty_pages_nodup
    (h : ∀ (i j : Nat) (fr fr' : Frame), frames[i]? = some fr → frames[j]? = some fr' →
      fr.valid = true → fr'.valid = true → fr.page_id = fr'.page_id → i = j) :
    ((dirty_pages frames).map Prod.fst).Nodup := by
  induction frames with
  | nil => simp [dirty_pages]
  | cons fr frames ih =>
    have htail := ih fun i j fr1 fr2 h1 h2 hv1 hv2 heq => by
      have := h (i + 1) (j + 1) fr1 fr2 (by simpa using h1) (by simpa using h2) hv1 hv2 heq
      omega
    by_cases hp : fr.pending = true
    · rw [dirty_pages_pos hp, map_cons, nodup_cons]
      refine ⟨fun hmem => ?_, htail⟩
      obtain ⟨u, hu, heq⟩ := mem_map.mp hmem
      obtain ⟨i, fr', hi, hv, -, rfl⟩ := mem_dirty_pages hu
      simp only [Frame.pending, Bool.and_eq_true] at hp
      have := h 0 (i + 1) fr fr' rfl (by simpa using hi) hp.1 hv heq.symm
      omega
    · rw [dirty_pages_neg hp]
      exact htail

theorem CacheInv.dirty_nodup (h : CacheInv f touched) :
    ((dirty_pages f.bp.frames).map Prod.fst).Nodup :=
  dirty_pages_nodup fun i j fr fr' hi hj hv hv' heq =>
    h.unique i j fr fr' fr'.page_id ⟨hi, hv, heq⟩ ⟨hj, hv', rfl⟩

theorem PoolInv.dirty_room (h : PoolInv f touched) :
    (dirty_pages f.bp.frames).length ≤ WAL_MAX_STAGED := by
  have := length_filter_le Frame.pending f.bp.frames
  have := h.size
  simp only [dirty_pages, length_map]
  omega

theorem CacheInv.dirty_lt (h : CacheInv f touched) :
    ∀ u ∈ dirty_pages f.bp.frames, u.1 < f.wal.data.num_pages := by
  intro u hu
  obtain ⟨i, fr, hi, hv, -, rfl⟩ := mem_dirty_pages hu
  exact h.counted i fr _ ⟨hi, hv, rfl⟩

/-! ### The view is what a commit writes -/

variable {s s' : FileState} {hist cur : List Rec}

variable {p : Nat} {d : Disk} {C : List Page} {g : PagedFile}

theorem getElem?_pages (f : PagedFile) (hp : p < f.wal.data.num_pages) :
    f.pages[p]? = some ((f.view p).getD Page.zero) := by
  simp [PagedFile.pages, hp]

@[simp] theorem length_pages (f : PagedFile) : f.pages.length = f.wal.data.num_pages := by
  simp [PagedFile.pages]

/-- With no store to it under way, a page is its dirty frame or the file's page. -/
theorem CacheInv.view_eq (h : CacheInv f touched) (hp : p < f.wal.data.file.length)
    (ht : p ∉ touched) :
    f.view p = (write_all Page.zero f.wal.data.file (dirty_pages f.bp.frames))[p]? := by
  rw [getElem?_write_all hp]
  by_cases hc : ∃ i fr, Caches f i fr p
  · obtain ⟨i, fr, hc⟩ := hc
    rw [h.view_cached hc]
    cases hd : fr.dirty with
    | true =>
      have hmem : (p, fr.data) ∈ dirty_pages f.bp.frames := by
        refine mem_map.mpr ⟨fr, mem_filter.mpr ⟨mem_of_getElem? hc.at_index, ?_⟩, ?_⟩
        · simp [Frame.pending, hc.valid, hd]
        · rw [hc.page_id]
      rw [last_write_of_mem h.dirty_nodup hmem]
      rfl
    | false =>
      have hnone : last_write (dirty_pages f.bp.frames) p = none := by
        rw [last_write_eq_none]
        intro hmem
        obtain ⟨u, hu, rfl⟩ := mem_map.mp hmem
        obtain ⟨j, fr', hj, hv, hd', rfl⟩ := mem_dirty_pages hu
        have := h.frame_eq hc ⟨hj, hv, rfl⟩
        subst this
        cases hd.symm.trans hd'
      rw [hnone, h.clean i fr p hc hd ht]
      rfl
  · have hno : ∀ i fr, ¬ Caches f i fr p := fun i fr h => hc ⟨i, fr, h⟩
    rw [view_uncached hno, last_write_uncached hno]
    rfl

theorem FileInv.pages_eq (h : FileInv s hist cur) (ht : s.touched = []) :
    s.file.pages = (write_all Page.zero s.file.wal.data.file
      (dirty_pages s.file.bp.frames)).take s.file.wal.data.num_pages := by
  have hpool : PoolInv s.file [] := ht ▸ h.pool
  have hpages : s.file.wal.data.num_pages ≤ s.file.wal.data.file.length := h.sess.pages
  have hlen := length_write_all_le Page.zero s.file.wal.data.file (dirty_pages s.file.bp.frames)
  apply ext_getElem?
  intro p
  by_cases hp : p < s.file.wal.data.num_pages
  · rw [getElem?_pages _ hp, getElem?_take_of_lt hp,
      hpool.view_eq (by omega) not_mem_nil]
    have hp' : p < (write_all Page.zero s.file.wal.data.file
      (dirty_pages s.file.bp.frames)).length := by omega
    simp [hp']
  · rw [getElem?_eq_none (by simpa using hp), getElem?_eq_none (by simp; omega)]

/-! ### Reopening -/

/-- Reopening yields the pages `C` and nothing else but zeros. -/
def Reopens (d : Disk) (C : List Page) : Prop :=
  Recovers d C ∧ ∀ p x, C.length ≤ p → (wal_open d).data.file[p]? = some x → x = Page.zero

/-- The file after recovery, read off the log. -/
theorem Restores.wal_open_file (h : Restores C d) :
    (wal_open d).data.file =
      let f := write_all Page.zero d.data (redo_images d.log ++ (loser_scan d.log).1)
      match truncate_to (loser_scan d.log).2 d.data.length with
      | some n => resize Page.zero f n
      | none => f := by
  obtain ⟨rs, hrs⟩ := h
  obtain ⟨hredo, hloser⟩ := hrs.reads.recover hrs.fits
  rw [hredo, hloser]
  exact MiniDb.wal_open_file hrs.reads hrs.fits hrs.redo_lt
    fun u hu => lt_of_lt_of_le (hrs.undo_lt u hu) hrs.bound

/-- A file recovery cuts to the committed pages has no pages behind them. -/
theorem StillOpen.reopens_cut {d' : Disk} (h : StillOpen d C hist cur d')
    (hdisk : DiskInv d C hist cur) (hbelow : ∀ u ∈ (scan .init hist).redone, u.1 < C.length)
    (hbase : last_base none cur = some C.length) : Reopens d' C := by
  refine ⟨h.restores.recovers, fun p x hp hx => ?_⟩
  have hcount := hdisk.count
  have hids : ∀ u ∈ (scan .init hist).redone ++ undo_images cur, u.1 < d.data.length := by
    intro u hu
    rcases mem_append.mp hu with hu | hu
    · exact lt_of_lt_of_le (hbelow u hu) hcount
    · exact hdisk.undo_lt u hu
  rw [h.restores.wal_open_file, h.redo, h.loser, h.data, hbase] at hx
  have hlt := (List.getElem?_eq_some_iff.mp hx).1
  unfold truncate_to at hlt
  by_cases hcut : C.length < d.data.length
  · simp only [if_pos hcut, length_resize] at hlt
    omega
  · simp only [if_neg hcut, length_write_all_of_lt _ hids] at hlt
    omega

/-- Without a loser recovery only replays images of committed pages. -/
theorem reopens_of_no_loser (h : Restores C d) (hbelow : ∀ u ∈ redo_images d.log, u.1 < C.length)
    (hloser : loser_scan d.log = ([], none))
    (htail : ∀ p x, C.length ≤ p → d.data[p]? = some x → x = Page.zero) : Reopens d C := by
  refine ⟨h.recovers, fun p x hp hx => ?_⟩
  obtain ⟨rs, hrs⟩ := h
  have hids : ∀ u ∈ redo_images d.log, u.1 < d.data.length :=
    fun u hu => lt_of_lt_of_le (hbelow u hu) hrs.count
  rw [Restores.wal_open_file ⟨rs, hrs⟩, hloser] at hx
  simp only [truncate_to, append_nil] at hx
  have hlt := (List.getElem?_eq_some_iff.mp hx).1
  rw [length_write_all_of_lt _ hids] at hlt
  have hnone : last_write (redo_images d.log) p = none := by
    rw [last_write_eq_none]
    intro hmem
    obtain ⟨u, hu, rfl⟩ := mem_map.mp hmem
    exact absurd (hbelow u hu) (not_lt.mpr hp)
  rw [getElem?_write_all hlt, hnone, Option.none_or] at hx
  exact htail p x hp hx

variable (h : FileInv s hist cur)

include h

/-- A stop before the marker: the file is reopened as it was before the transaction. -/
theorem FileInv.reopens_open (hact : s.active = true)
    (hd : StillOpen s.file.wal.disk s.committed hist cur d) : Reopens d s.committed := by
  have ht := h.sess.txn hact
  cases hst : s.file.wal.stole with
  | true =>
    have hbase : last_base none cur = some s.committed.length :=
      (ht.begun hst).trans (congrArg some (h.whole.base hact))
    exact hd.reopens_cut h.sess.disk h.whole.below hbase
  | false =>
    have hcur : cur = [] := ht.unbegun hst
    refine reopens_of_no_loser hd.restores ?_ ?_ ?_
    · rw [hd.redo]
      exact h.whole.below
    · rw [hd.loser, hcur]
      rfl
    · rw [hd.data]
      exact h.whole.tail hst

/-- A stop from the marker on: the file is reopened with all its pages. -/
theorem FileInv.reopens_closed
    (hd : Closed s.file.wal.disk s.file.pages hist (dirty_pages s.file.bp.frames) d) :
    Reopens d s.file.pages := by
  have hlen : s.file.wal.data.file.length = s.file.wal.data.num_pages := h.whole.counted
  refine reopens_of_no_loser hd.restores ?_ hd.loser ?_
  · intro u hu
    rw [length_pages]
    rcases hd.redo u hu with hu | hu
    · exact lt_of_lt_of_le (h.whole.below u hu) h.sess.counted
    · exact h.pool.dirty_lt u hu
  · intro p x hp hx
    have hlt := (List.getElem?_eq_some_iff.mp hx).1
    rw [hd.length] at hlt
    rw [length_pages] at hp
    change p < s.file.wal.data.file.length at hlt
    omega

omit h in
theorem DiskInv.still_open (h : DiskInv d C hist cur) : StillOpen d C hist cur d := by
  have := h.open_pages (by simp : ([] : List StagedPage).length ≤ _) (by simp) 0 Torn.nil
  simpa [page_recs] using this

omit h in
/-- An idle file ends with its committed pages. -/
theorem Whole.no_tail {t : Session} (h : Whole t hist) (hidle : t.in_txn = false)
    (hp : t.committed.length ≤ p) : t.wal.data.file[p]? = none := by
  have := h.counted
  have := h.idle hidle
  exact getElem?_eq_none (by omega)

/-- Between calls the file is reopened with its committed pages. -/
theorem FileInv.reopens : Reopens s.file.wal.disk s.committed := by
  have hd : StillOpen s.file.wal.disk s.committed hist cur s.file.wal.disk := h.sess.disk.still_open
  cases hact : s.active with
  | true => exact h.reopens_open hact hd
  | false =>
    have hcur : cur = [] := h.sess.idle hact
    refine reopens_of_no_loser hd.restores ?_ ?_ fun p x hp hx => ?_
    · rw [hd.redo]
      exact h.whole.below
    · rw [hd.loser, hcur]
      rfl
    · cases (h.whole.no_tail hact hp).symm.trans hx

/-! ### Commit -/

omit h in
/-- A commit that has nothing to write takes the file as it is. -/
theorem DiskInv.recommit {n : Nat} (h : DiskInv d C hist [])
    (hfresh : FreshImages d (scan .init hist).redone n []) : DiskInv d (d.data.take n) hist [] where
  __ := h
  count := by simp
  images := fun p hp x hx => by
    have hpn : p < n := by simp only [length_take] at hp; omega
    rw [getElem?_take_of_lt hpn]
    exact hfresh p hpn (by simp) x hx
  undo_val := by simp [undo_images]
  keep := fun p hp _ => by
    have hpn : p < n := by simp only [length_take] at hp; omega
    rw [getElem?_take_of_lt hpn]
  base := by simp [last_base]

theorem FileInv.fresh_images (hfresh : log_fresh s.file) :
    FreshImages s.file.wal.disk (scan .init hist).redone s.file.wal.data.num_pages
      (dirty_pages s.file.bp.frames) := by
  intro p hp hnot x hx
  have hredo : redo_images s.file.wal.log = (scan .init hist).redone := h.sess.redo_images_eq
  rw [← hredo] at hx
  rcases hfresh p hp hnot with hnone | heq
  · simp [hnone] at hx
  · rw [← hx, heq]
    rfl

theorem FileInv.staged_ok :
    StagedOk s.file.wal.disk (dirty_pages s.file.bp.frames) :=
  ⟨h.pool.dirty_room, h.pool.dirty_nodup, fun u hu => h.file_lt (h.pool.dirty_lt u hu)⟩

omit h in
/-- The flush in one step. -/
theorem PoolInv.wal_flush_commit (h : PoolInv f touched) (hmax : f.wal.data.num_pages ≤ MAX_PAGES) :
    wal_flush_commit f =
      if f.bp.frames.any Frame.pending then
        ({ f with
            wal := (wal_commit (staged_wal f)).1
            bp := { f.bp with frames := f.bp.frames.map Frame.flushed } }, 0)
      else
        ({ f with
            wal := wal_begin f.wal
            bp := { f.bp with frames := f.bp.frames.map Frame.flushed } }, 0) := by
  have hflush := flush_cb_loop_stages (wal_begin f.wal) f.bp.frames 0
    (by simpa [wal_begin] using h.dirty_room) (by simpa [wal_begin] using h.dirty_nodup)
  have hrc : write_rc (dirty_pages f.bp.frames) = 0 := by
    have : ∀ u ∈ dirty_pages f.bp.frames, u.1 < MAX_PAGES :=
      fun u hu => (h.dirty_lt u hu).trans_le hmax
    simpa [write_rc] using this
  have hstaged : (wal_begin f.wal).staged = [] := rfl
  rw [hstaged, nil_append] at hflush
  simp only [MiniDb.wal_flush_commit, bufpool_flush_cb, hflush]
  rw [if_neg (by omega)]
  cases hany : f.bp.frames.any Frame.pending with
  | true =>
    have hne : dirty_pages f.bp.frames ≠ [] := by
      intro hnil
      rw [← dirty_pages_any, hany] at hnil
      cases hnil
    have hpos := length_pos_iff.mpr hne
    have hcommit : (wal_commit (staged_wal f)).2 = 0 := by
      simp [wal_commit, staged_wal, hrc]
    rw [if_pos (by omega), if_pos rfl]
    exact Prod.ext rfl hcommit
  | false =>
    have hnil := (dirty_pages_any _).mp hany
    simp [hnil, wal_begin]

omit h

/-- Frames after a flush hold the same pages, all clean. -/
theorem caches_flushed (hframes : g.bp.frames = f.bp.frames.map Frame.flushed) {i : Nat}
    {fr : Frame} (hc : Caches g i fr p) :
    fr.dirty = false ∧ ∃ fr0, Caches f i fr0 p ∧ fr0.data = fr.data := by
  have hget := hc.at_index
  rw [hframes, getElem?_map, Option.map_eq_some_iff] at hget
  obtain ⟨fr0, hfr0, rfl⟩ := hget
  obtain ⟨hvalid, hid, hsame, -⟩ := fr0.flushed_keeps
  have hv : fr0.valid = true := hvalid ▸ hc.valid
  refine ⟨?_, fr0, ⟨hfr0, hv, hid ▸ hc.page_id⟩, hsame.symm⟩
  unfold Frame.flushed
  split
  · rfl
  · next hp => simpa [Frame.pending, hv] using hp

section Flushed

variable (hlen : f.wal.data.num_pages ≤ f.wal.data.file.length)
  (hframes : g.bp.frames = f.bp.frames.map Frame.flushed)
  (hdata : g.wal.data = ⟨write_all Page.zero f.wal.data.file (dirty_pages f.bp.frames),
    f.wal.data.num_pages⟩)

include hlen hframes hdata

/-- The pool after a flush: all its frames are clean, and the clients see what
    they saw. -/
theorem CacheInv.flushed (h : CacheInv f touched) :
    CacheInv g touched ∧ (∀ i fr p, Caches g i fr p → fr.dirty = false) ∧ SameView f g := by
  have hnum : g.wal.data.num_pages = f.wal.data.num_pages := by rw [hdata]
  have hin : ∀ u ∈ dirty_pages f.bp.frames, u.1 < f.wal.data.file.length :=
    fun u hu => (h.dirty_lt u hu).trans_le hlen
  have hflushed : ∀ {i p : Nat} {fr : Frame}, Caches f i fr p → Caches g i fr.flushed p ∧
      fr.flushed.data = fr.data ∧ fr.flushed.pin_count = fr.pin_count := by
    intro i p fr hc
    obtain ⟨hvalid, hid, hkept⟩ := fr.flushed_keeps
    exact ⟨⟨by rw [hframes, getElem?_map, hc.at_index]; rfl, hvalid.trans hc.valid,
      hid.trans hc.page_id⟩, hkept⟩
  have hpool' : CacheInv g touched := by
    refine ⟨?_, ?_, ?_, ?_⟩
    · intro i fr p hc
      obtain ⟨-, fr0, hc0, -⟩ := caches_flushed hframes hc
      rw [hnum]
      exact h.counted i fr0 p hc0
    · intro i j fr fr' p hc hc'
      obtain ⟨-, fr0, hc0, -⟩ := caches_flushed hframes hc
      obtain ⟨-, fr1, hc1, -⟩ := caches_flushed hframes hc'
      exact h.unique i j fr0 fr1 p hc0 hc1
    · intro i fr p hc _ ht
      obtain ⟨-, fr0, hc0, hd⟩ := caches_flushed hframes hc
      rw [hdata, ← h.view_eq ((h.counted i fr0 p hc0).trans_le hlen) ht, h.view_cached hc0, hd]
    · intro p hp
      obtain ⟨i, fr, hc, hpin⟩ := h.held p hp
      obtain ⟨hc', -, hpins⟩ := hflushed hc
      exact ⟨i, fr.flushed, hc', hpins ▸ hpin⟩
  refine ⟨hpool', fun i fr p hc => (caches_flushed hframes hc).1, fun q => ?_, hnum⟩
  cases hcell : f.cell q with
  | some fr =>
    obtain ⟨i, hc⟩ := caches_of_cell hcell
    obtain ⟨hc', hsame, -⟩ := hflushed hc
    rw [hpool'.view_cached hc', h.view_cached hc, hsame]
  | none =>
    have hno : ∀ i fr, ¬ Caches f i fr q := fun i fr hc => by
      cases hcell.symm.trans (h.cell_iff.2 ⟨i, hc⟩)
    rw [view_uncached hno, view_uncached fun i fr hc => ?_, hdata]
    · rcases lt_or_ge q f.wal.data.file.length with hq | hq
      · rw [getElem?_write_all hq, last_write_uncached hno]
        rfl
      · rw [getElem?_eq_none hq,
          getElem?_eq_none (by rw [length_write_all_of_lt _ hin]; exact hq)]
    · obtain ⟨-, fr0, hc0, -⟩ := caches_flushed hframes hc
      exact hno i fr0 hc0

theorem PoolInv.flushed (h : PoolInv f touched) :
    PoolInv g touched ∧ (∀ i fr p, Caches g i fr p → fr.dirty = false) ∧ SameView f g := by
  obtain ⟨hcache, hclean, hsame⟩ := h.toCacheInv.flushed hlen hframes hdata
  exact ⟨⟨hcache, by rw [hframes, length_map]; exact h.size⟩, hclean, hsame⟩

end Flushed

variable (h : FileInv s hist cur)

include h

/-- The file after a flush, whatever became of its log. -/
theorem FileInv.flushed (ht : s.touched = [])
    (hframes : g.bp.frames = s.file.bp.frames.map Frame.flushed)
    (hmode : g.bp.no_steal = false ∧ g.bp.steal_fn = false)
    (hdata : g.wal.data = ⟨write_all Page.zero s.file.wal.data.file (dirty_pages s.file.bp.frames),
      s.file.wal.data.num_pages⟩) {hist' : List Rec}
    (hdisk : DiskInv g.wal.disk s.file.pages hist' [])
    (hbelow : ∀ u ∈ (scan .init hist').redone, u.1 < s.file.wal.data.num_pages) :
    FileInv ⟨g, false, s.file.pages, []⟩ hist' [] ∧ SameView s.file g := by
  have hpool : PoolInv s.file [] := ht ▸ h.pool
  have hnum : g.wal.data.num_pages = s.file.wal.data.num_pages := by rw [hdata]
  obtain ⟨hpool', hclean, hview⟩ := hpool.flushed h.sess.pages hframes hdata
  have hlen : g.wal.data.file.length = g.wal.data.num_pages := by
    have hin : ∀ u ∈ dirty_pages s.file.bp.frames, u.1 < s.file.wal.data.file.length :=
      fun u hu => h.file_lt (hpool.dirty_lt u hu)
    rw [hdata, length_write_all_of_lt _ hin]
    exact h.whole.counted
  have hwhole : Whole ⟨g.wal, false, s.file.pages⟩ hist' := by
    have hcount : s.file.pages.length = g.wal.data.num_pages := (length_pages _).trans hnum.symm
    refine ⟨fun u hu => ?_, hlen, fun _ => hcount.symm, by simp, fun _ p x hp hx => ?_⟩
    · rw [length_pages]
      exact hbelow u hu
    · have := (List.getElem?_eq_some_iff.mp hx).1
      change s.file.pages.length ≤ p at hp
      change p < g.wal.data.file.length at this
      omega
  refine ⟨⟨⟨hdisk, ?_, ?_, fun _ => rfl, by simp [FileState.session]⟩, hpool', hmode, ?_, by simp,
    hwhole⟩, hview⟩
  · have hpages : s.file.wal.data.num_pages ≤ s.file.wal.data.file.length := h.sess.pages
    have := length_write_all_le Page.zero s.file.wal.data.file (dirty_pages s.file.bp.frames)
    simp only [FileState.session, hdata]
    omega
  · simp only [FileState.session, length_pages, hnum]
    exact le_rfl
  · intro _ i fr p hc hd
    simp [hclean i fr p hc] at hd

/-- What a commit does to one file. -/
structure CommitSpec (s s' : FileState) : Prop where
  view : SameView s.file s'.file
  disk : s'.file.wal.disk = s.file.wal.disk.run (flush_commit_io s.file)
  /-- A stop anywhere inside leaves the old pages or the new ones. -/
  stops : Stops s.file.wal.disk (flush_commit_io s.file)
    fun d => Reopens d s.committed ∨ Reopens d s'.committed
  /-- With nothing to commit, old and new pages are reopened alike. -/
  unchanged : s.file.changed = false → flush_commit_io s.file = [] ∧
    Reopens s.file.wal.disk s.committed ∧ Reopens s.file.wal.disk s'.committed
  /-- After the commit the new pages are reopened. -/
  done : Reopens s'.file.wal.disk s'.committed

theorem FileInv.commit (hs : s.step .commit = some s')
    (hok : commit_ok s.file) : (∃ hist', FileInv s' hist' []) ∧ CommitSpec s s' := by
  simp only [FileState.step] at hs
  split at hs
  case isFalse => cases hs
  next hact =>
  obtain ⟨hact, ht⟩ := hact
  cases hs
  obtain ⟨hmark, hfresh⟩ := hok
  have hfi := h.fresh_images hfresh
  have hpages := h.pages_eq ht
  cases hany : s.file.bp.frames.any Frame.pending with
  | true =>
    have hmax : ∀ u ∈ (staged_wal s.file).staged, u.1 < MAX_PAGES :=
      fun u hu => h.max_lt (h.pool.dirty_lt u hu)
    obtain ⟨-, hdisk, hdata⟩ := wal_commit_data hmax
    have hio : flush_commit_io s.file = wal_commit_io (staged_wal s.file) := by
      simp [flush_commit_io, hany]
    obtain ⟨hstops, hist', hredo, hdone⟩ := h.sess.disk.commit h.staged_ok hfi
      (staged_wal s.file).next_lsn
      ((staged_wal s.file).disk.run (commit_log_io (staged_wal s.file))).log.length
    have hcommitted : (write_all Page.zero s.session.wal.disk.data
        (dirty_pages s.file.bp.frames)).take s.file.wal.data.num_pages = s.file.pages := hpages.symm
    rw [hcommitted] at hstops hdone
    have hfile : commit_file s.file = end_write { s.file with
        wal := (wal_commit (staged_wal s.file)).1
        bp := { s.file.bp with frames := s.file.bp.frames.map Frame.flushed } } := by
      rw [commit_file, h.pool.wal_flush_commit h.writable.bound, hany]
      rfl
    have hdisk' : (commit_file s.file).wal.disk =
        s.file.wal.disk.run (wal_commit_io (staged_wal s.file)) := by
      rw [hfile]
      exact hdisk
    have hd : DiskInv (commit_file s.file).wal.disk s.file.pages hist' [] := by
      rw [hdisk']
      exact hdone
    obtain ⟨hinv, hview⟩ := h.flushed ht (g := commit_file s.file) (by rw [hfile]; rfl)
      (by rw [hfile]; exact ⟨rfl, rfl⟩) (by rw [hfile]; exact hdata) hd (by
        intro u hu
        rcases hredo u hu with hu | hu
        · exact lt_of_lt_of_le (h.whole.below u hu) h.sess.counted
        · exact h.pool.dirty_lt u hu)
    refine ⟨⟨hist', hinv⟩, hview, by rw [hio]; exact hdisk', ?_, by simp [PagedFile.changed, hany],
      hinv.reopens⟩
    rw [hio]
    exact Stops.mono (fun d => Or.imp (h.reopens_open hact) h.reopens_closed) hstops
  | false =>
    have hst : s.file.wal.stole = false := by simpa [hany] using hmark
    have hcur : cur = [] := (h.sess.txn hact).unbegun hst
    subst hcur
    have hnil := (dirty_pages_any _).mp hany
    have hio : flush_commit_io s.file = [] := by simp [flush_commit_io, hany]
    have hfile : commit_file s.file = end_write { s.file with
        wal := wal_begin s.file.wal
        bp := { s.file.bp with frames := s.file.bp.frames.map Frame.flushed } } := by
      rw [commit_file, h.pool.wal_flush_commit h.writable.bound, hany]
      rfl
    have hdisk' : (commit_file s.file).wal.disk = s.file.wal.disk := by
      rw [hfile]
      rfl
    rw [hnil] at hfi hpages
    have hre : DiskInv s.file.wal.disk s.file.pages hist [] := by
      rw [hpages]
      exact h.sess.disk.recommit hfi
    obtain ⟨hinv, hview⟩ := h.flushed ht (g := commit_file s.file) (by rw [hfile]; rfl)
      (by rw [hfile]; exact ⟨rfl, rfl⟩) (by rw [hfile, hnil]; rfl) (hdisk'.symm ▸ hre)
      fun u hu => lt_of_lt_of_le (h.whole.below u hu) h.sess.counted
    refine ⟨⟨hist, hinv⟩, hview, by rw [hio]; exact hdisk', ?_, fun _ => ⟨hio, h.reopens, ?_⟩,
      hinv.reopens⟩
    · rw [hio]
      exact Stops.nil (.inl h.reopens)
    · rw [← hdisk']
      exact hinv.reopens

/-! ### Rollback -/

omit h in
/-- The pages of a truncated file below the cut. -/
theorem DiskInv.truncate_idle (h : DiskInv d C hist []) {n : Nat} (hn : n ≤ d.data.length) :
    DiskInv { d with data := resize Page.zero d.data n } (C.take n) hist [] where
  __ := h
  bound := by have := h.bound; simp; omega
  count := by simp
  images := (h.take n).images
  undo_lt := by simp [undo_images]
  undo_nodup := by simp [undo_images]
  undo_val := by simp [undo_images]
  keep := fun p hp hnot => by
    have hp' : p < n ∧ p < C.length := by simpa using hp
    have hlt := lt_of_lt_of_le hp'.2 h.count
    rw [getElem?_resize hp'.1 hlt]
    exact (h.take n).keep p hp hnot
  base := by simp [last_base]

omit h in
/-- No frame survives `bufpool_invalidate_all`. -/
theorem not_caches_invalidate_all (f : PagedFile) (i : Nat) (fr : Frame) (p : Nat) :
    ¬ Caches (bufpool_invalidate_all f) i fr p := by
  intro hc
  have hget := hc.at_index
  simp only [bufpool_invalidate_all, invalidate, if_true, getElem?_map,
    Option.map_eq_some_iff] at hget
  obtain ⟨fr0, -, rfl⟩ := hget
  cases hc.valid

/-- The undo counts the pages of the first write at least, and they are there. -/
theorem FileInv.undo_pages (hact : s.active = true) :
    s.file.txn_pages ≤ (wal_undo s.file.wal).1.data.num_pages ∧
      (wal_undo s.file.wal).1.data.num_pages ≤ (wal_undo s.file.wal).1.data.file.length := by
  have hstep : s.session.step .undo = some ⟨(wal_undo s.file.wal).1, false, s.committed⟩ := by
    simp [Session.step, FileState.session, hact]
  have hbn : s.file.wal.base_pages ≤ s.file.wal.data.num_pages := (h.sess.txn hact).base_le
  refine ⟨?_, (h.sess.undo hstep).1.pages⟩
  rw [h.base hact]
  unfold wal_undo
  split
  · next hst =>
    have hscan := h.sess.undo_scan_eq hact hst
    change undo_scan s.file.wal = (undo_images cur, some s.file.wal.base_pages) at hscan
    simp only [hscan]
    cases hcut : truncate_to (some s.file.wal.base_pages) s.file.wal.data.num_pages with
    | none => exact hbn
    | some m =>
      obtain ⟨rfl, -⟩ := truncate_to_some hcut
      exact le_rfl
  · exact hbn

/-- A rollback: the clients see the committed pages again. -/
theorem FileInv.abort (hs : s.step .abort = some s') :
    FileInv s' hist [] ∧ s'.committed = s.committed ∧
      (∀ p < s.committed.length, s'.file.view p = s.committed[p]?) := by
  simp only [FileState.step] at hs
  split at hs
  case isFalse => cases hs
  next hact =>
  cases hs
  have ht := h.sess.txn hact
  have hbase := h.base hact
  have hstep : s.session.step .undo = some ⟨(wal_undo s.file.wal).1, false, s.committed⟩ := by
    simp [Session.step, FileState.session, hact]
  obtain ⟨hu, -, -⟩ := h.sess.undo hstep
  set w := (wal_undo s.file.wal).1 with hw
  have hcount : s.committed.length ≤ s.file.txn_pages := hbase ▸ ht.committed_le
  -- the undo has cut the file to the base already, or it counts the base pages anyway
  have hle : s.file.txn_pages ≤ w.data.file.length :=
    (h.undo_pages hact).1.trans (h.undo_pages hact).2
  have hdisk : DiskInv { w.disk with data := resize Page.zero w.data.file s.file.txn_pages }
      s.committed hist [] := by
    have := hu.disk.truncate_idle (n := s.file.txn_pages) hle
    rwa [take_of_length_le hcount] at this
  have hdata : (abort_file s.file).wal.data =
      ⟨resize Page.zero w.data.file s.file.txn_pages, s.file.txn_pages⟩ := rfl
  have hno : ∀ i fr p, ¬ Caches (abort_file s.file) i fr p := fun i fr p hc =>
    not_caches_invalidate_all { s.file with wal := w } i fr p ⟨hc.1, hc.2, hc.3⟩
  have hexact : s.file.txn_pages = s.committed.length := hbase.trans (h.whole.base hact)
  have hwhole : Whole ⟨(abort_file s.file).wal, false, s.committed⟩ hist := by
    refine ⟨h.whole.below, by simp [hdata], fun _ => hexact, by simp, fun _ p x hp hx => ?_⟩
    have hlt := (List.getElem?_eq_some_iff.mp hx).1
    simp only [hdata, length_resize] at hlt
    change s.committed.length ≤ p at hp
    omega
  refine ⟨⟨⟨hdisk, ?_, hcount, fun _ => rfl, by simp [FileState.session]⟩, ?_, ⟨rfl, rfl⟩, ?_,
    by simp, hwhole⟩, rfl, fun p hp => ?_⟩
  · simp only [FileState.session, hdata, length_resize]
    exact le_rfl
  · refine ⟨.of_empty hno, ?_⟩
    have : (abort_file s.file).bp.frames.length = s.file.bp.frames.length := by
      simp [abort_file, end_write, bufpool_set_steal_handler, bufpool_set_no_steal,
        bufpool_invalidate_all, invalidate]
    rw [this]
    exact h.pool.size
  · exact fun _ i fr p hc => absurd hc (hno i fr p)
  · rw [view_uncached fun i fr => hno i fr p, hdata]
    exact hdisk.keep p hp (by simp [undo_images])

/-! ### Runs -/

/-- The side condition of a run: commits are in order. -/
def step_ok (s : FileState) (a : FileAct) : Prop := a = .commit → commit_ok s.file

/-- A client operation leaves the closed part of the log alone. -/
theorem FileInv.op {o : FileOp} (hs : s.step (.op o) = some s') :
    ∃ cur', FileInv s' hist cur' := by
  cases o with
  | fetch p =>
    simp only [FileState.step] at hs
    split at hs
    · next hp =>
      cases hs
      exact (h.fetch p).1
    · cases hs
  | new_page => exact (h.new_page hs).1
  | store p buf => exact ⟨cur, (h.store hs).1⟩
  | unpin p d => exact ⟨cur, (h.unpin hs).1⟩

theorem FileInv.step {a : FileAct} (hok : step_ok s a)
    (hs : s.step a = some s') : ∃ hist' cur', FileInv s' hist' cur' := by
  cases a with
  | begin => exact ⟨hist, cur, h.begin hs⟩
  | op o => exact ⟨hist, h.op hs⟩
  | commit =>
    obtain ⟨⟨hist', hinv⟩, -⟩ := h.commit hs (hok rfl)
    exact ⟨hist', [], hinv⟩
  | abort => exact ⟨hist, [], (h.abort hs).1⟩

/-- A file opened over `num_frames` frames. -/
def open_file (d : Disk) (num_frames : Nat) : PagedFile :=
  { wal := wal_open d, bp := bufpool_create num_frames, txn_pages := 0 }

def FileState.opened (d : Disk) (num_frames : Nat) : FileState :=
  { file := open_file d num_frames, active := false, committed := (wal_open d).data.pages,
    touched := [] }

/-- Recovery finds no after-image past the end of the file, so that every page
    of the recovered file is counted. -/
def Disk.sound (d : Disk) : Prop :=
  d.data.length ≤ MAX_PAGES ∧ (wal_open d).data.file.length = (wal_open d).data.num_pages

omit h

/-- A new pool holds no page. -/
theorem not_caches_open (d : Disk) (num_frames i : Nat) (fr : Frame) (p : Nat) :
    ¬ Caches (open_file d num_frames) i fr p := by
  intro hc
  have hmem := mem_of_getElem? hc.at_index
  have heq : fr = Frame.empty := by
    simpa [open_file, bufpool_create] using (mem_replicate.mp hmem).2
  have hv := hc.valid
  simp [heq, Frame.empty] at hv

theorem FileInv.opened {num_frames : Nat} (hd : d.sound) (hframes : num_frames ≤ WAL_MAX_STAGED) :
    FileInv (FileState.opened d num_frames) [] [] := by
  have hno : ∀ i fr p, ¬ Caches (open_file d num_frames) i fr p := not_caches_open d num_frames
  have hwhole : Whole (FileState.opened d num_frames).session [] := by
    have hcount : (wal_open d).data.num_pages = (wal_open d).data.pages.length := by
      simp [Pager.pages, hd.2]
    refine ⟨by simp [RedoBelow, Scan.init], hd.2, fun _ => hcount, by simp [FileState.opened,
      FileState.session], fun _ p x hp hx => ?_⟩
    have hlt : p < (wal_open d).data.file.length := (List.getElem?_eq_some_iff.mp hx).1
    change (wal_open d).data.pages.length ≤ p at hp
    have := hd.2
    omega
  refine ⟨session_open_inv hd.1, ?_, ⟨rfl, rfl⟩, fun _ i fr p hc => absurd hc (hno i fr p), by
    simp [FileState.opened], hwhole⟩
  exact ⟨.of_empty hno, by simpa [FileState.opened, open_file, bufpool_create] using hframes⟩

end MiniDb
