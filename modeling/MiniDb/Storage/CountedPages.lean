import MiniDb.Storage.CommitAtomic

/-! # The pages a file counts

  The frames of a pool hold counted pages, and the counted pages are in the
  file.  This is all the operations on a page need, and the steps of a file
  keep it whatever the log holds: a rollback cuts the file to the pages of the
  first write, and nothing else makes it shorter. -/

namespace MiniDb

open Framework List Option

structure Counted (f : PagedFile) : Prop where
  file : f.wal.data.num_pages ≤ f.wal.data.file.length
  bound : f.wal.data.num_pages ≤ MAX_PAGES
  frames : ∀ fr ∈ f.bp.frames, fr.valid = true → fr.page_id < f.wal.data.num_pages

/-- An operation has led from `f` to `f'`: pages only come, and the notes of the
    first write and the mode of the pool stay. -/
structure Extends (f f' : PagedFile) : Prop where
  counted : Counted f'
  pages : f.wal.data.num_pages ≤ f'.wal.data.num_pages
  base : f'.wal.base_pages = f.wal.base_pages
  txn : f'.txn_pages = f.txn_pages
  mode : f'.bp.no_steal = f.bp.no_steal ∧ f'.bp.steal_fn = f.bp.steal_fn

variable {f f' f'' : PagedFile} (w : Wal) {s s' : FileState}

theorem Extends.refl (h : Counted f) : Extends f f := ⟨h, le_rfl, rfl, rfl, rfl, rfl⟩

theorem Extends.trans (h : Extends f f') (h' : Extends f' f'') : Extends f f'' where
  counted := h'.counted
  pages := h.pages.trans h'.pages
  base := h'.base.trans h.base
  txn := h'.txn.trans h.txn
  mode := ⟨h'.mode.1.trans h.mode.1, h'.mode.2.trans h.mode.2⟩

/-- Counters and clock of the pool. -/
theorem Extends.with_bp (h : Extends f f') {bp : BufferPool} (hframes : bp.frames = f'.bp.frames)
    (hmode : bp.no_steal = f'.bp.no_steal ∧ bp.steal_fn = f'.bp.steal_fn) :
    Extends f { f' with bp := bp } where
  counted := ⟨h.counted.file, h.counted.bound, by rw [hframes]; exact h.counted.frames⟩
  __ := h
  mode := ⟨hmode.1.trans h.mode.1, hmode.2.trans h.mode.2⟩

/-! ### The operations -/

variable (h : Counted f)

include h

theorem Counted.modify_frame (i : Nat) {g : Frame → Frame}
    (hg : ∀ fr ∈ f.bp.frames, (g fr).valid = true → (g fr).page_id < f.wal.data.num_pages) :
    Extends f (f.modify_frame i g) := by
  refine ⟨⟨h.file, h.bound, fun fr hfr hv => ?_⟩, le_rfl, rfl, rfl, rfl, rfl⟩
  obtain ⟨j, hj⟩ := mem_iff_getElem?.1 hfr
  rw [show (f.modify_frame i g).bp.frames = f.bp.frames.modify i g from rfl,
    List.getElem?_modify] at hj
  obtain ⟨fr₀, hfr₀, heq⟩ := map_eq_some_iff.1 hj
  have hmem := mem_of_getElem? hfr₀
  split at heq <;> subst heq
  · exact hg fr₀ hmem hv
  · exact h.frames fr₀ hmem hv

omit h in
/-- A steal writes to the log and to one page. -/
theorem wal_steal_pages (p : Nat) (x : Page) :
    (wal_steal w p x).1.data.num_pages = w.data.num_pages ∧
      w.data.file.length ≤ (wal_steal w p x).1.data.file.length ∧
      (wal_steal w p x).1.base_pages = w.base_pages := by
  unfold wal_steal
  dsimp only
  split
  · exact ⟨rfl, length_le_run w.disk (by simp [log_rec]), rfl⟩
  · exact ⟨rfl, length_le_run w.disk (by simp [wal_steal_io, log_rec]), rfl⟩

theorem Counted.evict {v : Frame} (hv : v.page_id < f.wal.data.num_pages) :
    Extends f (MiniDb.evict f v).1 := by
  unfold MiniDb.evict
  split
  · split
    · obtain ⟨hnum, hlen, hbase⟩ := wal_steal_pages f.wal v.page_id v.data
      refine ⟨⟨?_, ?_, ?_⟩, hnum.ge, hbase, rfl, rfl, rfl⟩
      · exact hnum.le.trans (h.file.trans hlen)
      · exact hnum.le.trans h.bound
      · rw [hnum]
        exact h.frames
    · rw [pager_write, if_pos (hv.trans_le h.bound)]
      refine ⟨⟨h.file.trans ?_, h.bound, h.frames⟩, le_rfl, rfl, rfl, rfl, rfl⟩
      simp only [length_write_at]
      exact Nat.le_max_left _ _
  · exact .refl h

theorem Counted.pick_frame : Extends f (MiniDb.pick_frame f).1 := by
  rcases pick_frame_cases f with ⟨i, fr, -, -, heq⟩ | ⟨-, heq⟩ | ⟨i, v, hget, hvalid, -, hcase⟩
  · rw [heq]
    exact .refl h
  · rw [heq]
    exact .refl h
  · have hev := h.evict (h.frames v (mem_of_getElem? hget) hvalid)
    rcases hcase with ⟨-, heq⟩ | ⟨-, heq⟩ <;> rw [heq]
    · exact hev
    · rw [set_frame_eq]
      exact hev.trans (hev.counted.modify_frame i nofun)

theorem Counted.fetch {p : Nat} (hp : p < f.wal.data.num_pages) :
    Extends f (bufpool_fetch f p).1 := by
  unfold bufpool_fetch
  split
  · next i _ =>
    have hpin := h.modify_frame i (g := Frame.pin (f.bp.clock + 1)) fun fr hfr hv =>
      h.frames fr hfr hv
    exact hpin.with_bp rfl ⟨rfl, rfl⟩
  · have hmiss : Extends f { f with bp := { f.bp with misses := f.bp.misses + 1 } } :=
      (Extends.refl h).with_bp rfl ⟨rfl, rfl⟩
    have hpick := hmiss.trans hmiss.counted.pick_frame
    dsimp only
    split
    · exact hpick
    split
    · exact hpick.trans (hpick.counted.modify_frame _ (by simp [Frame.clear]))
    · rw [set_frame_eq]
      refine Extends.with_bp (hpick.trans (hpick.counted.modify_frame _ fun _ _ _ => ?_)) rfl
        ⟨rfl, rfl⟩
      exact hp.trans_le hpick.pages

theorem Counted.new_page : Extends f (bufpool_new_page f).1 := by
  simp only [bufpool_new_page, pager_allocate_eq]
  by_cases hlt : f.wal.data.num_pages < MAX_PAGES
  · simp only [if_pos hlt]
    have hgrown : Extends f { f with wal := { f.wal with data :=
        ⟨write_at Page.zero f.wal.data.file f.wal.data.num_pages Page.zero,
          f.wal.data.num_pages + 1⟩ } } := by
      refine ⟨⟨?_, hlt, fun fr hfr hv => Nat.lt_succ_of_lt (h.frames fr hfr hv)⟩, Nat.le_succ _,
        rfl, rfl, rfl, rfl⟩
      simp only [length_write_at]
      exact Nat.le_max_right _ _
    exact hgrown.trans (hgrown.counted.fetch (Nat.lt_succ_self _))
  · simp only [if_neg hlt]
    exact .refl h

theorem Counted.op (o : FileOp) (ho : ∀ p, o = .fetch p → p < f.wal.data.num_pages) :
    Extends f (o.apply f) := by
  cases o with
  | fetch p => exact h.fetch (ho p rfl)
  | new_page => exact h.new_page
  | store p buf =>
    rw [FileOp.apply, MiniDb.store]
    split
    · exact .refl h
    · refine h.modify_frame _ fun fr hfr hv => ?_
      split at hv <;> rename_i hpin
      · rw [if_pos hpin]
        exact h.frames fr hfr hv
      · rw [if_neg hpin]
        exact h.frames fr hfr hv
  | unpin p d =>
    rw [FileOp.apply, bufpool_unpin]
    split
    · exact .refl h
    · exact h.modify_frame _ fun fr hfr hv => h.frames fr hfr hv

/-! ### The ends of a transaction -/

omit h

/-- Staging the dirty frames changes nothing but the stage and the dirty bits. -/
theorem flush_cb_loop_keeps (frames : List Frame) (n : Int) :
    (∃ staged, (flush_cb_loop w frames n).1 = { w with staged := staged }) ∧
      ∀ fr ∈ (flush_cb_loop w frames n).2.1, ∃ fr₀ ∈ frames,
        fr.valid = fr₀.valid ∧ fr.page_id = fr₀.page_id := by
  induction frames generalizing w n with
  | nil => exact ⟨⟨w.staged, rfl⟩, nofun⟩
  | cons fr frames ih =>
    have hcons : ∀ {fr' : Frame} {rest : List Frame}, fr'.valid = fr.valid →
        fr'.page_id = fr.page_id → (∀ x ∈ rest, ∃ y ∈ frames, x.valid = y.valid ∧
          x.page_id = y.page_id) → ∀ x ∈ fr' :: rest, ∃ y ∈ fr :: frames, x.valid = y.valid ∧
          x.page_id = y.page_id := by
      intro fr' rest hv hid hrest x hx
      rcases mem_cons.1 hx with rfl | hx
      · exact ⟨fr, mem_cons_self, hv, hid⟩
      · obtain ⟨y, hy, hxy⟩ := hrest x hx
        exact ⟨y, mem_cons_of_mem _ hy, hxy⟩
    have hstage : ∃ staged, (wal_stage w fr.page_id fr.data).1 = { w with staged := staged } := by
      unfold wal_stage
      repeat' split
      all_goals exact ⟨_, rfl⟩
    unfold flush_cb_loop
    dsimp only
    split
    · split
      · exact ⟨hstage, fun x hx => ⟨x, hx, rfl, rfl⟩⟩
      · obtain ⟨staged, hw⟩ := hstage
        rw [hw]
        obtain ⟨⟨staged', hw'⟩, hfr⟩ := ih { w with staged := staged } (n + 1)
        exact ⟨⟨staged', hw'⟩, hcons rfl rfl hfr⟩
    · obtain ⟨hw, hfr⟩ := ih w n
      exact ⟨hw, hcons rfl rfl hfr⟩

/-- A commit, also one that fails half way, leaves the page count and cuts nothing off. -/
theorem wal_commit_pages : (wal_commit w).1.data.num_pages = w.data.num_pages ∧
    w.data.file.length ≤ (wal_commit w).1.data.file.length := by
  unfold wal_commit
  split
  · refine ⟨rfl, length_le_run w.disk ?_⟩
    unfold wal_commit_io commit_log_io checkpoint_io
    split <;> simp [log_rec, write_ops]
  · exact ⟨rfl, length_le_run w.disk (by simp [commit_log_io, log_rec, write_ops])⟩

theorem Counted.commit_file (h : Counted f) : Counted (commit_file f) := by
  obtain ⟨⟨staged, hw⟩, hframes⟩ := flush_cb_loop_keeps (wal_begin f.wal) f.bp.frames 0
  have hkept : ∀ w : Wal, w.data.num_pages = f.wal.data.num_pages →
      f.wal.data.file.length ≤ w.data.file.length →
      Counted { f with wal := w, bp := { f.bp with
        frames := (flush_cb_loop (wal_begin f.wal) f.bp.frames 0).2.1 } } := by
    intro w hnum hlen
    refine ⟨hnum.le.trans (h.file.trans hlen), hnum.le.trans h.bound, fun fr hfr hv => ?_⟩
    obtain ⟨fr₀, hfr₀, hvalid, hid⟩ := hframes fr hfr
    rw [hid]
    exact (h.frames fr₀ hfr₀ (hvalid ▸ hv)).trans_le hnum.ge
  have hflush : Counted (wal_flush_commit f).1 := by
    unfold wal_flush_commit bufpool_flush_cb
    dsimp only
    rw [hw]
    split
    · exact hkept _ rfl le_rfl
    split
    · obtain ⟨hnum, hlen⟩ := wal_commit_pages { wal_begin f.wal with staged := staged }
      exact hkept _ hnum hlen
    · exact hkept _ rfl le_rfl
  exact ⟨hflush.file, hflush.bound, hflush.frames⟩

theorem counted_abort_file (h : f.txn_pages ≤ MAX_PAGES) : Counted (abort_file f) where
  file := (length_resize ..).ge
  bound := h
  frames fr hfr hv := by
    -- no frame is left
    obtain ⟨i, hi⟩ := mem_iff_getElem?.1 hfr
    exact absurd ⟨hi, hv, rfl⟩
      (not_caches_invalidate_all { f with wal := (wal_undo f.wal).1 } i fr fr.page_id)

/-! ### States -/

/-- The pool steals exactly in a transaction, which began with no more pages than
    there are now. -/
structure Sized (s : FileState) : Prop where
  counted : Counted s.file
  mode : s.file.bp.no_steal = s.active ∧ s.file.bp.steal_fn = s.active
  base : s.active = true → s.file.wal.base_pages ≤ s.file.wal.data.num_pages
  txn : s.active = true → s.file.txn_pages ≤ MAX_PAGES

theorem Sized.opened {d : Disk} {num_frames : Nat} (hmax : d.data.length ≤ MAX_PAGES) :
    Sized (FileState.opened d num_frames) where
  counted := by
    refine ⟨wal_open_pages d, (wal_open_pages d).trans (wal_open_bound hmax), fun fr hfr hv => ?_⟩
    obtain ⟨i, hi⟩ := mem_iff_getElem?.1 hfr
    exact absurd ⟨hi, hv, rfl⟩ (not_caches_open d num_frames i fr fr.page_id)
  mode := ⟨rfl, rfl⟩
  base := nofun
  txn := nofun

/-- The file after a client operation, and what the operation leaves alone. -/
theorem step_op_file {o : FileOp} (hs : s.step (.op o) = some s') :
    s'.file = o.apply s.file ∧ s'.active = s.active ∧
      ∀ p, o = .fetch p → p < s.file.wal.data.num_pages := by
  cases o with
  | fetch p =>
    obtain ⟨hp, hs⟩ := ite_none_right_eq_some.mp hs
    cases hs
    refine ⟨rfl, rfl, fun q hq => ?_⟩
    cases hq
    exact hp
  | unpin p d =>
    cases d <;>
      (obtain ⟨-, hs⟩ := ite_none_right_eq_some.mp hs
       cases hs
       exact ⟨rfl, rfl, nofun⟩)
  | _ =>
    obtain ⟨-, hs⟩ := ite_none_right_eq_some.mp hs
    cases hs
    exact ⟨rfl, rfl, nofun⟩

theorem Sized.step (h : Sized s) {a : FileAct} (hs : s.step a = some s') :
    Sized s' := by
  cases a with
  | begin =>
    obtain ⟨-, hs⟩ := ite_none_left_eq_some.mp hs
    cases hs
    exact ⟨⟨h.counted.file, h.counted.bound, h.counted.frames⟩, ⟨rfl, rfl⟩, fun _ => le_rfl,
      fun _ => h.counted.bound⟩
  | op o =>
    obtain ⟨hfile, hact, hp⟩ := step_op_file hs
    have hop := h.counted.op o hp
    rw [← hfile] at hop
    refine ⟨hop.counted, ?_, fun hin => ?_, fun hin => ?_⟩
    · rw [hop.mode.1, hop.mode.2, hact]
      exact h.mode
    · rw [hop.base]
      exact (h.base (hact ▸ hin)).trans hop.pages
    · rw [hop.txn]
      exact h.txn (hact ▸ hin)
  | commit =>
    obtain ⟨-, hs⟩ := ite_none_right_eq_some.mp hs
    cases hs
    exact ⟨h.counted.commit_file, ⟨rfl, rfl⟩, nofun, nofun⟩
  | abort =>
    obtain ⟨hin, hs⟩ := ite_none_right_eq_some.mp hs
    cases hs
    exact ⟨counted_abort_file (h.txn hin), ⟨rfl, rfl⟩, nofun, nofun⟩

end MiniDb
