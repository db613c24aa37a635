import MiniDb.Storage.PagedFile

/-! # Runs of a paged file

  `FileState.step` is what a transaction, and readers beside it, can do to one
  file.  Clients keep to the pool's protocol: a page is stored to while it is
  pinned, and the last unpin after a store says that it is dirty.  Outside a
  transaction pages are only read.

  The steps keep `FileInv`; for a commit this takes `commit_ok`, which rules
  out what the log cannot represent. -/

namespace MiniDb

open Framework

inductive FileAct where
  | begin
  | op (o : FileOp)
  | commit
  | abort

def FileState.step (s : FileState) : FileAct → Option FileState
  | .begin => if s.active then none else some { s with file := begin_write s.file, active := true }
  | .op (.fetch p) =>
      if p < s.file.wal.data.num_pages then some { s with file := (bufpool_fetch s.file p).1 }
      else none
  | .op .new_page =>
      if s.active then some { s with file := (bufpool_new_page s.file).1 } else none
  | .op (.store p buf) =>
      if s.file.pins p ≠ 0 ∧ s.active then
        some { s with file := store s.file p buf, touched := p :: s.touched }
      else none
  | .op (.unpin p true) =>
      if s.active then
        some { s with
          file := bufpool_unpin s.file p true
          touched := s.touched.filter (· ≠ p) }
      else none
  | .op (.unpin p false) =>
      if p ∉ s.touched ∨ 2 ≤ s.file.pins p then
        some { s with file := bufpool_unpin s.file p false }
      else none
  | .commit =>
      if s.active ∧ s.touched = [] then
        some { file := commit_file s.file, active := false, committed := s.file.pages, touched := [] }
      else none
  | .abort =>
      if s.active then some { s with file := abort_file s.file, active := false, touched := [] }
      else none

variable {s s' : FileState} {hist cur : List Rec}

/-! ### Client operations -/

variable (h : FileInv s hist cur)

include h

theorem FileInv.begin (hs : s.step .begin = some s') : FileInv s' hist cur := by
  simp only [FileState.step] at hs
  split at hs
  · cases hs
  next hidle =>
  cases hs
  have hstep : s.session.step .begin =
      some ⟨wal_begin s.file.wal, true, s.committed⟩ := by
    simp [Session.step, FileState.session, hidle]
  obtain ⟨hsess, -⟩ := h.sess.begin hstep
  refine ⟨hsess, ⟨h.pool.congr rfl le_rfl fun _ _ _ _ _ => rfl, h.pool.size⟩,
    ⟨rfl, rfl⟩, by simp, fun _ => rfl, h.whole.below, h.whole.counted, by simp [FileState.session],
    fun _ => h.whole.idle (by simpa [FileState.session] using hidle), fun _ p x hp hx => ?_⟩
  -- an idle file ends with the committed pages
  have hlen : s.file.wal.data.file.length = s.committed.length :=
    h.whole.counted.trans (h.whole.idle (by simpa [FileState.session] using hidle))
  have hlt : p < s.file.wal.data.file.length := (List.getElem?_eq_some_iff.mp hx).1
  change s.committed.length ≤ p at hp
  omega

variable {i p : Nat} {fr : Frame}

theorem FileInv.update (g : Frame → Frame) (touched' : List Nat) (hc : Caches s.file i fr p)
    (hv : (g fr).valid = true) (hid : (g fr).page_id = p)
    (hclean : (g fr).dirty = false → p ∉ touched' → s.file.wal.data.file[p]? = some (g fr).data)
    (hsub : ∀ q, q ≠ p → (q ∈ touched' ↔ q ∈ s.touched))
    (hheld : p ∈ touched' → (g fr).pin_count ≠ 0)
    (hidle : s.active = false → ¬ ((g fr).dirty = true ∨ p ∈ touched')) :
    FileInv { s with file := s.file.modify_frame i g, touched := touched' } hist cur ∧
      ∀ q, (s.file.modify_frame i g).view q = if q = p then some (g fr).data else s.file.view q := by
  obtain ⟨hcache, hview, -⟩ := h.pool.update g touched' hc hv hid hclean hsub hheld
  refine ⟨h.modify_frame hcache ?_, hview⟩
  intro hact j fr' q hc' hd
  rcases caches_modify_frame hc' with ⟨hij, hc''⟩ | ⟨fr0, rfl, hfr0, rfl⟩
  · -- another frame, so another page
    have hqp : q ≠ p := by
      rintro rfl
      exact hij (h.pool.unique i j fr fr' q hc hc'')
    exact h.idle_clean hact j fr' q hc'' (hd.imp id fun hq => (hsub q hqp).mp hq)
  · cases hc.at_index.symm.trans hfr0
    obtain rfl : p = q := hid.symm.trans hc'.page_id
    exact hidle hact hd

theorem FileInv.store {buf : Page} (hs : s.step (.op (.store p buf)) = some s') :
    FileInv s' hist cur ∧ s'.committed = s.committed ∧
      ∀ q, s'.file.view q = if q = p then some buf else s.file.view q := by
  simp only [FileState.step] at hs
  split at hs
  case isFalse => cases hs
  next hok =>
  obtain ⟨hpins, hw⟩ := hok
  cases hs
  cases hfind : find_frame s.file.bp p with
  | none => simp [PagedFile.pins, hfind] at hpins
  | some i =>
    obtain ⟨fr, hc⟩ := find_frame_caches hfind
    have hpin : fr.pin_count ≠ 0 := h.pool.pins_of_caches hc ▸ hpins
    set g := fun fr : Frame => if fr.pin_count = 0 then fr else { fr with data := buf }
    have hg : g fr = { fr with data := buf } := if_neg hpin
    have heq : MiniDb.store s.file p buf = s.file.modify_frame i g := by
      simp only [MiniDb.store, hfind]
      rfl
    rw [heq]
    obtain ⟨hinv, hview⟩ := h.update g (p :: s.touched) hc
      (by rw [hg]; exact hc.valid) (by rw [hg]; exact hc.page_id) (by simp) (by
        intro q hq
        simp [hq]) (fun _ => by rw [hg]; exact hpin) (by
        intro hidle
        cases hw.symm.trans hidle)
    refine ⟨hinv, rfl, fun q => ?_⟩
    rw [hview q, hg]

theorem FileInv.unpin {is_dirty : Bool} (hs : s.step (.op (.unpin p is_dirty)) = some s') :
    FileInv s' hist cur ∧ s'.committed = s.committed ∧ SameView s.file s'.file := by
  set g := fun fr : Frame =>
    { fr with dirty := fr.dirty || is_dirty, pin_count := fr.pin_count - 1 } with hg
  -- with no frame for the page, and so no store to it, nothing happens
  have hnone : find_frame s.file.bp p = none → ∀ touched', (∀ q, q ∈ touched' ↔ q ∈ s.touched) →
      FileInv { s with file := bufpool_unpin s.file p is_dirty, touched := touched' } hist cur ∧
      SameView s.file (bufpool_unpin s.file p is_dirty) := by
    intro hfind touched' hiff
    have heq : bufpool_unpin s.file p is_dirty = s.file := by simp [bufpool_unpin, hfind]
    rw [heq]
    refine ⟨⟨h.sess, ⟨⟨h.pool.counted, h.pool.unique, ?_, ?_⟩, h.pool.size⟩, h.mode, ?_, h.base,
      h.whole⟩, fun _ => rfl, rfl⟩
    · exact fun i fr q hc hd hq => h.pool.clean i fr q hc hd fun hq' => hq ((hiff q).mpr hq')
    · exact fun q hq => h.pool.held q ((hiff q).mp hq)
    · exact fun hact i fr q hc hd => h.idle_clean hact i fr q hc (hd.imp id (hiff q).mp)
  have hview : ∀ {i fr}, Caches s.file i fr p → ∀ {f' : PagedFile},
      (∀ q, f'.view q = if q = p then some (g fr).data else s.file.view q) →
      f'.wal.data.num_pages = s.file.wal.data.num_pages → SameView s.file f' := by
    intro i fr hc f' hv hn
    refine ⟨fun q => ?_, hn⟩
    rw [hv q]
    split
    · next heq => rw [heq, h.pool.view_cached hc]
    · rfl
  cases hd : is_dirty with
  | true =>
    subst hd
    simp only [FileState.step] at hs
    split at hs
    case isFalse => cases hs
    next hw =>
    cases hs
    cases hfind : find_frame s.file.bp p with
    | none =>
      have hnot : p ∉ s.touched := by
        intro hp
        obtain ⟨i, fr, hc, -⟩ := h.pool.held p hp
        exact not_caches_of_find_frame hfind hc
      obtain ⟨hinv, hsame⟩ := hnone hfind (s.touched.filter (· ≠ p)) (by
        intro q
        simp only [List.mem_filter, decide_eq_true_eq, ne_eq, and_iff_left_iff_imp]
        rintro hq rfl
        exact hnot hq)
      exact ⟨hinv, rfl, hsame⟩
    | some i =>
      obtain ⟨fr, hc⟩ := find_frame_caches hfind
      have heq : bufpool_unpin s.file p true = s.file.modify_frame i g := by
        simp only [bufpool_unpin, hfind]
        rfl
      obtain ⟨hinv, hv⟩ := h.update g (s.touched.filter (· ≠ p)) hc hc.valid hc.page_id
        (by simp [hg]) (by intro q hq; simp [hq]) (by simp) (by
          intro hidle
          cases hw.symm.trans hidle)
      rw [heq]
      exact ⟨hinv, rfl, hview hc hv rfl⟩
  | false =>
    subst hd
    simp only [FileState.step] at hs
    split at hs
    case isFalse => cases hs
    next hok =>
    cases hs
    cases hfind : find_frame s.file.bp p with
    | none =>
      obtain ⟨hinv, hsame⟩ := hnone hfind s.touched fun _ => Iff.rfl
      exact ⟨hinv, rfl, hsame⟩
    | some i =>
      obtain ⟨fr, hc⟩ := find_frame_caches hfind
      have heq : bufpool_unpin s.file p false = s.file.modify_frame i g := by
        simp only [bufpool_unpin, hfind]
        rfl
      obtain ⟨hinv, hv⟩ := h.update g s.touched hc hc.valid hc.page_id
        (by
          intro hdirty hq
          exact h.pool.clean i fr p hc (by simpa [hg] using hdirty) hq)
        (fun _ _ => Iff.rfl)
        (by
          intro hp
          have h2 := hok.resolve_left (not_not_intro hp)
          rw [h.pool.pins_of_caches hc] at h2
          simp only [hg]
          omega)
        (by
          intro hact hdp
          exact h.idle_clean hact i fr p hc (by simpa [hg] using hdp))
      rw [heq]
      exact ⟨hinv, rfl, hview hc hv rfl⟩

/-- A new page is zero; the others keep their content. -/
theorem FileInv.new_page (hs : s.step (.op .new_page) = some s') :
    (∃ cur', FileInv s' hist cur') ∧ s'.committed = s.committed ∧
      ∀ q < s.file.wal.data.num_pages, s'.file.view q = s.file.view q := by
  obtain ⟨hact, hs⟩ := Option.ite_none_right_eq_some.mp hs
  cases hs
  by_cases hlt : s.file.wal.data.num_pages < MAX_PAGES
  · obtain ⟨g, halloc, hg, hnext, hnum, hview⟩ := h.writable.allocate hlt
    have hdata := (pager_allocate_eq s.file.wal.data).symm.trans halloc
    rw [if_pos hlt, Prod.mk.injEq] at hdata
    have hstep : s.session.step .alloc = some ⟨g.wal, s.active, s.committed⟩ := by
      rw [hg]
      simp only [Session.step, FileState.session, halloc]
    obtain ⟨hsess, -, -⟩ := h.sess.alloc hstep
    have hwhole : Whole ⟨g.wal, s.active, s.committed⟩ hist := by
      refine ⟨h.whole.below, hnext.file, ?_, ?_, ?_⟩
      · intro hidle
        cases hact.symm.trans hidle
      · rw [hg]
        exact h.whole.base
      · intro hst p x hp hx
        change g.wal.data.file[p]? = some x at hx
        rw [← hdata.1, getElem?_write_at_inside h.writable.file.ge] at hx
        split at hx
        · exact (Option.some.inj hx).symm
        · rw [hg] at hst
          exact h.whole.tail hst p x hp hx
    have hinv : FileInv { s with file := g } hist cur := by
      refine ⟨hsess, ⟨hnext.cache, ?_⟩, ?_, fun hact i fr q hc => ?_, ?_, hwhole⟩
      · rw [hg]
        exact h.pool.size
      · rw [hg]
        exact h.mode
      · exact h.idle_clean hact i fr q (hc.congr (by rw [hg]))
      · rw [hg]
        exact h.base
    obtain ⟨hfetch, hsame⟩ := hinv.fetch s.file.wal.data.num_pages
    have heq : (bufpool_new_page s.file).1 = (bufpool_fetch g s.file.wal.data.num_pages).1 := by
      rw [bufpool_new_page, halloc, ← hg]
    rw [heq]
    exact ⟨hfetch, rfl, fun q hq => (hsame.view q).trans ((hview q).trans (if_neg hq.ne))⟩
  · have heq : (bufpool_new_page s.file).1 = s.file := by
      simp only [bufpool_new_page, pager_allocate_eq]
      rw [if_neg hlt]
    rw [heq]
    exact ⟨⟨cur, h⟩, rfl, fun _ _ => rfl⟩

end MiniDb
