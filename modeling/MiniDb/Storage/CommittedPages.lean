import MiniDb.Storage.LogRecords

/-! # The committed content of a running primary

  Pages that were allocated and never written are zero pages, so a file and a
  list of committed pages are compared with the zero page as default
  (`content`).  In a run in which every commit stages the pages it has stolen,
  a page that the open transaction has not stolen has its committed content in
  the file, and a commit changes exactly the staged pages.

  `PrimaryInv` carries a list of pages that recovery and rollback restore: the
  pages the pager counted when the transaction began. -/

namespace MiniDb

open Framework List

/-- Page `p`; a page that is not there is a zero page. -/
def content (f : List Page) (p : Nat) : Page := f.getD p Page.zero

theorem content_of_le {f : List Page} {p : Nat} (h : f.length ≤ p) : content f p = Page.zero :=
  getD_eq_default _ _ h

theorem content_congr {f g : List Page} {p : Nat} (h : f[p]? = g[p]?) :
    content f p = content g p := by
  simp only [content, getD_eq_getElem?_getD, h]

theorem content_write_all (f : List Page) (us : List StagedPage) (p : Nat) :
    content (write_all Page.zero f us) p = (last_write us p).getD (content f p) :=
  getD_write_all _ _ _ _

/-- The pages stolen by the open transaction. -/
def Session.open_spilled (s : Session) : List Nat := if s.in_txn then s.wal.spilled else []

/-- `B` are the pages that a rollback or a recovery restores. -/
structure PrimaryInv (s : Session) (B : List Page) (hist cur : List Rec) : Prop where
  inv : SessionInv { s with committed := B } hist cur
  below : RedoBelow { s with committed := B } hist
  exact : s.wal.data.file.length = s.wal.data.num_pages
  base : s.in_txn = true → B.length = s.wal.base_pages
  unspilled : s.in_txn = true → s.wal.stole = false → s.wal.spilled = []
  restored : ∀ p, content B p = content s.committed p
  kept : ∀ p ∉ s.open_spilled, content s.wal.data.file p = content s.committed p

/-- Between transactions any counted content may be the one to restore. -/
theorem SessionInv.rebase {s : Session} {hist : List Rec} (h : SessionInv s hist [])
    (hbelow : RedoBelow s hist) (hexact : s.wal.data.file.length = s.wal.data.num_pages)
    (hin : s.in_txn = false) :
    SessionInv { s with committed := s.wal.data.file } hist [] where
  disk :=
    { h.disk with
      count := le_rfl
      images := fun p _ x hx => by
        have hp := hbelow _ (mem_of_last_write hx)
        rw [← h.disk.images p hp x hx]
        exact h.disk.keep p hp (by simp [undo_images])
      undo_val := by simp [undo_images]
      keep := fun _ _ _ => rfl
      base := by simp [last_base] }
  pages := h.pages
  counted := hexact.le
  idle _ := rfl
  txn hin' := by simp [hin] at hin'

/-- No call but a commit looks at the ghost field. -/
theorem step_ghost {s s' : Session} {c : Call} (hs : s.step c = some s') (hc : c ≠ .commit)
    (B : List Page) : { s with committed := B }.step c = some { s' with committed := B } := by
  cases c with
  | alloc =>
    obtain ⟨hlt, rfl⟩ := step_alloc_eq hs
    simp [Session.step, pager_allocate_eq, hlt]
  | begin =>
    obtain ⟨hin, rfl⟩ := step_begin_eq hs
    simp [Session.step, hin]
  | steal page_id buf =>
    obtain ⟨hok, hrc, rfl⟩ := step_take_eq hs
    simp only [Session.step, if_pos hok, Session.take, if_pos hrc]
  | stage page_id buf =>
    obtain ⟨hok, hrc, rfl⟩ := step_take_eq hs
    simp only [Session.step, if_pos hok, Session.take, if_pos hrc]
  | commit => exact absurd rfl hc
  | undo =>
    obtain ⟨hin, rfl⟩ := step_undo_eq hs
    simp [Session.step, hin]

/-- A steal writes its page to the file. -/
theorem wal_steal_data {w : Wal} {page_id : Nat} {buf : Page}
    (h : (wal_steal w page_id buf).2 = 0) :
    (wal_steal w page_id buf).1.data =
        ⟨write_at Page.zero w.data.file page_id buf, w.data.num_pages⟩ ∧
      (wal_steal w page_id buf).1.stole = true ∧
      (wal_steal w page_id buf).1.base_pages = w.base_pages ∧
      ∀ p, p ∈ (wal_steal w page_id buf).1.spilled ↔ p ∈ w.spilled ∨ p = page_id := by
  rcases hundo : steal_undo w (w.next_lsn + (steal_begin w).length) page_id with _ | undo
  · simp [wal_steal, hundo] at h
  · have hmax : page_id < MAX_PAGES := by
      by_contra hge
      simp [wal_steal, hundo, hge] at h
    simp only [wal_steal, hundo, Wal.io]
    refine ⟨?_, trivial, trivial, fun p => ?_⟩
    · rw [wal_steal_io, Disk.run_append, run_log_recs]
      simp [Disk.apply, hmax, Wal.disk]
    · split
      · next hmem =>
        constructor
        · exact .inl
        · rintro (hp | rfl)
          · exact hp
          · exact hmem
      · simp

namespace PrimaryInv

variable {s s' : Session} {B : List Page} {hist cur : List Rec}

variable (h : PrimaryInv s B hist cur) {page_id : Nat} {buf : Page}

include h

theorem alloc (hs : s.step .alloc = some s') : PrimaryInv s' B hist cur := by
  have hinv := (h.inv.alloc (step_ghost hs (by simp) B)).1
  obtain ⟨hlt, rfl⟩ := step_alloc_eq hs
  refine ⟨hinv, h.below, ?_, h.base, h.unspilled, h.restored, fun p hp => ?_⟩
  · simp only [length_write_at, h.exact]
    omega
  · -- the new page was read as a zero page before
    rw [← h.kept p hp]
    change (write_at Page.zero s.wal.data.file s.wal.data.num_pages Page.zero).getD p Page.zero = _
    rw [getD_write_at]
    split
    · next heq => exact (content_of_le (by rw [h.exact, heq])).symm
    · rfl

theorem begin (hs : s.step .begin = some s') : PrimaryInv s' s.wal.data.file hist [] := by
  obtain ⟨hidle, heq⟩ := step_begin_eq hs
  obtain rfl : cur = [] := h.inv.idle hidle
  have hkept : ∀ p, content s.wal.data.file p = content s.committed p :=
    fun p => h.kept p (by simp [Session.open_spilled, hidle])
  have hinv := ((h.inv.rebase h.below h.exact hidle).begin
    (step_ghost hs (by simp) s.wal.data.file)).1
  subst heq
  refine ⟨hinv, fun u hu => ?_, h.exact, fun _ => h.exact, fun _ _ => rfl, hkept,
    fun p _ => hkept p⟩
  exact (h.below u hu).trans_le (h.inv.counted.trans h.exact.ge)

theorem stage (hs : s.step (.stage page_id buf) = some s') :
    PrimaryInv s' B hist cur := by
  have hinv := (h.inv.stage (step_ghost hs nofun B)).1
  obtain ⟨-, hrc, rfl⟩ := step_take_eq hs
  obtain ⟨staged, heq, -⟩ := wal_stage_staged hrc
  rw [heq] at hinv ⊢
  exact ⟨hinv, h.below, h.exact, h.base, h.unspilled, h.restored, h.kept⟩

theorem steal (hs : s.step (.steal page_id buf) = some s') :
    ∃ cur', PrimaryInv s' B hist cur' := by
  obtain ⟨cur', hinv⟩ := (h.inv.steal (step_ghost hs (by simp) B)).1
  obtain ⟨⟨hin, hp⟩, hrc, rfl⟩ := step_take_eq hs
  obtain ⟨hdata, hstole, hbase, hspilled⟩ := wal_steal_data hrc
  refine ⟨cur', hinv, h.below, ?_, fun hin' => ?_, fun _ hst => ?_, h.restored, fun q hq => ?_⟩
  · simp only [hdata, length_write_at, h.exact]
    omega
  · exact (h.base hin').trans hbase.symm
  · simp [hstole] at hst
  · -- only the stolen page has changed
    have hq' : q ∉ s.wal.spilled ∧ q ≠ page_id := by
      simp only [Session.open_spilled, hin, if_true, hspilled, not_or] at hq
      exact hq
    rw [← h.kept q (by simpa [Session.open_spilled, hin] using hq'.1)]
    simp only [content, hdata]
    rw [getD_write_at, if_neg (Ne.symm hq'.2)]

omit h in
/-- The length of the file after a rollback. -/
theorem undo_length {w : Wal} {us : List StagedPage} {b : Nat}
    (hscan : undo_scan w = (us, some b)) (hstole : w.stole = true)
    (hus : ∀ u ∈ us, u.1 < w.data.file.length) (hmax : w.data.file.length ≤ MAX_PAGES)
    (hexact : w.data.file.length = w.data.num_pages) (hb : b ≤ w.data.num_pages) :
    (wal_undo w).1.data.file.length = b ∧ (wal_undo w).1.data.num_pages = b := by
  have hwrite : (w.disk.run (write_ops us)).data.length = w.data.num_pages := by
    rw [Disk.run_write_ops fun u hu => (hus u hu).trans_le hmax]
    exact (length_write_all_of_lt _ hus).trans hexact
  simp only [wal_undo, hstole, if_true, hscan, Wal.io, wal_undo_io]
  rcases lt_or_ge b w.data.num_pages with hlt | hge
  · simp [truncate_to, hlt, truncate_ops, Disk.run_append, Disk.apply]
  · have hnone : truncate_to (some b) w.data.num_pages = none := by
      simp [truncate_to]
      omega
    rw [hnone]
    simp [truncate_ops, Disk.run_append, Disk.apply, hwrite]
    omega

theorem undo (hs : s.step .undo = some s') : PrimaryInv s' B hist [] := by
  have hinv := (h.inv.undo (step_ghost hs (by simp) B)).1
  obtain ⟨hin, rfl⟩ := step_undo_eq hs
  have ht := h.inv.txn hin
  have hB := h.base hin
  by_cases hst : s.wal.stole = true
  · -- the file is cut to the pages of before, and these are restored
    obtain ⟨hlen, hnum⟩ := undo_length (h.inv.undo_scan_eq hin hst) hst
      (fun u hu => h.inv.disk.undo_lt u hu) h.inv.disk.bound h.exact ht.base_le
    refine ⟨hinv, h.below, hlen.trans hnum.symm, by simp, by simp, h.restored, fun p _ => ?_⟩
    rw [← h.restored p]
    rcases lt_or_ge p B.length with hp | hp
    · exact content_congr (hinv.disk.keep p hp (by simp [undo_images]))
    · rw [content_of_le hp]
      exact content_of_le (by rw [hlen, ← hB]; exact hp)
  · have hnone := h.unspilled hin (by simpa using hst)
    have hsame : (wal_undo s.wal).1 = s.wal := by simp [wal_undo, hst]
    simp only [hsame] at hinv ⊢
    refine ⟨hinv, h.below, h.exact, by simp, by simp, h.restored, fun p _ => h.kept p ?_⟩
    simp [Session.open_spilled, hin, hnone]

/-- A commit that stages every stolen page changes exactly the staged pages. -/
theorem commit (hs : s.step .commit = some s')
    (hstaged : ∀ p ∈ s.wal.spilled, p ∈ s.wal.staged.map Prod.fst) :
    (∃ hist', PrimaryInv s' s'.committed hist' []) ∧
      ∀ p, content s'.committed p = (last_write s.wal.staged p).getD (content s.committed p) := by
  have hfresh : fresh_commit { s with committed := B } .commit :=
    fun _ p hp hnot => absurd (hstaged p hp) hnot
  have hs' : { s with committed := B }.step .commit = some s' := hs
  obtain ⟨⟨hist', hinv, hbelow⟩, -⟩ := h.inv.commit hs' h.below hfresh
  obtain ⟨hin, -, rfl⟩ := step_commit_eq hs
  have ht := h.inv.txn hin
  have hmax : ∀ u ∈ s.wal.staged, u.1 < MAX_PAGES :=
    fun u hu => (ht.staged.inside u hu).trans_le h.inv.disk.bound
  obtain ⟨-, -, hdata⟩ := wal_commit_data hmax
  have hlen : (write_all Page.zero s.wal.data.file s.wal.staged).length =
      s.wal.data.num_pages := (length_write_all_of_lt _ ht.staged.inside).trans h.exact
  have hpages : (wal_commit s.wal).1.data.pages =
      write_all Page.zero s.wal.data.file s.wal.staged := by
    rw [hdata, Pager.pages]
    exact take_of_length_le hlen.le
  refine ⟨⟨hist', hinv, hbelow, ?_, by simp, by simp, fun _ => rfl, fun p _ => ?_⟩, fun p => ?_⟩
  · simp only [hdata, hlen]
  · change content (wal_commit s.wal).1.data.file p = content (wal_commit s.wal).1.data.pages p
    rw [hpages, hdata]
  · simp only [hpages, content_write_all]
    cases hlast : last_write s.wal.staged p with
    | some x => rfl
    | none =>
      refine h.kept p fun hp => last_write_eq_none.1 hlast (hstaged p ?_)
      simpa [Session.open_spilled, hin] using hp

/-- The file after recovery. -/
theorem wal_open_disk :
    (wal_open s.wal.disk).data.file.length = (wal_open s.wal.disk).data.num_pages ∧
      ∀ p, content (wal_open s.wal.disk).data.file p = content s.committed p := by
  have hreads : Reads s.wal.disk.log (hist ++ cur) := by
    rw [h.inv.disk.log]
    exact Reads.exact (hist ++ cur)
  have hscan := scan_hist_steals h.inv.disk.closed h.inv.disk.steals
  have hcount : B.length ≤ s.wal.data.file.length := h.inv.disk.count
  have hnum : (wal_open s.wal.disk).data.num_pages =
      (truncate_to (last_base none cur) s.wal.data.file.length).getD s.wal.data.file.length := by
    have hl := (hreads.recover h.inv.disk.fits).2
    rw [hscan] at hl
    change (truncate_to (loser_scan s.wal.disk.log).2 s.wal.data.file.length).getD
      s.wal.data.file.length = _
    rw [hl]
  have hfile := wal_open_file hreads h.inv.disk.fits (by rw [hscan]; exact h.inv.disk.redo_lt)
    (by rw [hscan]; exact fun u hu => (h.inv.disk.undo_lt u hu).trans_le h.inv.disk.bound)
  rw [hscan] at hfile
  dsimp only at hfile
  have hlen : (write_all Page.zero s.wal.data.file ((scan .init hist).redone ++
      undo_images cur)).length = s.wal.data.file.length := by
    exact length_write_all_of_lt _ (forall_mem_append.2
      ⟨fun u hu => (h.below u hu).trans_le hcount, h.inv.disk.undo_lt⟩)
  have hexact : (wal_open s.wal.disk).data.file.length =
      (wal_open s.wal.disk).data.num_pages := by
    rw [hfile, hnum]
    have hdata : s.wal.disk.data = s.wal.data.file := rfl
    rw [hdata]
    cases truncate_to (last_base none cur) s.wal.data.file.length with
    | none => exact hlen
    | some n => simp
  refine ⟨hexact, fun p => ?_⟩
  rw [← h.restored p]
  rcases lt_or_ge p B.length with hp | hp
  · exact content_congr (h.inv.disk.restores.recovers p hp)
  -- what follows the restored pages is cut off, or was never written
  by_cases hopen : s.in_txn = true ∧ s.wal.stole = true
  · obtain ⟨hin, hst⟩ := hopen
    have ht := h.inv.txn hin
    have hB : B.length = s.wal.base_pages := h.base hin
    have hle : (wal_open s.wal.disk).data.num_pages ≤ B.length := by
      have hbase : last_base none cur = some s.wal.base_pages := ht.begun hst
      rw [hnum, hbase, truncate_to]
      split
      · exact hB.ge
      · change s.wal.data.file.length ≤ _
        omega
    rw [content_of_le hp]
    exact content_of_le (by rw [hexact]; omega)
  · have hcur : cur = [] := by
      by_cases hin : s.in_txn = true
      · exact (h.inv.txn hin).unbegun (by simpa [hin] using hopen)
      · exact h.inv.idle (by simpa using hin)
    have hspilled : s.open_spilled = [] := by
      rw [Session.open_spilled]
      split
      · next hin => exact h.unspilled hin (by simpa [hin] using hopen)
      · rfl
    have hnone : last_write ((scan .init hist).redone) p = none := by
      rcases hl : last_write ((scan .init hist).redone) p with _ | x
      · rfl
      · have : p < B.length := h.below _ (mem_of_last_write hl)
        omega
    subst hcur
    have hf : (wal_open s.wal.disk).data.file =
        write_all Page.zero s.wal.data.file (scan .init hist).redone := by
      rw [hfile]
      simp [last_base, truncate_to, undo_images, Wal.disk]
    rw [hf, content_write_all, hnone, h.restored p]
    exact h.kept p (by simp [hspilled])

/-- Closing and reopening keeps the committed content. -/
theorem reopen :
    PrimaryInv (session_open s.wal.disk) (session_open s.wal.disk).committed [] [] ∧
      ∀ p, content (session_open s.wal.disk).committed p = content s.committed p := by
  obtain ⟨hexact, hcontent⟩ := h.wal_open_disk
  have hpages : (session_open s.wal.disk).committed = (wal_open s.wal.disk).data.file := by
    change (wal_open s.wal.disk).data.file.take _ = _
    exact take_of_length_le hexact.le
  refine ⟨⟨session_open_inv h.inv.disk.bound, ?_, hexact, nofun, nofun, fun _ => rfl, fun p _ => ?_⟩,
    fun p => by rw [hpages]; exact hcontent p⟩
  · intro u hu
    simp [Scan.init] at hu
  · rw [hpages]
    rfl

/-- Every call but a commit keeps the committed content. -/
theorem call {c : Call} (hs : s.step c = some s') (hc : c ≠ .commit) :
    ∃ B' hist' cur', PrimaryInv s' B' hist' cur' := by
  cases c with
  | alloc => exact ⟨_, _, _, h.alloc hs⟩
  | begin => exact ⟨_, _, _, h.begin hs⟩
  | steal page_id buf =>
    obtain ⟨cur', h'⟩ := h.steal hs
    exact ⟨_, _, _, h'⟩
  | stage page_id buf => exact ⟨_, _, _, h.stage hs⟩
  | commit => exact absurd rfl hc
  | undo => exact ⟨_, _, _, h.undo hs⟩

end PrimaryInv

theorem step_committed {s s' : Session} {c : Call} (hs : s.step c = some s') (hc : c ≠ .commit) :
    s'.committed = s.committed := by
  have hsame := step_ghost hs hc s.committed
  rw [show { s with committed := s.committed } = s from rfl, hs] at hsame
  have hcommitted := congrArg Session.committed (Option.some.inj hsame)
  exact hcommitted

end MiniDb
