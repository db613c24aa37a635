import MiniDb.Storage.BufPool
import MiniDb.Storage.WalCalls

/-! # Commit markers and stolen pages

  A transaction's steals put `REC_BEGIN` and `REC_UNDO` records in the log.
  Recovery undoes them unless a commit marker follows.  `wal_flush_commit`
  opens the WAL transaction again and writes a marker only if some frame of
  the pool is still dirty, so whether the marker is there depends on what the
  pool has evicted before the commit. -/

namespace MiniDb

open Framework List

/-! ### How a transaction's log grows -/

theorem wal_steal_log (w : Wal) (page_id : Nat) (buf : Page) (hb : w.base_pages ≤ MAX_PAGES) :
    ∃ recs, (wal_steal w page_id buf).1.log = w.log ++ encode_all recs ∧
      (∀ r ∈ recs, r.is_steal ∧ r.fits) ∧ (wal_steal w page_id buf).1.stole = true ∧
      (wal_steal w page_id buf).1.base_pages = w.base_pages ∧
      last_base (if w.stole then some w.base_pages else none) recs = some w.base_pages := by
  have hhdr : ∀ r ∈ steal_begin w, r.is_steal ∧ r.fits := by
    unfold steal_begin
    split
    · simp
    · intro r hr
      rw [mem_singleton.mp hr]
      exact ⟨trivial, hb⟩
  have hbase : last_base (if w.stole then some w.base_pages else none) (steal_begin w) =
      some w.base_pages := by
    unfold steal_begin
    split <;> rfl
  set lsn := w.next_lsn + (steal_begin w).length with hlsn
  cases hundo : steal_undo w lsn page_id with
  | none =>
    refine ⟨steal_begin w, ?_, hhdr, ?_, ?_, hbase⟩
    · simp only [wal_steal, ← hlsn, hundo, Wal.io]
      rw [run_log_recs]
      rfl
    · simp only [wal_steal, ← hlsn, hundo]
    · simp only [wal_steal, ← hlsn, hundo, Wal.io]
  | some undo =>
    have hrecs : (undo = [] ∨ ∃ x, undo = [.undo lsn page_id x]) ∧
        ∀ r ∈ undo, r.is_steal ∧ r.fits := by
      unfold steal_undo at hundo
      split at hundo
      · cases hundo; simp
      split at hundo
      · next hlt =>
        obtain ⟨x, -, rfl⟩ := Option.map_eq_some_iff.mp hundo
        refine ⟨.inr ⟨x, rfl⟩, fun r hr => ?_⟩
        rw [mem_singleton.mp hr]
        exact ⟨trivial, lt_of_lt_of_le hlt hb⟩
      · cases hundo; simp
    refine ⟨steal_begin w ++ undo, ?_, ?_, ?_, ?_, ?_⟩
    · simp only [wal_steal, ← hlsn, hundo, Wal.io, wal_steal_io]
      rw [Disk.run_append, run_log_recs]
      simp only [Disk.run_cons, Disk.run_nil, Disk.apply]
      split <;> rfl
    · exact forall_mem_append.mpr ⟨hhdr, hrecs.2⟩
    · simp only [wal_steal, ← hlsn, hundo]
    · simp only [wal_steal, ← hlsn, hundo, Wal.io]
    · rw [last_base_append, hbase]
      rcases hrecs.1 with rfl | ⟨x, rfl⟩ <;> rfl

/-- `cur` are the records the running transaction has put after `hist`. -/
structure Writing (hist cur : List Rec) (f : PagedFile) : Prop where
  log : f.wal.log = encode_all (hist ++ cur)
  steals : ∀ r ∈ cur, r.is_steal ∧ r.fits
  begun : f.wal.stole = true → last_base none cur = some f.wal.base_pages
  unbegun : f.wal.stole = false → cur = []
  base : f.wal.base_pages ≤ MAX_PAGES
  mode : f.bp.no_steal = true ∧ f.bp.steal_fn = true

variable {hist cur : List Rec} {f : PagedFile}

variable (h : Writing hist cur f)

include h

/-- Changes of the pages in the file or of the frames do not concern the log. -/
theorem Writing.congr {f' : PagedFile} (hlog : f'.wal.log = f.wal.log)
    (hstole : f'.wal.stole = f.wal.stole) (hbase : f'.wal.base_pages = f.wal.base_pages)
    (hmode : f'.bp.no_steal = f.bp.no_steal ∧ f'.bp.steal_fn = f.bp.steal_fn) :
    Writing hist cur f' :=
  ⟨hlog ▸ h.log, h.steals, by rw [hstole, hbase]; exact h.begun, by rw [hstole]; exact h.unbegun,
    by rw [hbase]; exact h.base, by rw [hmode.1, hmode.2]; exact h.mode⟩

theorem Writing.evict (v : Frame) :
    ∃ cur', Writing hist cur' (evict f v).1 := by
  unfold MiniDb.evict
  split
  · simp only [h.mode, Bool.and_self, if_true]
    obtain ⟨recs, hlog, hrecs, hstole, hbase, hlast⟩ :=
      wal_steal_log f.wal v.page_id v.data h.base
    refine ⟨cur ++ recs, ?_, ?_, fun _ => ?_, by simp [hstole], hbase ▸ h.base, h.mode⟩
    · simp only [hlog, h.log, encode_all_append, append_assoc]
    · exact forall_mem_append.mpr ⟨h.steals, hrecs⟩
    · rw [last_base_append, hbase, ← hlast]
      cases hst : f.wal.stole with
      | true => rw [h.begun hst]; rfl
      | false => rw [h.unbegun hst]; rfl
  · exact ⟨cur, h⟩

theorem Writing.pick_frame :
    ∃ cur', Writing hist cur' (pick_frame f).1 := by
  rcases pick_frame_cases f with ⟨i, fr, -, -, heq⟩ | ⟨-, heq⟩ | ⟨i, v, -, -, -, ⟨-, heq⟩ | ⟨-, heq⟩⟩
  · exact ⟨cur, by rw [heq]; exact h⟩
  · exact ⟨cur, by rw [heq]; exact h⟩
  · rw [heq]
    exact h.evict v
  · rw [heq]
    obtain ⟨cur', h'⟩ := h.evict v
    exact ⟨cur', h'.congr rfl rfl rfl ⟨rfl, rfl⟩⟩

theorem Writing.fetch (page_id : Nat) :
    ∃ cur', Writing hist cur' (bufpool_fetch f page_id).1 := by
  unfold bufpool_fetch
  split
  · exact ⟨cur, h.congr rfl rfl rfl ⟨rfl, rfl⟩⟩
  · have hmiss : Writing hist cur { f with bp := { f.bp with misses := f.bp.misses + 1 } } :=
      h.congr rfl rfl rfl ⟨rfl, rfl⟩
    obtain ⟨cur', h'⟩ := hmiss.pick_frame
    refine ⟨cur', ?_⟩
    simp only
    split
    · exact h'
    · split
      · exact h'.congr rfl rfl rfl ⟨rfl, rfl⟩
      · exact h'.congr rfl rfl rfl ⟨rfl, rfl⟩

theorem Writing.apply (op : FileOp) :
    ∃ cur', Writing hist cur' (op.apply f) := by
  cases op with
  | fetch page_id => exact h.fetch page_id
  | new_page =>
    have halloc : Writing hist cur
        { f with wal := { f.wal with data := (pager_allocate f.wal.data).1 } } :=
      h.congr rfl rfl rfl ⟨rfl, rfl⟩
    simp only [FileOp.apply, bufpool_new_page]
    split
    · exact ⟨cur, halloc⟩
    · exact halloc.fetch _
  | store page_id buf =>
    simp only [FileOp.apply, MiniDb.store]
    split
    · exact ⟨cur, h⟩
    · exact ⟨cur, h.congr rfl rfl rfl ⟨rfl, rfl⟩⟩
  | unpin page_id is_dirty =>
    simp only [FileOp.apply, bufpool_unpin]
    split
    · exact ⟨cur, h⟩
    · exact ⟨cur, h.congr rfl rfl rfl ⟨rfl, rfl⟩⟩

theorem Writing.run (ops : List FileOp) :
    ∃ cur', Writing hist cur' (file_run f ops) := by
  induction ops generalizing f cur with
  | nil => exact ⟨cur, h⟩
  | cons op ops ih =>
    obtain ⟨cur', h'⟩ := h.apply op
    exact ih h'

omit h

theorem Writing.start {f0 : PagedFile} (hlog : f0.wal.log = encode_all hist)
    (hpages : f0.wal.data.num_pages ≤ MAX_PAGES) : Writing hist [] (begin_write f0) where
  log := by simpa [begin_write, wal_begin, bufpool_set_steal_handler, bufpool_set_no_steal] using hlog
  steals := by simp
  begun := by simp [begin_write, wal_begin]
  unbegun := fun _ => rfl
  base := by simpa [begin_write, wal_begin, bufpool_set_steal_handler, bufpool_set_no_steal]
    using hpages
  mode := ⟨rfl, rfl⟩

/-! ### What a commit adds to the log -/

/-- Staging touches only the staged pages. -/
theorem wal_stage_eq (w : Wal) (page_id : Nat) (buf : Page) :
    ∃ staged, (wal_stage w page_id buf).1 = { w with staged := staged } := by
  unfold wal_stage
  split
  · exact ⟨_, rfl⟩
  · split
    · exact ⟨w.staged, rfl⟩
    · exact ⟨_, rfl⟩

/-- The flush stages pages and counts the dirty frames. -/
theorem flush_cb_loop_eq (w : Wal) (frames : List Frame) (n : Int) :
    (∃ staged, (flush_cb_loop w frames n).1 = { w with staged := staged }) ∧
      ((flush_cb_loop w frames n).2.2 = -1 ∨
        (flush_cb_loop w frames n).2.2 = n + frames.countP Frame.pending) := by
  induction frames generalizing w n with
  | nil => exact ⟨⟨w.staged, rfl⟩, .inr (by simp [flush_cb_loop])⟩
  | cons fr frames ih =>
    simp only [flush_cb_loop]
    split
    · next hp =>
      obtain ⟨staged, hst⟩ := wal_stage_eq w fr.page_id fr.data
      split
      · exact ⟨⟨staged, hst⟩, .inl rfl⟩
      · obtain ⟨⟨staged', hst'⟩, hn⟩ := ih (wal_stage w fr.page_id fr.data).1 (n + 1)
        refine ⟨⟨staged', by rw [hst', hst]⟩, ?_⟩
        rcases hn with hn | hn
        · exact .inl hn
        · refine .inr ?_
          simp only [hn, countP_cons, hp, if_true]
          push_cast
          omega
    · next hp =>
      obtain ⟨hst, hn⟩ := ih w n
      exact ⟨hst, by simpa [countP_cons, hp] using hn⟩

/-- A successful commit appends after-images and a marker, or empties the log. -/
theorem wal_commit_log {w : Wal} (h : (wal_commit w).2 = 0) :
    (∀ u ∈ w.staged, u.1 < MAX_PAGES) ∧
      ((wal_commit w).1.log = [] ∨
        (wal_commit w).1.log = w.log ++ encode_all (page_recs w.next_lsn w.staged) ++
          encode_all [.commit (w.next_lsn + w.staged.length)]) := by
  have hrc : write_rc w.staged = 0 := by
    by_contra hne
    simp [wal_commit, hne] at h
  have hmax : ∀ u ∈ w.staged, u.1 < MAX_PAGES := by
    unfold write_rc at hrc
    split at hrc
    · next hall => simpa using hall
    · cases hrc
  have hlog : w.disk.run (commit_log_io w) = ⟨w.data.file, w.log ++
      encode_all (page_recs w.next_lsn w.staged) ++
      encode_all [.commit (w.next_lsn + w.staged.length)]⟩ := by
    rw [commit_log_io, Disk.run_append, run_log_recs]
    simp [Disk.apply, log_rec, Wal.disk]
  refine ⟨hmax, ?_⟩
  have heq : (wal_commit w).1.log = (w.disk.run (wal_commit_io w)).log := by
    simp [wal_commit, hrc, Wal.io]
  rw [heq, wal_commit_io, Disk.run_append, Disk.run_append, hlog, Disk.run_write_ops hmax,
    checkpoint_io]
  split
  · exact .inl (by simp [Disk.apply, resize])
  · exact .inr rfl

/-- The log after a flush that returned `0`: the marker is written exactly
    when a frame was dirty. -/
theorem wal_flush_commit_log (h : (wal_flush_commit f).2 = 0) :
    (f.bp.frames.any Frame.pending = false ∧ (wal_flush_commit f).1.wal.log = f.wal.log) ∨
    f.bp.frames.any Frame.pending = true ∧ ∃ lsn staged, (∀ u ∈ staged, u.1 < MAX_PAGES) ∧
      ((wal_flush_commit f).1.wal.log = [] ∨
        (wal_flush_commit f).1.wal.log = f.wal.log ++ encode_all (page_recs lsn staged) ++
          encode_all [.commit (lsn + staged.length)]) := by
  obtain ⟨⟨staged, hst⟩, hn⟩ := flush_cb_loop_eq (wal_begin f.wal) f.bp.frames 0
  have hcount : f.bp.frames.any Frame.pending = true ↔ 0 < f.bp.frames.countP Frame.pending := by
    rw [countP_pos_iff, any_eq_true]
  unfold wal_flush_commit bufpool_flush_cb at h ⊢
  simp only at h ⊢
  split at h
  · cases h
  next hneg =>
  rw [if_neg hneg]
  have hn : (flush_cb_loop (wal_begin f.wal) f.bp.frames 0).2.2 =
      f.bp.frames.countP Frame.pending := by
    rcases hn with hn | hn
    · simp [hn] at hneg
    · simpa using hn
  split at h
  · next hpos =>
    rw [if_pos hpos]
    refine .inr ⟨hcount.mpr (by omega), ?_⟩
    obtain ⟨hmax, hlog⟩ := wal_commit_log h
    rw [hst] at hmax hlog ⊢
    exact ⟨_, _, hmax, hlog⟩
  · next hpos =>
    rw [if_neg hpos]
    refine .inl ⟨?_, by simp only [hst]; rfl⟩
    rw [← Bool.not_eq_true, hcount]
    omega

/-! ### Who is a loser -/

/-- A commit marker follows the records `cur` of a transaction that began
    after `hist`, or a checkpoint has dropped them. -/
def MarkedAfter (hist cur : List Rec) (log : List UInt8) : Prop :=
  cur = [] ∨ log = [] ∨
    ∃ mid lsn rest, log = encode_all (hist ++ cur ++ mid ++ .commit lsn :: rest)

/-- However the log goes on, recovery undoes nothing that is in `log` already. -/
def NeverUndone (log : List UInt8) : Prop :=
  ∀ more, (∀ r ∈ more, r.fits) →
    loser_scan (log ++ encode_all more) = loser_scan (encode_all more)

theorem scan_loser_congr {s s' : Scan} (h : s.loser = s'.loser) (rs : List Rec) :
    (scan s rs).loser = (scan s' rs).loser := by
  induction rs generalizing s s' with
  | nil => exact h
  | cons r rs ih =>
    apply ih
    cases r <;> simp [Scan.next, h]

/-- Records before a marker are not undone. -/
theorem never_undone_of_marker {rs : List Rec} (hfits : ∀ r ∈ rs, r.fits) (lsn : Nat) :
    NeverUndone (encode_all (rs ++ [.commit lsn])) := by
  intro more hmore
  have hall : ∀ r ∈ rs ++ [.commit lsn] ++ more, r.fits := forall_mem_append.mpr
    ⟨forall_mem_append.mpr ⟨hfits, forall_mem_singleton.mpr trivial⟩, hmore⟩
  have hclosed : (scan .init (rs ++ [.commit lsn])).loser = Scan.init.loser := by
    rw [scan_append]; rfl
  rw [← encode_all_append, ((Reads.exact _).recover hall).2, ((Reads.exact _).recover hmore).2,
    scan_append, scan_loser_congr hclosed]

/-- Steal records at the end of the log are undone. -/
theorem loser_scan_of_steals (hfits : ∀ r ∈ hist, r.fits)
    (hcur : ∀ r ∈ cur, r.is_steal ∧ r.fits) {b : Nat} (hb : last_base none cur = some b) :
    (loser_scan (encode_all (hist ++ cur))).2 = some b := by
  have hall := forall_mem_append.mpr ⟨hfits, fun r hr => (hcur r hr).2⟩
  rw [((Reads.exact _).recover hall).2, scan_append, scan_steals _ fun r hr => (hcur r hr).1]
  simp only
  rw [last_base_append, last_base_eq_or, hb]
  rfl

/-- Without a dirty frame nothing is logged, and the steals stay behind the
    last marker. -/
theorem Writing.unmarked (hw : Writing hist cur f) (hfits : ∀ r ∈ hist, r.fits)
    (hst : f.wal.stole = true) (hsame : (wal_flush_commit f).1.wal.log = f.wal.log) :
    cur ≠ [] ∧
      (∀ cur', f.wal.log = encode_all (hist ++ cur') →
        ¬ MarkedAfter hist cur' (wal_flush_commit f).1.wal.log) ∧
      ¬ NeverUndone (wal_flush_commit f).1.wal.log := by
  have hbase := hw.begun hst
  have hne : cur ≠ [] := by
    rintro rfl
    cases hbase
  have hlonger : (encode_all hist).length < f.wal.log.length := by
    obtain ⟨r, rs, rfl⟩ := exists_cons_of_ne_nil hne
    have hpos := r.encode_length_pos
    rw [hw.log]
    simp only [encode_all_append, encode_all_cons, length_append]
    omega
  rw [hsame]
  refine ⟨hne, fun cur' hcur' => ?_, fun h => ?_⟩
  · rintro (rfl | h | ⟨mid, lsn, rest, h⟩)
    · rw [hcur', append_nil] at hlonger
      omega
    · rw [h, length_nil] at hlonger
      omega
    · have hlen := congrArg List.length (hcur'.symm.trans h)
      have hpos := (Rec.commit lsn).encode_length_pos
      simp only [encode_all_append, encode_all_cons, length_append] at hlen
      omega
  · have hloser := loser_scan_of_steals hfits hw.steals hbase
    have := h [] (by simp)
    simp only [encode_all_nil, append_nil, hw.log] at this
    rw [this] at hloser
    cases hloser

/-- A marker closes everything before it. -/
theorem Writing.marked (hw : Writing hist cur f) (hfits : ∀ r ∈ hist, r.fits) {lsn : Nat}
    {staged : List StagedPage} (hmax : ∀ u ∈ staged, u.1 < MAX_PAGES) {log : List UInt8}
    (hlog : log = [] ∨ log = f.wal.log ++ encode_all (page_recs lsn staged) ++
      encode_all [.commit (lsn + staged.length)]) : MarkedAfter hist cur log ∧ NeverUndone log := by
  rcases hlog with rfl | hlog
  · exact ⟨.inr (.inl rfl), fun more _ => by rw [nil_append]⟩
  · have hpl := forall_mem_append.mpr ⟨forall_mem_append.mpr
      ⟨hfits, fun r hr => (hw.steals r hr).2⟩, page_recs_fits hmax lsn⟩
    have heq : log =
        encode_all (hist ++ cur ++ page_recs lsn staged ++ [.commit (lsn + staged.length)]) := by
      rw [hlog, hw.log]
      simp only [encode_all_append]
    rw [heq]
    exact ⟨.inr (.inr ⟨_, _, [], rfl⟩), never_undone_of_marker hpl _⟩

/-- For every transaction on a file, a flush that returned `0` has put a marker
    after the transaction's steal records, and recovery never undoes them,
    exactly when a frame was dirty at the flush or no page had been stolen. -/
theorem marker_after_steals_iff (f0 : PagedFile) (hist : List Rec)
    (hlog : f0.wal.log = encode_all hist) (hfits : ∀ r ∈ hist, r.fits)
    (hpages : f0.wal.data.num_pages ≤ MAX_PAGES) (ops : List FileOp) (f : PagedFile)
    (hrun : f = file_run (begin_write f0) ops) (hrc : (wal_flush_commit f).2 = 0) :
    ∃ cur, (∀ r ∈ cur, r.is_steal) ∧ f.wal.log = encode_all (hist ++ cur) ∧
      (MarkedAfter hist cur (wal_flush_commit f).1.wal.log ↔
        f.bp.frames.any Frame.pending = true ∨ f.wal.stole = false) ∧
      ((cur ≠ [] → NeverUndone (wal_flush_commit f).1.wal.log) ↔
        f.bp.frames.any Frame.pending = true ∨ f.wal.stole = false) := by
  obtain ⟨cur, hw⟩ := (Writing.start hlog hpages).run ops
  rw [← hrun] at hw
  refine ⟨cur, fun r hr => (hw.steals r hr).1, hw.log, ?_⟩
  rcases wal_flush_commit_log hrc with ⟨hclean, hsame⟩ | ⟨hdirty, lsn, staged, hmax, hnew⟩
  · simp only [hclean, Bool.false_eq_true, false_or]
    cases hst : f.wal.stole with
    | false => simp [hw.unbegun hst, MarkedAfter]
    | true =>
      obtain ⟨hne, hmark, hundone⟩ := hw.unmarked hfits hst hsame
      have hmark := hmark cur hw.log
      simp [hne, hmark, hundone]
  · obtain ⟨hmark, hundone⟩ := hw.marked hfits hmax hnew
    simp [hdirty, hmark, hundone]

/-- A heap file of 65 pages under the pool `table_open_files` creates. -/
def wide_file : PagedFile :=
  { wal := wal_open ⟨List.replicate 65 Page.zero, []⟩, bp := bufpool_create WAL_MAX_STAGED,
    txn_pages := 0 }

/-- Change page 0. -/
def write_page0 : List FileOp := [.fetch 0, .store 0 (Page.fill 1), .unpin 0 true]

/-- Change page 0, then read the 64 other pages. -/
def write_then_scan : List FileOp :=
  write_page0 ++ (List.range 64).flatMap fun i => [.fetch (i + 1), .unpin (i + 1) false]

/-- The scan has evicted page 0, and page 64 is dirty. -/
def stolen_and_dirty : PagedFile :=
  file_run (begin_write wide_file)
    (write_then_scan ++ [.fetch 64, .store 64 (Page.fill 2), .unpin 64 true])

theorem marker_after_steals_iff_stolen :
    stolen_and_dirty.wal.stole = true ∧ (wal_flush_commit stolen_and_dirty).2 = 0 ∧
      ∃ cur, cur ≠ [] ∧ stolen_and_dirty.wal.log = encode_all ([] ++ cur) ∧
        (∃ mid lsn rest, (wal_flush_commit stolen_and_dirty).1.wal.log =
          encode_all ([] ++ cur ++ mid ++ .commit lsn :: rest)) ∧
        NeverUndone (wal_flush_commit stolen_and_dirty).1.wal.log := by
  have hrun : stolen_and_dirty.wal.stole = true ∧ (wal_flush_commit stolen_and_dirty).2 = 0 ∧
      stolen_and_dirty.bp.frames.any Frame.pending = true ∧ stolen_and_dirty.wal.log ≠ [] ∧
      (wal_flush_commit stolen_and_dirty).1.wal.log ≠ [] := by decide +kernel
  obtain ⟨hst, hrc, hdirty, hlog, hlog'⟩ := hrun
  obtain ⟨cur, -, hcur, hmark, hundone⟩ := marker_after_steals_iff wide_file [] rfl (by simp)
    (by decide +kernel) _ stolen_and_dirty rfl hrc
  have hne : cur ≠ [] := by
    rintro rfl
    exact hlog hcur
  have hmark := ((hmark.mpr (.inl hdirty)).resolve_left hne).resolve_left hlog'
  exact ⟨hst, hrc, cur, hne, hcur, hmark, hundone.mpr (.inl hdirty) hne⟩

/-- The scan evicts page 0 as the only dirty page, the commit that follows
    writes no marker, and recovery counts the transaction among the losers. -/
theorem committed_transaction_is_loser :
    ¬ ∀ (f0 : PagedFile) (hist : List Rec), f0.wal.log = encode_all hist →
      (∀ r ∈ hist, r.fits) → f0.wal.data.num_pages ≤ MAX_PAGES →
      ∀ (ops : List FileOp) (f : PagedFile), f = file_run (begin_write f0) ops →
        (wal_flush_commit f).2 = 0 →
        ∃ cur, (∀ r ∈ cur, r.is_steal) ∧ f.wal.log = encode_all (hist ++ cur) ∧
          MarkedAfter hist cur (wal_flush_commit f).1.wal.log := by
  intro hall
  obtain ⟨f, hf⟩ : ∃ f, f = file_run (begin_write wide_file) write_then_scan := ⟨_, rfl⟩
  have hrc : (wal_flush_commit f).2 = 0 := by rw [hf]; decide +kernel
  have hclean : f.bp.frames.any Frame.pending = false := by rw [hf]; decide +kernel
  have hst : f.wal.stole = true := by rw [hf]; decide +kernel
  have hpages : wide_file.wal.data.num_pages ≤ MAX_PAGES := by decide +kernel
  have hempty : wide_file.wal.log = encode_all [] := rfl
  obtain ⟨cur, -, hlog, hmark⟩ := hall wide_file [] hempty (by simp) hpages write_then_scan f hf hrc
  obtain ⟨cur', hw⟩ := (Writing.start hempty hpages).run write_then_scan
  rw [← hf] at hw
  rcases wal_flush_commit_log hrc with ⟨-, hsame⟩ | ⟨hdirty, -⟩
  · exact (hw.unmarked (by simp) hst hsame).2.1 cur hlog hmark
  · rw [hclean] at hdirty
    cases hdirty

end MiniDb
