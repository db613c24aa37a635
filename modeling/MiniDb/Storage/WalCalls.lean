import MiniDb.Storage.WalInvariant

/-! # What each WAL call does to a recoverable disk

  One lemma per record or page write for `wal_steal` (`DiskInv.log_begin`,
  `DiskInv.log_undo`, `DiskInv.write_stolen`), and for each call its crash
  condition and the invariant it re-establishes:

  * `steal_stops`, `steal_inv` keep the committed content;
  * `commit_stops`, `commit_inv` move to the new content as a whole, provided
    the after-images already in the log are not older than the file;
  * `undo_stops`, `undo_inv` go back to the committed content. -/

namespace MiniDb

open Framework List

variable {d : Disk} {C : List Page} {hist cur : List Rec}

/-- Some run of records makes `d` recover to `C`. -/
def Restores (C : List Page) (d : Disk) : Prop := ∃ rs, Recoverable d C rs

variable (h : DiskInv d C hist cur) {staged : List StagedPage} {P : Disk → Prop} {t : List UInt8}

include h

theorem DiskInv.restores_torn (ht : Torn t) :
    Restores C { d with log := d.log ++ t } := ⟨_, h.recoverable ht⟩

theorem DiskInv.restores : Restores C d := by
  simpa using h.restores_torn Torn.nil

/-! ### Steal -/

theorem DiskInv.log_begin (lsn : Nat) {b : Nat}
    (hC : C.length ≤ b) (hb : b ≤ MAX_PAGES) :
    DiskInv (d.apply (log_rec (.begin lsn b))) C hist (cur ++ [.begin lsn b]) where
  log := by simp [Disk.apply, log_rec, h.log]
  fits := by
    rw [← append_assoc]
    exact forall_mem_append.mpr ⟨h.fits, forall_mem_singleton.mpr hb⟩
  __ := h
  steals := forall_mem_append.mpr ⟨h.steals, forall_mem_singleton.mpr trivial⟩
  undo_lt := by simpa [Disk.apply, log_rec, undo_images_append, undo_images] using h.undo_lt
  undo_nodup := by simpa [undo_images_append, undo_images] using h.undo_nodup
  undo_val := by simpa [undo_images_append, undo_images] using h.undo_val
  keep := by simpa [Disk.apply, log_rec, undo_images_append, undo_images] using h.keep
  base := by
    intro b' hb'
    rw [last_base_append] at hb'
    simp only [last_base, Option.some.injEq] at hb'
    omega

theorem DiskInv.log_undo (lsn : Nat) {p : Nat} {x : Page}
    (hx : d.data[p]? = some x) (hp : p ∉ (undo_images cur).map Prod.fst) :
    DiskInv (d.apply (log_rec (.undo lsn p x))) C hist (cur ++ [.undo lsn p x]) := by
  have hlt : p < d.data.length := (List.getElem?_eq_some_iff.mp hx).1
  have hui : undo_images (cur ++ [.undo lsn p x]) = undo_images cur ++ [(p, x)] := by
    simp [undo_images_append, undo_images]
  refine ⟨by simp [Disk.apply, log_rec, h.log], ?_, h.closed, ?_, h.bound, h.count, h.redo_lt,
    h.images, ?_, ?_, ?_, ?_, ?_⟩
  · rw [← append_assoc]
    exact forall_mem_append.mpr ⟨h.fits, forall_mem_singleton.mpr (lt_of_lt_of_le hlt h.bound)⟩
  · exact forall_mem_append.mpr ⟨h.steals, forall_mem_singleton.mpr trivial⟩
  · rw [hui]
    exact forall_mem_append.mpr ⟨h.undo_lt, forall_mem_singleton.mpr hlt⟩
  · rw [hui, map_append, nodup_append]
    refine ⟨h.undo_nodup, by simp, ?_⟩
    intro q hq q' hq' heq
    simp only [map_cons, map_nil, mem_singleton] at hq'
    exact hp (hq' ▸ heq ▸ hq)
  · rw [hui]
    intro u hu hC
    rcases mem_append.mp hu with hu | hu
    · exact h.undo_val u hu hC
    · -- the before-image is read while the file still holds the committed page
      rw [mem_singleton.mp hu] at hC ⊢
      rw [← h.keep p hC hp]
      exact hx
  · rw [hui]
    intro q hq hnot
    refine h.keep q hq fun hmem => hnot ?_
    rw [map_append]
    exact mem_append_left _ hmem
  · intro b hb
    rw [last_base_append] at hb
    exact h.base b (by simpa [last_base] using hb)

/-- A page whose before-image is logged, or that the committed content does
    not have, may be overwritten. -/
theorem DiskInv.write_stolen {p : Nat} (x : Page)
    (hp : p < d.data.length) (hok : p ∈ (undo_images cur).map Prod.fst ∨ C.length ≤ p) :
    DiskInv (d.apply (.data_write p x)) C hist cur := by
  have hmax : p < MAX_PAGES := lt_of_lt_of_le hp h.bound
  have happly : d.apply (.data_write p x) =
      { d with data := write_at Page.zero d.data p x } := by simp [Disk.apply, hmax]
  have hlen : (write_at Page.zero d.data p x).length = d.data.length := by
    rw [length_write_at]; omega
  rw [happly]
  refine ⟨h.log, h.fits, h.closed, h.steals, ?_, ?_, h.redo_lt, h.images, ?_, h.undo_nodup,
    h.undo_val, ?_, h.base⟩
  · simpa [hlen] using h.bound
  · simpa [hlen] using h.count
  · simpa [hlen] using h.undo_lt
  · intro q hq hnot
    have hne : p ≠ q := by
      rintro rfl
      rcases hok with hmem | hle
      · exact hnot hmem
      · omega
    have hql : q < d.data.length := lt_of_lt_of_le hq h.count
    simpa [getElem?_write_at hql, hne] using h.keep q hq hnot

/-- An allocation writes a page the committed content does not have. -/
theorem DiskInv.alloc {n : Nat} (hC : C.length ≤ n)
    (hn : n ≤ d.data.length) (hmax : n < MAX_PAGES) :
    DiskInv (d.apply (.data_write n Page.zero)) C hist cur := by
  rcases lt_or_ge n d.data.length with hlt | hge
  · exact h.write_stolen Page.zero hlt (.inr hC)
  · obtain rfl : n = d.data.length := by omega
    simpa [Disk.apply, hmax, write_at] using h.append Page.zero hmax

omit h

theorem run_log_recs (d : Disk) (rs : List Rec) :
    d.run (rs.map log_rec) = { d with log := d.log ++ encode_all rs } := by
  induction rs generalizing d with
  | nil => simp
  | cons r rs ih => simp [ih, Disk.apply, log_rec]

/-! ### Commit -/

theorem mem_page_recs {r : Rec} :
    ∀ {lsn : Nat}, r ∈ page_recs lsn staged → ∃ lsn', ∃ u ∈ staged, r = .page lsn' u.1 u.2 := by
  induction staged with
  | nil => nofun
  | cons u staged ih =>
    intro lsn hr
    rcases mem_cons.mp hr with rfl | hr
    · exact ⟨lsn, u, mem_cons_self, rfl⟩
    · obtain ⟨lsn', v, hv, rfl⟩ := ih hr
      exact ⟨lsn', v, mem_cons_of_mem _ hv, rfl⟩

theorem page_recs_fits (h : ∀ u ∈ staged, u.1 < MAX_PAGES) (lsn : Nat) :
    ∀ r ∈ page_recs lsn staged, r.fits := by
  intro r hr
  obtain ⟨-, u, hu, rfl⟩ := mem_page_recs hr
  exact h u hu

/-- After-images of one segment collect in `pending` while there is room. -/
theorem scan_page_recs (s : Scan) (lsn : Nat)
    (h : s.pending.length + staged.length ≤ WAL_MAX_STAGED) :
    scan s (page_recs lsn staged) =
      ⟨s.redone, s.pending ++ staged, s.loser ++ page_recs lsn staged⟩ := by
  induction staged generalizing s lsn with
  | nil => simp [page_recs]
  | cons u staged ih =>
    have hroom : s.pending.length < WAL_MAX_STAGED := by
      simp only [length_cons] at h; omega
    simp only [page_recs, scan_cons, Scan.next, if_pos hroom]
    rw [ih _ _ (by simp only [length_append, length_cons, length_nil] at h ⊢; omega)]
    simp

@[simp] theorem undo_images_page_recs (lsn : Nat) (staged : List StagedPage) :
    undo_images (page_recs lsn staged) = [] := by
  induction staged generalizing lsn with
  | nil => rfl
  | cons u staged ih => exact ih _

@[simp] theorem last_base_page_recs (b : Option Nat) (lsn : Nat) (staged : List StagedPage) :
    last_base b (page_recs lsn staged) = b := by
  induction staged generalizing lsn with
  | nil => rfl
  | cons u staged ih => exact ih _

theorem page_recs_take (lsn k : Nat) (us : List StagedPage) :
    page_recs lsn (us.take k) = (page_recs lsn us).take k := by
  induction us generalizing lsn k with
  | nil => rw [take_nil, page_recs, take_nil]
  | cons u us ih =>
    cases k with
    | zero => rfl
    | succ k => rw [take_succ_cons, page_recs, page_recs, take_succ_cons, ih]

/-- Records without a marker, cut anywhere: some of them are whole, and what
    follows is torn. -/
theorem stops_log_recs {rs : List Rec} (hrs : ∀ r ∈ rs, ∀ lsn, r ≠ .commit lsn)
    (hP : ∀ k t, Torn t → P { d with log := d.log ++ encode_all (rs.take k) ++ t }) :
    Stops d (rs.map log_rec) P := by
  have hhere : P d := by simpa using hP 0 [] Torn.nil
  induction rs generalizing d with
  | nil => exact Stops.nil hhere
  | cons r rs ih =>
    have hafter : ∀ k t, Torn t → P { d.apply (log_rec r) with
        log := (d.apply (log_rec r)).log ++ encode_all (rs.take k) ++ t } := fun k t ht => by
      simpa [Disk.apply, log_rec] using hP (k + 1) t ht
    have hrest := ih (fun r hr => hrs r (mem_cons_of_mem _ hr)) hafter
      (by simpa using hafter 0 [] Torn.nil)
    refine Stops.cons hhere (fun bs hbs b => ?_) hrest
    cases hbs
    rcases lt_or_ge b r.encode.length with hlt | hge
    · simpa using hP 0 _ (torn_take (hrs r mem_cons_self) hlt)
    · rw [take_of_length_le hge]
      exact hrest.here

/-- After-images, cut anywhere. -/
theorem stops_page_recs {lsn : Nat}
    (hP : ∀ k t, Torn t →
      P { d with log := d.log ++ encode_all (page_recs lsn (staged.take k)) ++ t }) :
    Stops d ((page_recs lsn staged).map log_rec) P := by
  refine stops_log_recs (fun r hr lsn' => ?_) fun k t ht => page_recs_take lsn k staged ▸ hP k t ht
  obtain ⟨-, u, -, rfl⟩ := mem_page_recs hr
  nofun

/-- A steal stops while its records are logged, before or after the page is written. -/
theorem stops_steal {w : Wal} {undo : List Rec} {page_id : Nat} {buf : Page}
    (hundo : undo = [] ∨ ∃ r, undo = [r] ∧ ∀ lsn, r ≠ .commit lsn)
    (hP : ∀ rs, rs = [] ∨ rs = steal_begin w ∨ rs = steal_begin w ++ undo → ∀ t, Torn t →
      P ⟨w.data.file, w.log ++ encode_all rs ++ t⟩)
    (hdone : P ((⟨w.data.file, w.log ++ encode_all (steal_begin w ++ undo)⟩ : Disk).apply
      (.data_write page_id buf))) :
    Stops w.disk (wal_steal_io (steal_begin w ++ undo) page_id buf) P := by
  have hall := hP _ (.inr (.inr rfl)) [] Torn.nil
  rw [append_nil] at hall
  refine Stops.append (stops_log_recs (forall_mem_append.mpr ⟨?_, ?_⟩) fun k => hP _ ?_) ?_
  · unfold steal_begin
    split <;> simp
  · rcases hundo with rfl | ⟨r, rfl, hr⟩
    · nofun
    · exact forall_mem_singleton.mpr hr
  · -- each of the two lists has at most one record
    unfold steal_begin
    rcases hundo with rfl | ⟨r, rfl, -⟩ <;> split <;> rcases k with _ | _ | k <;> simp
  · rw [run_log_recs]
    exact Stops.cons hall nofun (Stops.cons hall nofun (Stops.cons hdone nofun (Stops.nil hdone)))

/-- Page writes, a truncation and what follows them. -/
theorem stops_writes_cut {us : List StagedPage} {cut : Option Nat}
    {ops : List IoOp} (hmax : ∀ u ∈ us, u.1 < MAX_PAGES)
    (hP : ∀ k, P { d with data := write_all Page.zero d.data (us.take k) })
    (hops : Stops (d.run (write_ops us ++ truncate_ops cut)) ops P) :
    Stops d (write_ops us ++ truncate_ops cut ++ ops) P := by
  refine Stops.append (Stops.append ?_ ?_) hops
  · intro k b
    rw [cut_io_write_ops, Disk.run_write_ops fun u hu => hmax u (mem_of_mem_take hu)]
    exact hP k
  · have hcut := hops.here
    have hdone := hP us.length
    rw [Disk.run_append] at hcut
    rw [take_length, ← Disk.run_write_ops hmax] at hdone
    cases cut with
    | none => exact Stops.nil hdone
    | some n => exact Stops.cons hdone nofun (Stops.nil hcut)

/-- What `wal_commit` needs of its staged pages. -/
structure StagedOk (d : Disk) (staged : List StagedPage) : Prop where
  room : staged.length ≤ WAL_MAX_STAGED
  nodup : (staged.map Prod.fst).Nodup
  inside : ∀ u ∈ staged, u.1 < d.data.length

/-- A stop before the marker: recovery finds the transaction open, as it was in `d`. -/
structure StillOpen (d : Disk) (C : List Page) (hist cur : List Rec) (d' : Disk) : Prop where
  restores : Restores C d'
  data : d'.data = d.data
  redo : redo_images d'.log = (scan .init hist).redone
  loser : loser_scan d'.log = (undo_images cur, last_base none cur)

/-- A stop from the marker on: recovery finds no open transaction. -/
structure Closed (d : Disk) (C : List Page) (hist : List Rec) (staged : List StagedPage)
    (d' : Disk) : Prop where
  restores : Restores C d'
  length : d'.data.length = d.data.length
  redo : ∀ u ∈ redo_images d'.log, u ∈ (scan .init hist).redone ∨ u ∈ staged
  loser : loser_scan d'.log = ([], none)

/-- After-images without their marker change nothing. -/
theorem DiskInv.open_pages (h : DiskInv d C hist cur)
    (hroom : staged.length ≤ WAL_MAX_STAGED) (hin : ∀ u ∈ staged, u.1 < d.data.length) (lsn : Nat)
    (ht : Torn t) :
    StillOpen d C hist cur { d with log := d.log ++ encode_all (page_recs lsn staged) ++ t } := by
  have hscan : scan .init (hist ++ cur ++ page_recs lsn staged) =
      ⟨(scan .init hist).redone, staged, cur ++ page_recs lsn staged⟩ := by
    rw [scan_append, scan_hist_steals h.closed h.steals, scan_page_recs _ _ (by simpa using hroom)]
    simp
  have hreads : Reads (d.log ++ encode_all (page_recs lsn staged) ++ t)
      (hist ++ cur ++ page_recs lsn staged) := .torn t ht (by simp [h.log])
  have hfits : ∀ r ∈ hist ++ cur ++ page_recs lsn staged, r.fits := by
    exact forall_mem_append.mpr ⟨h.fits,
      page_recs_fits (fun u hu => lt_of_lt_of_le (hin u hu) h.bound) _⟩
  obtain ⟨hredo, hloser⟩ := hreads.recover hfits
  refine ⟨⟨hist ++ cur ++ page_recs lsn staged, hreads, hfits, h.bound, h.count, ?_, ?_, ?_, ?_⟩,
    rfl, ?_, ?_⟩
  · rw [hscan]
    exact h.redo_lt
  · rw [hscan]
    simpa [undo_images_append] using h.undo_lt
  · rw [hscan]
    simpa [last_base_append] using h.base
  · rw [hscan]
    simpa [undo_images_append] using fun p hp => h.value (p := p) hp
  · rw [hredo, hscan]
  · rw [hloser, hscan]
    simp [undo_images_append, last_base_append]

/-- Of the first `n` pages, those not staged are not older in the log than in the file. -/
def FreshImages (d : Disk) (redone : List StagedPage) (n : Nat) (staged : List StagedPage) : Prop :=
  ∀ p < n, p ∉ staged.map Prod.fst → ∀ x, last_write redone p = some x → d.data[p]? = some x

/-- The records of a log after a commit of `staged`. -/
def closed_by (hist cur : List Rec) (lsn : Nat) (staged : List StagedPage) : List Rec :=
  hist ++ cur ++ page_recs lsn staged ++ [.commit (lsn + staged.length)]

/-- The disk operations of a commit that finds `L` bytes in the log at the end. -/
def commit_ops (lsn : Nat) (staged : List StagedPage) (L : Nat) : List IoOp :=
  (page_recs lsn staged).map log_rec ++ [log_rec (.commit (lsn + staged.length)), .fsync_log] ++
    write_ops staged ++ checkpoint_io L

/-- A commit stops while the after-images are logged, behind the first byte of
    the marker, while the pages are written, or after the checkpoint. -/
theorem stops_commit
    (hlog : d.log = encode_all (hist ++ cur)) (hmax : ∀ u ∈ staged, u.1 < MAX_PAGES) (lsn L : Nat)
    (hopen : ∀ k t, Torn t →
      P { d with log := d.log ++ encode_all (page_recs lsn (staged.take k)) ++ t })
    (hmarked : ∀ k log, Reads log (closed_by hist cur lsn staged) →
      P ⟨write_all Page.zero d.data (staged.take k), log⟩)
    (hempty : P ⟨write_all Page.zero d.data staged, []⟩) :
    Stops d (commit_ops lsn staged L) P ∧
    d.run (commit_ops lsn staged L) = ⟨write_all Page.zero d.data staged,
      if L > WAL_CHECKPOINT_BYTES then [] else encode_all (closed_by hist cur lsn staged)⟩ := by
  have hpages : d.run ((page_recs lsn staged).map log_rec) =
      { d with log := d.log ++ encode_all (page_recs lsn staged) } := run_log_recs _ _
  have hmarker : d.log ++ encode_all (page_recs lsn staged) ++
      (Rec.commit (lsn + staged.length)).encode = encode_all (closed_by hist cur lsn staged) := by
    simp [closed_by, hlog]
  have hcommit : d.run ((page_recs lsn staged).map log_rec ++
      [log_rec (.commit (lsn + staged.length)), .fsync_log]) =
      ⟨d.data, encode_all (closed_by hist cur lsn staged)⟩ := by
    rw [Disk.run_append, hpages, ← hmarker]
    rfl
  have hwritten : d.run ((page_recs lsn staged).map log_rec ++
      [log_rec (.commit (lsn + staged.length)), .fsync_log] ++ write_ops staged) =
      ⟨write_all Page.zero d.data staged, encode_all (closed_by hist cur lsn staged)⟩ := by
    rw [Disk.run_append, hcommit, Disk.run_write_ops hmax]
  have hdone := hmarked staged.length _ (Reads.exact _)
  rw [take_length] at hdone
  have hcut : (⟨write_all Page.zero d.data staged, encode_all (closed_by hist cur lsn staged)⟩ :
      Disk).apply (.log_truncate 0) = ⟨write_all Page.zero d.data staged, []⟩ := by
    simp [Disk.apply, resize]
  refine ⟨Stops.append (Stops.append (Stops.append (stops_page_recs hopen) ?_) ?_) ?_, ?_⟩
  · rw [hpages]
    have hlast := hopen staged.length [] Torn.nil
    rw [take_length, append_nil] at hlast
    have hfull : P ⟨d.data, encode_all (closed_by hist cur lsn staged)⟩ := hmarked 0 _ (Reads.exact _)
    refine Stops.cons hlast (fun bs hbs b => ?_) ?_
    · -- the first byte of the marker decides
      cases hbs
      cases b with
      | zero => simpa using hlast
      | succ b =>
        have := hmarked 0 (encode_all (hist ++ cur ++ page_recs lsn staged) ++
          REC_COMMIT :: (le_bytes 8 (lsn + staged.length)).take b)
          (.marker _ _ _ rfl (by simp) rfl)
        simpa [write_all, Rec.encode, hlog] using this
    · simp only [Disk.apply, log_rec, hmarker]
      exact Stops.cons hfull (by simp) (Stops.nil hfull)
  · rw [hcommit]
    intro k b
    rw [cut_io_write_ops, Disk.run_write_ops fun u hu => hmax u (mem_of_mem_take hu)]
    exact hmarked k _ (Reads.exact _)
  · rw [hwritten, checkpoint_io]
    split
    · refine Stops.cons hdone (by simp) (Stops.cons hdone (by simp) (Stops.nil ?_))
      change P (Disk.apply ⟨_, _⟩ _)
      rw [hcut]
      exact hempty
    · exact Stops.nil hdone
  · rw [commit_ops, Disk.run_append, hwritten, checkpoint_io]
    split
    · exact hcut
    · rfl

section Commit

variable {staged : List StagedPage} {n : Nat}

variable (h : DiskInv d C hist cur)

include h

variable (hok : StagedOk d staged)

include hok

theorem DiskInv.scan_closed_by (lsn : Nat) :
    scan .init (closed_by hist cur lsn staged) = ⟨(scan .init hist).redone ++ staged, [], []⟩ := by
  rw [closed_by, scan_append, scan_append, scan_hist_steals h.closed h.steals,
    scan_page_recs _ _ (by simpa using hok.room)]
  rfl

theorem DiskInv.closed_by_fits (lsn : Nat) : ∀ r ∈ closed_by hist cur lsn staged, r.fits := by
  refine forall_mem_append.mpr ⟨forall_mem_append.mpr ⟨h.fits, ?_⟩, forall_mem_singleton.mpr trivial⟩
  exact page_recs_fits (fun u hu => lt_of_lt_of_le (hok.inside u hu) h.bound) _

theorem DiskInv.closed_by_lt : ∀ u ∈ (scan .init hist).redone ++ staged, u.1 < MAX_PAGES :=
  forall_mem_append.mpr ⟨h.redo_lt, fun u hu => lt_of_lt_of_le (hok.inside u hu) h.bound⟩

variable (hfresh : FreshImages d (scan .init hist).redone n staged)

include hfresh

/-- From the marker on, recovery yields the new content, however many of the
    staged pages have reached the data file. -/
theorem DiskInv.closed_marker
    (lsn k : Nat) {log : List UInt8} (hlog : Reads log (closed_by hist cur lsn staged)) :
    Closed d ((write_all Page.zero d.data staged).take n) hist staged
      ⟨write_all Page.zero d.data (staged.take k), log⟩ := by
  have hlen : (write_all Page.zero d.data (staged.take k)).length = d.data.length :=
    length_write_all_of_lt _ fun u hu => hok.inside u (mem_of_mem_take hu)
  have hlen' : (write_all Page.zero d.data staged).length = d.data.length :=
    length_write_all_of_lt _ hok.inside
  have hscan := h.scan_closed_by hok lsn
  obtain ⟨hredo, hloser⟩ := hlog.recover (h.closed_by_fits hok lsn)
  rw [hscan] at hredo hloser
  refine ⟨⟨_, hlog, h.closed_by_fits hok lsn, by simpa [hlen] using h.bound,
    by simp [hlen, hlen'], ?_, ?_, ?_, ?_⟩, hlen, ?_, hloser⟩
  rotate_left 4
  · intro u hu
    simp only [hredo] at hu
    exact mem_append.mp hu
  · rw [hscan]
    exact h.closed_by_lt hok
  · simp [hscan, undo_images]
  · simp [hscan, last_base]
  · intro p hp
    obtain ⟨hpn, hp⟩ : p < n ∧ p < d.data.length := by simpa [hlen'] using hp
    rw [hscan, getElem?_take_of_lt hpn, getElem?_write_all hp, getElem?_write_all hp,
      last_write_append]
    simp only [undo_images, last_write_nil, Option.none_or]
    cases hs : last_write staged p with
    | some x => simp
    | none =>
      have hnot := last_write_eq_none.mp hs
      have hk : last_write (staged.take k) p = none := by
        rw [last_write_eq_none, map_take]
        exact fun hmem => hnot (mem_of_mem_take hmem)
      simp only [hk, Option.none_or]
      cases hr : last_write (scan .init hist).redone p with
      | some x => simpa using (hfresh p hpn hnot x hr).symm
      | none => simp

/-- A finished commit: the new content is closed off by its marker. -/
theorem DiskInv.committed (lsn : Nat) :
    DiskInv ⟨write_all Page.zero d.data staged, encode_all (closed_by hist cur lsn staged)⟩
      ((write_all Page.zero d.data staged).take n) (closed_by hist cur lsn staged) [] := by
  have hlen : (write_all Page.zero d.data staged).length = d.data.length :=
    length_write_all_of_lt _ hok.inside
  have hscan := h.scan_closed_by hok lsn
  refine ⟨by simp, by simpa using h.closed_by_fits hok lsn, by rw [hscan], by simp,
    by simpa [hlen] using h.bound, by simp, by rw [hscan]; exact h.closed_by_lt hok, ?_,
    by simp [undo_images], by simp [undo_images], by simp [undo_images], ?_, by simp [last_base]⟩
  · intro p hp x hx
    obtain ⟨hpn, hp⟩ : p < n ∧ p < d.data.length := by simpa [hlen] using hp
    rw [hscan, last_write_append] at hx
    rw [getElem?_take_of_lt hpn, getElem?_write_all hp]
    cases hs : last_write staged p with
    | some y => simpa [hs] using hx
    | none =>
      simp only [hs, Option.none_or] at hx ⊢
      exact hfresh p hpn (last_write_eq_none.mp hs) x hx
  · intro p hp _
    obtain ⟨hpn, -⟩ : p < n ∧ p < d.data.length := by simpa [hlen] using hp
    rw [getElem?_take_of_lt hpn]

/-- A commit of `staged` when the file counts `n` pages. -/
theorem DiskInv.commit (lsn L : Nat) :
    Stops d (commit_ops lsn staged L) (fun d' => StillOpen d C hist cur d' ∨
        Closed d ((write_all Page.zero d.data staged).take n) hist staged d') ∧
    ∃ hist', (∀ u ∈ (scan .init hist').redone, u ∈ (scan .init hist).redone ∨ u ∈ staged) ∧
      DiskInv (d.run (commit_ops lsn staged L)) ((write_all Page.zero d.data staged).take n) hist' [] := by
  have hmax : ∀ u ∈ staged, u.1 < MAX_PAGES :=
    fun u hu => lt_of_lt_of_le (hok.inside u hu) h.bound
  have hlen : (write_all Page.zero d.data staged).length = d.data.length :=
    length_write_all_of_lt _ hok.inside
  have hempty : DiskInv ⟨write_all Page.zero d.data staged, []⟩
      ((write_all Page.zero d.data staged).take n) [] [] :=
    (DiskInv.fresh (by rw [hlen]; exact h.bound)).take n
  obtain ⟨hstops, hrun⟩ := stops_commit (P := fun d' => StillOpen d C hist cur d' ∨
      Closed d ((write_all Page.zero d.data staged).take n) hist staged d') h.log hmax lsn L
    (fun k t ht => .inl (h.open_pages
      ((length_take_le' k _).trans hok.room) (fun u hu => hok.inside u (mem_of_mem_take hu)) lsn ht))
    (fun k log hreads => .inr (h.closed_marker hok hfresh lsn k hreads))
    (.inr ⟨hempty.restores, hlen, nofun, rfl⟩)
  refine ⟨hstops, ?_⟩
  rw [hrun]
  split
  · exact ⟨[], nofun, hempty⟩
  · refine ⟨_, fun u hu => ?_, h.committed hok hfresh lsn⟩
    rw [h.scan_closed_by hok lsn] at hu
    exact mem_append.mp hu

end Commit

/-! ### Undo -/

variable (h : DiskInv d C hist cur)

include h

/-- Restoring before-images keeps the invariant. -/
theorem DiskInv.write_before {us : List StagedPage}
    (hus : ∀ u ∈ us, u ∈ undo_images cur) :
    DiskInv { d with data := write_all Page.zero d.data us } C hist cur := by
  induction us generalizing d with
  | nil => exact h
  | cons u us ih =>
    obtain ⟨p, x⟩ := u
    have hmem : (p, x) ∈ undo_images cur := hus _ mem_cons_self
    have hp : p < d.data.length := h.undo_lt _ hmem
    have hw := h.write_stolen x hp (.inl (mem_map_of_mem hmem))
    have hmax : p < MAX_PAGES := lt_of_lt_of_le hp h.bound
    have := ih hw fun u hu => hus u (mem_cons_of_mem _ hu)
    simpa [Disk.apply, hmax, write_all] using this

/-- All before-images restored: the file holds the committed content. -/
theorem DiskInv.write_before_all :
    ∀ p < C.length, (write_all Page.zero d.data (undo_images cur))[p]? = C[p]? := by
  intro p hp
  rw [getElem?_write_all (lt_of_lt_of_le hp h.count)]
  cases hu : last_write (undo_images cur) p with
  | some x => simpa using (h.undo_val (p, x) (mem_of_last_write hu) hp).symm
  | none => simpa using h.keep p hp (last_write_eq_none.mp hu)

theorem DiskInv.truncate {n : Nat} (hC : C.length ≤ n)
    (hn : n ≤ d.data.length) (hu : ∀ u ∈ undo_images cur, u.1 < n) :
    DiskInv (d.apply (.data_truncate n)) C hist cur where
  __ := h
  bound := by have := h.bound; simp [Disk.apply]; omega
  count := by simpa [Disk.apply] using hC
  undo_lt := by simpa [Disk.apply] using hu
  keep := fun p hp hnot => by
    have hlt := lt_of_lt_of_le hp h.count
    simpa [Disk.apply, getElem?_resize (z := Page.zero) (lt_of_lt_of_le hp hC) hlt]
      using h.keep p hp hnot

/-- With the file back at the committed content the open records may go. -/
theorem DiskInv.drop_open (hC : ∀ p < C.length, d.data[p]? = C[p]?) :
    DiskInv { d with log := encode_all hist } C hist [] where
  log := by simp
  fits := fun r hr => h.fits r (mem_append_left _ (by simpa using hr))
  __ := h
  steals := by simp
  undo_lt := by simp [undo_images]
  undo_nodup := by simp [undo_images]
  undo_val := by simp [undo_images]
  keep := fun p hp _ => hC p hp
  base := by simp [last_base]

omit h in
theorem truncate_to_some {b n m : Nat} (h : truncate_to (some b) n = some m) : m = b ∧ b < n := by
  simp only [truncate_to] at h
  split at h
  · next hlt => cases h; exact ⟨rfl, hlt⟩
  · cases h

omit h in
/-- `wal_undo` reads back exactly the before-images of its own steals. -/
theorem undo_scan_of {w : Wal} {pre : List Rec} (hlog : w.log = encode_all pre ++ encode_all cur)
    (hstart : w.txn_log_start = (encode_all pre).length) (hfits : ∀ r ∈ cur, r.fits)
    (hsteals : ∀ r ∈ cur, r.is_steal) (hbase : last_base none cur = some w.base_pages) :
    undo_scan w = (undo_images cur, some w.base_pages) := by
  have hloop : undo_loop false (encode_all cur).length (encode_all cur ++ []) (some w.base_pages) =
      (undo_images cur, last_base (some w.base_pages) cur) :=
    undo_loop_encode hfits (fun lsn hmem => hsteals _ hmem) (fun _ lsn pid x hmem => hsteals _ hmem)
      Torn.nil _ _ (length_le_encode_all cur)
  rw [append_nil, last_base_eq_or, hbase] at hloop
  rw [undo_scan, hlog, hstart, drop_left]
  exact hloop

/-- The disk operations of an undo of `cur`, where the transaction began with
    `b` pages and the file counts `n` now. -/
theorem DiskInv.undo {b n : Nat} (hC : C.length ≤ b)
    (hn : n ≤ d.data.length) (hu : ∀ u ∈ undo_images cur, u.1 < b) {ops : List IoOp}
    (hops : ops = write_ops (undo_images cur) ++ truncate_ops (truncate_to (some b) n) ++
      [.fsync_data, .log_truncate (encode_all hist).length]) :
    Stops d ops (Restores C) ∧ DiskInv (d.run ops) C hist [] ∧
      (truncate_to (some b) n).getD n ≤ (d.run ops).data.length := by
  set d1 : Disk := { d with data := write_all Page.zero d.data (undo_images cur) } with hd1
  have hmax : ∀ u ∈ undo_images cur, u.1 < MAX_PAGES :=
    fun u hu => lt_of_lt_of_le (h.undo_lt u hu) h.bound
  have hrun1 : d.run (write_ops (undo_images cur)) = d1 := Disk.run_write_ops hmax d
  have h1 : DiskInv d1 C hist cur := h.write_before fun u hu => hu
  have hlen1 : d1.data.length = d.data.length := length_write_all_of_lt _ h.undo_lt
  have hval1 : ∀ p < C.length, d1.data[p]? = C[p]? := h.write_before_all
  -- the truncation keeps every committed page
  obtain ⟨d2, hd2, h2, hval2, hlen2⟩ : ∃ d2,
      d1.run (truncate_ops (truncate_to (some b) n)) = d2 ∧ DiskInv d2 C hist cur ∧
      (∀ p < C.length, d2.data[p]? = C[p]?) ∧
      (truncate_to (some b) n).getD n ≤ d2.data.length := by
    cases hcut : truncate_to (some b) n with
    | none => exact ⟨d1, rfl, h1, hval1, hlen1 ▸ hn⟩
    | some m =>
      obtain ⟨rfl, hlt⟩ := truncate_to_some hcut
      have ht := h1.truncate hC (by omega) hu
      refine ⟨_, rfl, ht, ?_, by simp [truncate_ops, Disk.apply]⟩
      intro p hp
      have hpl := lt_of_lt_of_le hp h1.count
      have := hval1 p hp
      simpa [truncate_ops, Disk.apply, getElem?_resize (z := Page.zero)
        (lt_of_lt_of_le hp hC) hpl] using this
  have h3 := h2.drop_open hval2
  have hlog3 : d2.apply (.log_truncate (encode_all hist).length) =
      { d2 with log := encode_all hist } := by
    have hlog : d2.log = encode_all hist ++ encode_all cur := by simpa using h2.log
    simp [Disk.apply, hlog, resize_of_le]
  have hend : d2.run [.fsync_data, .log_truncate (encode_all hist).length] =
      { d2 with log := encode_all hist } := hlog3
  have hall : d.run ops = { d2 with log := encode_all hist } := by
    rw [hops, Disk.run_append, Disk.run_append, hrun1, hd2, hend]
  rw [hall]
  refine ⟨?_, h3, hlen2⟩
  rw [hops]
  refine stops_writes_cut hmax (fun k => (h.write_before fun u hu => mem_of_mem_take hu).restores) ?_
  rw [Disk.run_append, hrun1, hd2]
  exact Stops.cons h2.restores (by simp) (Stops.cons h2.restores (by simp) (Stops.nil (hlog3 ▸ h3.restores)))

end MiniDb
