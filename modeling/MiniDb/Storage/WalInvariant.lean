import MiniDb.Storage.Wal

/-! # The recovery invariant of a log and its data file

  `DiskInv d C hist cur` relates a disk to the committed content `C` of its
  data pages.  The log is a closed history `hist` of committed segments,
  followed by the records `cur` of a transaction that has not ended:

  * every after-image recovery would replay from `hist` is the committed
    content of its page, so redo cannot leave an old version behind;
  * every page changed on disk by the open transaction has its committed
    content as a before-image in `cur`; all other pages hold it in the file.

  `Recoverable` is what this means for one run of `wal_open`, and it is also
  stated for the disks that a stop inside a call leaves. -/

namespace MiniDb

open Framework List

/-! ### Disks that recover to a given content -/

/-- A run of `wal_open` on `d` restores the pages `C`: undo wins over redo,
    redo over the file, and the truncation keeps every page of `C`. -/
structure Recoverable (d : Disk) (C : List Page) (rs : List Rec) : Prop where
  reads : Reads d.log rs
  fits : ∀ r ∈ rs, r.fits
  bound : d.data.length ≤ MAX_PAGES
  count : C.length ≤ d.data.length
  redo_lt : ∀ u ∈ (scan .init rs).redone, u.1 < MAX_PAGES
  undo_lt : ∀ u ∈ undo_images (scan .init rs).loser, u.1 < d.data.length
  base : ∀ b, last_base none (scan .init rs).loser = some b → C.length ≤ b
  value : ∀ p < C.length,
    (last_write (undo_images (scan .init rs).loser) p).or
      ((last_write (scan .init rs).redone p).or d.data[p]?) = C[p]?

variable {d : Disk} {C : List Page} {cur hist : List Rec} {rs : List Rec}

theorem Reads.recover_io (hreads : Reads d.log rs) (hfits : ∀ r ∈ rs, r.fits) :
    wal_recover_io (wal_fresh d) =
      write_ops ((scan .init rs).redone ++ undo_images (scan .init rs).loser) ++
        truncate_ops (truncate_to (last_base none (scan .init rs).loser) d.data.length) ++
        [.log_truncate 0, .fsync_data] := by
  obtain ⟨hr, hl⟩ := hreads.recover hfits
  rw [wal_recover_io, write_ops_append, ← hr]
  simp [wal_fresh, pager_open, hl]

/-- The data file after `wal_open`, when all page ids in the log are inside it. -/
theorem wal_open_file (hreads : Reads d.log rs) (hfits : ∀ r ∈ rs, r.fits)
    (hredo : ∀ u ∈ (scan .init rs).redone, u.1 < MAX_PAGES)
    (hundo : ∀ u ∈ undo_images (scan .init rs).loser, u.1 < MAX_PAGES) :
    (wal_open d).data.file =
      let f := write_all Page.zero d.data
        ((scan .init rs).redone ++ undo_images (scan .init rs).loser)
      match truncate_to (last_base none (scan .init rs).loser) d.data.length with
      | some n => resize Page.zero f n
      | none => f := by
  have hall := forall_mem_append.mpr ⟨hredo, hundo⟩
  have hfile : (wal_open d).data.file = (d.run (wal_recover_io (wal_fresh d))).data := rfl
  rw [hfile, hreads.recover_io hfits, Disk.run_append, Disk.run_append, Disk.run_write_ops hall]
  cases truncate_to (last_base none (scan .init rs).loser) d.data.length with
  | none => rfl
  | some n => rfl

/-- One run of `wal_open` restores the content. -/
theorem Recoverable.wal_open (h : Recoverable d C rs) :
    ∀ p < C.length, (wal_open d).data.file[p]? = C[p]? := by
  intro p hp
  have hlt : p < d.data.length := lt_of_lt_of_le hp h.count
  rw [wal_open_file h.reads h.fits h.redo_lt
    (fun u hu => lt_of_lt_of_le (h.undo_lt u hu) h.bound)]
  have hf : (write_all Page.zero d.data ((scan .init rs).redone ++
      undo_images (scan .init rs).loser))[p]? = C[p]? := by
    rw [getElem?_write_all hlt, last_write_append, Option.or_assoc]
    exact h.value p hp
  cases hcut : truncate_to (last_base none (scan .init rs).loser) d.data.length with
  | none => simpa using hf
  | some n =>
    have hn : C.length ≤ n := by
      unfold truncate_to at hcut
      cases hb : last_base none (scan .init rs).loser with
      | none => simp [hb] at hcut
      | some b =>
        have := h.base b hb
        simp only [hb] at hcut
        split at hcut
        · cases hcut; exact this
        · cases hcut
    have hlen := length_write_all_le Page.zero d.data
      ((scan .init rs).redone ++ undo_images (scan .init rs).loser)
    simp only
    rw [getElem?_resize (by omega) (by omega)]
    exact hf

/-! ### The invariant -/

/-- A record a steal may write. -/
def Rec.is_steal : Rec → Prop
  | .begin _ _ => True
  | .undo _ _ _ => True
  | _ => False

structure DiskInv (d : Disk) (C : List Page) (hist cur : List Rec) : Prop where
  log : d.log = encode_all (hist ++ cur)
  fits : ∀ r ∈ hist ++ cur, r.fits
  closed : scan .init hist = ⟨(scan .init hist).redone, [], []⟩
  steals : ∀ r ∈ cur, r.is_steal
  bound : d.data.length ≤ MAX_PAGES
  count : C.length ≤ d.data.length
  redo_lt : ∀ u ∈ (scan .init hist).redone, u.1 < MAX_PAGES
  /-- The newest after-image of a page is its committed content. -/
  images : ∀ p < C.length, ∀ x, last_write (scan .init hist).redone p = some x → C[p]? = some x
  undo_lt : ∀ u ∈ undo_images cur, u.1 < d.data.length
  undo_nodup : ((undo_images cur).map Prod.fst).Nodup
  undo_val : ∀ u ∈ undo_images cur, u.1 < C.length → C[u.1]? = some u.2
  keep : ∀ p < C.length, p ∉ (undo_images cur).map Prod.fst → d.data[p]? = C[p]?
  base : ∀ b, last_base none cur = some b → C.length ≤ b

/-- Steal records add nothing to redo. -/
theorem scan_steals (s : Scan) (h : ∀ r ∈ cur, r.is_steal) :
    scan s cur = ⟨s.redone, s.pending, s.loser ++ cur⟩ := by
  induction cur generalizing s with
  | nil => simp
  | cons r cur ih =>
    rw [scan_cons, ih _ fun r hr => h r (mem_cons_of_mem _ hr)]
    have := h r mem_cons_self
    cases r <;> simp_all [Scan.next, Rec.is_steal]

theorem scan_hist_steals (hclosed : scan .init hist = ⟨(scan .init hist).redone, [], []⟩)
    (h : ∀ r ∈ cur, r.is_steal) :
    scan .init (hist ++ cur) = ⟨(scan .init hist).redone, [], cur⟩ := by
  rw [scan_append, hclosed, scan_steals _ h]
  rfl

/-- The before-image wins, then the after-image, then the file. -/
theorem DiskInv.value (h : DiskInv d C hist cur) {p : Nat} (hp : p < C.length) :
    (last_write (undo_images cur) p).or
      ((last_write (scan .init hist).redone p).or d.data[p]?) = C[p]? := by
  cases hu : last_write (undo_images cur) p with
  | some x =>
    have := h.undo_val (p, x) (mem_of_last_write hu) hp
    simpa using this.symm
  | none =>
    cases hr : last_write (scan .init hist).redone p with
    | some x => simpa using (h.images p hp x hr).symm
    | none => simpa using h.keep p hp (last_write_eq_none.mp hu)

/-- The invariant is enough to recover, also with a torn end in the log. -/
theorem DiskInv.recoverable (h : DiskInv d C hist cur) {t : List UInt8} (ht : Torn t) :
    Recoverable { d with log := d.log ++ t } C (hist ++ cur) := by
  have hscan := scan_hist_steals h.closed h.steals
  refine ⟨.torn t ht (by simp [h.log]), h.fits, h.bound, h.count, ?_, ?_, ?_, ?_⟩
  · rw [hscan]
    exact h.redo_lt
  · rw [hscan]
    exact h.undo_lt
  · rw [hscan]
    exact h.base
  · rw [hscan]
    exact fun p hp => h.value hp

/-- A data file with an empty log is its own committed content. -/
theorem DiskInv.fresh {f : List Page} (h : f.length ≤ MAX_PAGES) :
    DiskInv ⟨f, []⟩ f [] [] where
  log := rfl
  fits := by simp
  closed := rfl
  steals := by simp
  bound := h
  count := le_rfl
  redo_lt := by simp [Scan.init]
  images := by simp [Scan.init]
  undo_lt := by simp [undo_images]
  undo_nodup := by simp [undo_images]
  undo_val := by simp [undo_images]
  keep := by simp
  base := by simp [last_base]

/-- Only the first `n` pages are asked for. -/
theorem DiskInv.take (h : DiskInv d C hist []) (n : Nat) : DiskInv d (C.take n) hist [] where
  __ := h
  count := by have := h.count; simp; omega
  images := fun p hp x hx => by
    have hp' : p < n ∧ p < C.length := by simpa using hp
    simpa [hp'.1] using h.images p hp'.2 x hx
  undo_val := by simp [undo_images]
  keep := fun p hp hnot => by
    have hp' : p < n ∧ p < C.length := by simpa using hp
    simpa [hp'.1] using h.keep p hp'.2 hnot
  base := by simp [last_base]

/-- Growing the file by whole pages at its end keeps the invariant. -/
theorem DiskInv.append (h : DiskInv d C hist cur) (x : Page) (hlen : d.data.length < MAX_PAGES) :
    DiskInv { d with data := d.data ++ [x] } C hist cur where
  __ := h
  bound := by simp; omega
  count := by have := h.count; simp; omega
  undo_lt := fun u hu => by have := h.undo_lt u hu; simp; omega
  keep := fun p hp hnot => by
    have hlt : p < d.data.length := lt_of_lt_of_le hp h.count
    simpa [getElem?_append_left hlt] using h.keep p hp hnot

end MiniDb
