import MiniDb.Storage.WalRecovery

/-! # Stopping again inside recovery

  `wal_recover` redoes and undoes page images, cuts the file and empties the
  log, in this order, and a process may stop between any two of these.  The
  next `wal_open` starts over on what is left.

  A run of `wal_open` is a function of the file and of the images and the base
  in the log (`recovered`).  Restarting is harmless when every page it writes
  lies below the loser's base (`Restartable`): then `recovered` may be applied
  to any file between its input and its output.  The calls of a transaction
  that `wal_begin` has opened keep this, because `wal_begin` notes the page
  count after every commit that is in the log. -/

namespace MiniDb

open Framework List Option

/-! ### One run of recovery, as a function of the file -/

/-- Write the images `us`, then cut the file back to `base`. -/
def recovered (us : List StagedPage) (base : Option Nat) (f : List Page) : List Page :=
  match truncate_to base f.length with
  | some n => resize Page.zero (write_all Page.zero f us) n
  | none => write_all Page.zero f us

section Recovered

variable {us : List StagedPage} {base : Option Nat} {f : List Page} {vs : List StagedPage}

/-- Images that are written again later may be written before as well. -/
theorem write_all_absorb (hvs : ∀ v ∈ vs, v ∈ us)
    (hin : ∀ u ∈ us, u.1 < f.length) :
    write_all Page.zero (write_all Page.zero f vs) us = write_all Page.zero f us := by
  have hlen : (write_all Page.zero f vs).length = f.length :=
    length_write_all_of_lt _ fun v hv => hin v (hvs v hv)
  have hlen' : (write_all Page.zero (write_all Page.zero f vs) us).length = f.length := by
    rw [length_write_all_of_lt _ (fun u hu => hlen.symm ▸ hin u hu), hlen]
  refine ext_getElem? fun p => ?_
  rcases lt_or_ge p f.length with hp | hp
  · rw [getElem?_write_all (hlen.symm ▸ hp), getElem?_write_all hp, getElem?_write_all hp]
    cases hu : last_write us p with
    | some x => rfl
    | none =>
      -- a page that `us` does not have is not among `vs` either
      have hv : last_write vs p = none := by
        rw [last_write_eq_none] at hu ⊢
        intro hmem
        obtain ⟨v, hv, rfl⟩ := mem_map.1 hmem
        exact hu (mem_map_of_mem (hvs v hv))
      rw [hv]
      rfl
  · rw [getElem?_eq_none (hlen'.symm ▸ hp),
      getElem?_eq_none (by rw [length_write_all_of_lt _ hin]; exact hp)]

/-- A stop after some of the writes. -/
theorem recovered_write_all (hvs : ∀ v ∈ vs, v ∈ us)
    (hin : ∀ u ∈ us, u.1 < f.length) :
    recovered us base (write_all Page.zero f vs) = recovered us base f := by
  have hlen : (write_all Page.zero f vs).length = f.length :=
    length_write_all_of_lt _ fun v hv => hin v (hvs v hv)
  rw [recovered, recovered, hlen, write_all_absorb hvs hin]

variable (hin : ∀ u ∈ us, u.1 < f.length)

include hin

theorem length_recovered :
    (recovered us base f).length = (truncate_to base f.length).getD f.length := by
  unfold recovered
  cases truncate_to base f.length with
  | none => exact length_write_all_of_lt _ hin
  | some n => exact length_resize _ _ _

variable (hbase : ∀ b, base = some b → ∀ u ∈ us, u.1 < b)

include hbase

/-- The images lie inside the file that a run leaves. -/
theorem recovered_inside :
    ∀ u ∈ us, u.1 < (recovered us base f).length := by
  intro u hu
  rw [length_recovered hin]
  cases hcut : truncate_to base f.length with
  | none => exact hin u hu
  | some n =>
    cases base with
    | none => cases hcut
    | some b =>
      obtain ⟨rfl, -⟩ := truncate_to_some hcut
      exact hbase n rfl u hu

/-- A stop after the truncation, or after the writes when there is none. -/
theorem recovered_recovered :
    recovered us base (recovered us base f) = recovered us base f := by
  cases hcut : truncate_to base f.length with
  | none =>
    have hone : recovered us base f = write_all Page.zero f us := by rw [recovered, hcut]
    rw [hone, recovered_write_all (fun _ h => h) hin, hone]
  | some n =>
    cases base with
    | none => cases hcut
    | some b =>
      obtain ⟨rfl, hlt⟩ := truncate_to_some hcut
      have hone : recovered us (some n) f = resize Page.zero (write_all Page.zero f us) n := by
        rw [recovered, hcut]
      have hlen : (recovered us (some n) f).length = n := by
        rw [length_recovered hin, hcut, getD_some]
      have hagain : truncate_to (some n) (recovered us (some n) f).length = none := by
        rw [hlen, truncate_to, if_neg (lt_irrefl n)]
      have hins : ∀ u ∈ us, u.1 < (recovered us (some n) f).length := recovered_inside hin hbase
      have hwlen : (write_all Page.zero f us).length = f.length := length_write_all_of_lt _ hin
      rw [recovered.eq_def us (some n) (recovered us (some n) f), hagain]
      -- the file that was cut already holds the newest image of every page
      refine ext_getElem? fun p => ?_
      rcases lt_or_ge p n with hp | hp
      · have hpage : (recovered us (some n) f)[p]? = (last_write us p).or f[p]? := by
          rw [hone, getElem?_resize hp (by omega), getElem?_write_all (by omega)]
        rw [getElem?_write_all (by omega), hpage]
        cases last_write us p <;> simp
      · rw [getElem?_eq_none (by rw [length_write_all_of_lt _ hins]; omega),
          getElem?_eq_none (by omega)]

end Recovered

/-! ### Restarts -/

/-- Every page a run of `wal_open` writes lies inside the file and below the loser's base. -/
structure Restartable (d : Disk) (rs : List Rec) : Prop where
  reads : Reads d.log rs
  fits : ∀ r ∈ rs, r.fits
  bound : d.data.length ≤ MAX_PAGES
  inside : ∀ u ∈ (scan .init rs).redone ++ undo_images (scan .init rs).loser, u.1 < d.data.length
  below : ∀ b, last_base none (scan .init rs).loser = some b →
    ∀ u ∈ (scan .init rs).redone ++ undo_images (scan .init rs).loser, u.1 < b

/-- The disks that stops inside recovery leave, one after another. -/
inductive Restarts (d : Disk) : Disk → Prop
  | none : Restarts d d
  | stop {d' : Disk} (h : Restarts d d') (k b : Nat) :
      Restarts d (d'.run (cut_io (wal_recover_io (wal_fresh d')) k b))

namespace Restartable

variable {d : Disk} {rs : List Rec}

variable (h : Restartable d rs) {f : List Page}

include h

theorem max :
    ∀ u ∈ (scan .init rs).redone ++ undo_images (scan .init rs).loser, u.1 < MAX_PAGES :=
  fun u hu => (h.inside u hu).trans_le h.bound

theorem wal_open : (wal_open d).data.file =
    recovered ((scan .init rs).redone ++ undo_images (scan .init rs).loser)
      (last_base none (scan .init rs).loser) d.data :=
  wal_open_file h.reads h.fits (fun u hu => h.max u (mem_append_left _ hu))
    fun u hu => h.max u (mem_append_right _ hu)

/-- The same log over another file. -/
theorem with_data (hmax : f.length ≤ MAX_PAGES)
    (hin : ∀ u ∈ (scan .init rs).redone ++ undo_images (scan .init rs).loser, u.1 < f.length) :
    Restartable { d with data := f } rs :=
  ⟨h.reads, h.fits, hmax, hin, h.below⟩

omit h in
/-- With an empty log there is nothing left to do. -/
theorem of_empty (hmax : f.length ≤ MAX_PAGES) : Restartable ⟨f, []⟩ [] :=
  ⟨.exact [], nofun, hmax, nofun, nofun⟩

/-- The disks that lead to the file `target`. -/
def LeadsTo (target : List Page) (d : Disk) : Prop :=
  ∃ rs, Restartable d rs ∧ recovered ((scan .init rs).redone ++ undo_images (scan .init rs).loser)
    (last_base none (scan .init rs).loser) d.data = target

/-- Wherever recovery stops, the next one leads to the same file. -/
theorem stops : Stops d (wal_recover_io (wal_fresh d))
    (LeadsTo (recovered ((scan .init rs).redone ++ undo_images (scan .init rs).loser)
      (last_base none (scan .init rs).loser) d.data)) := by
  set us := (scan .init rs).redone ++ undo_images (scan .init rs).loser with hus
  set base := last_base none (scan .init rs).loser with hbase
  set target := recovered us base d.data with htarget
  have hmid : ∀ vs : List StagedPage, (∀ v ∈ vs, v ∈ us) →
      LeadsTo target { d with data := write_all Page.zero d.data vs } := by
    intro vs hvs
    have hlen : (write_all Page.zero d.data vs).length = d.data.length :=
      length_write_all_of_lt _ fun v hv => h.inside v (hvs v hv)
    exact ⟨rs, h.with_data (hlen.symm ▸ h.bound) fun u hu => hlen.symm ▸ h.inside u hu,
      recovered_write_all hvs h.inside⟩
  have hlen : target.length ≤ MAX_PAGES := by
    rw [htarget, length_recovered h.inside]
    cases hcut : truncate_to base d.data.length with
    | none => exact h.bound
    | some n =>
      cases hb : base with
      | none => rw [hb] at hcut; cases hcut
      | some b =>
        rw [hb] at hcut
        obtain ⟨rfl, hlt⟩ := truncate_to_some hcut
        exact hlt.le.trans h.bound
  have hcut : LeadsTo target { d with data := target } :=
    ⟨rs, h.with_data hlen (recovered_inside h.inside h.below),
      recovered_recovered h.inside h.below⟩
  have hrun : d.run (write_ops us ++ truncate_ops (truncate_to base d.data.length)) =
      { d with data := target } := by
    rw [Disk.run_append, Disk.run_write_ops h.max, htarget, recovered]
    cases truncate_to base d.data.length <;> rfl
  rw [h.reads.recover_io h.fits]
  refine stops_writes_cut h.max (fun k => hmid _ fun v hv => mem_of_mem_take hv) ?_
  -- before or after the log is emptied
  rw [hrun]
  have hempty : LeadsTo target ⟨target, []⟩ := ⟨[], of_empty hlen, rfl⟩
  have hlog : ({ d with data := target } : Disk).apply (.log_truncate 0) = ⟨target, []⟩ := by
    simp [Disk.apply, resize]
  exact Stops.cons hcut (by simp) (hlog.symm ▸ Stops.cons hempty (by simp) (Stops.nil hempty))

/-- Recovery may be interrupted any number of times. -/
theorem converges {d' : Disk} (hr : Restarts d d') :
    (MiniDb.wal_open d').data.file = (MiniDb.wal_open d).data.file := by
  have hleads : LeadsTo (MiniDb.wal_open d).data.file d' := by
    induction hr with
    | none => exact ⟨rs, h, h.wal_open.symm⟩
    | stop _ k b ih =>
      obtain ⟨rs', h', htarget⟩ := ih
      exact htarget ▸ h'.stops k b
  obtain ⟨rs', h', htarget⟩ := hleads
  rw [h'.wal_open, htarget]

end Restartable

/-! ### Logs that a restart is safe on -/

/-- The records of a log, split at its last marker, over a file of `n` pages. -/
structure OpenLog (n : Nat) (hist loser : List Rec) : Prop where
  fits : ∀ r ∈ hist ++ loser, r.fits
  closed : scan .init hist = ⟨(scan .init hist).redone, [], []⟩
  steals : ∀ r ∈ loser, r.is_steal
  inside : ∀ u ∈ (scan .init hist).redone ++ undo_images loser, u.1 < n
  /-- Only a later `wal_begin` may have set the base. -/
  below : ∀ b, last_base none loser = some b →
    ∀ u ∈ (scan .init hist).redone ++ undo_images loser, u.1 < b

namespace OpenLog

variable {n : Nat} {hist loser : List Rec}

theorem empty (n : Nat) : OpenLog n [] [] := ⟨nofun, rfl, nofun, nofun, nofun⟩

variable (h : OpenLog n hist loser) (lsn : Nat) {staged : List StagedPage} {d : Disk}
  {t : List UInt8}

include h

theorem mono {m : Nat} (hm : n ≤ m) : OpenLog m hist loser :=
  ⟨h.fits, h.closed, h.steals, fun u hu => (h.inside u hu).trans_le hm, h.below⟩

/-- After-images that no marker closes are not replayed. -/
theorem restartable_pages
    (hroom : staged.length ≤ WAL_MAX_STAGED) (hstaged : ∀ u ∈ staged, u.1 < n)
    (ht : Torn t) (hlog : d.log = encode_all (hist ++ loser ++ page_recs lsn staged) ++ t)
    (hn : n ≤ d.data.length) (hmax : d.data.length ≤ MAX_PAGES) :
    Restartable d (hist ++ loser ++ page_recs lsn staged) := by
  have hscan : scan .init (hist ++ loser ++ page_recs lsn staged) =
      ⟨(scan .init hist).redone, staged, loser ++ page_recs lsn staged⟩ := by
    rw [scan_append, scan_hist_steals h.closed h.steals, scan_page_recs _ _ (by simpa using hroom)]
    simp
  refine ⟨.torn t ht hlog, forall_mem_append.2 ⟨h.fits,
    page_recs_fits (fun u hu => (hstaged u hu).trans_le (hn.trans hmax)) _⟩, hmax, ?_, ?_⟩
  · rw [hscan]
    simpa [undo_images_append] using fun u hu => (h.inside u hu).trans_le hn
  · rw [hscan]
    simpa [undo_images_append, last_base_append] using h.below

theorem restartable (ht : Torn t)
    (hlog : d.log = encode_all (hist ++ loser) ++ t) (hn : n ≤ d.data.length)
    (hmax : d.data.length ≤ MAX_PAGES) : ∃ rs, Restartable d rs :=
  ⟨_, h.restartable_pages 0 (show ([] : List StagedPage).length ≤ WAL_MAX_STAGED from Nat.zero_le _)
    nofun ht (by simpa [page_recs] using hlog) hn hmax⟩

theorem log_begin {b : Nat} (hb : b ≤ MAX_PAGES)
    (hbelow : ∀ u ∈ (scan .init hist).redone ++ undo_images loser, u.1 < b) :
    OpenLog n hist (loser ++ [.begin lsn b]) := by
  have himages : undo_images (loser ++ [.begin lsn b]) = undo_images loser := by
    simp [undo_images_append, undo_images]
  refine ⟨?_, h.closed, forall_mem_append.2 ⟨h.steals, forall_mem_singleton.2 trivial⟩,
    himages.symm ▸ h.inside, fun b' hb' => ?_⟩
  · rw [← append_assoc]
    exact forall_mem_append.2 ⟨h.fits, forall_mem_singleton.2 hb⟩
  · rw [last_base_append] at hb'
    obtain rfl : b = b' := some.inj hb'
    rw [himages]
    exact hbelow

theorem log_undo {p b : Nat} (x : Page) (hbase : last_base none loser = some b)
    (hp : p < b) (hb : b ≤ n) (hn : n ≤ MAX_PAGES) : OpenLog n hist (loser ++ [.undo lsn p x]) := by
  have himages : undo_images (loser ++ [.undo lsn p x]) = undo_images loser ++ [(p, x)] := by
    simp [undo_images_append, undo_images]
  have hsplit : ∀ m, p < m → (∀ u ∈ (scan .init hist).redone ++ undo_images loser, u.1 < m) →
      ∀ u ∈ (scan .init hist).redone ++ undo_images (loser ++ [.undo lsn p x]), u.1 < m := by
    intro m hm hall
    rw [himages, ← append_assoc]
    exact forall_mem_append.2 ⟨hall, forall_mem_singleton.2 hm⟩
  refine ⟨?_, h.closed, forall_mem_append.2 ⟨h.steals, forall_mem_singleton.2 trivial⟩,
    hsplit n (hp.trans_le hb) h.inside, fun b' hb' => ?_⟩
  · rw [← append_assoc]
    exact forall_mem_append.2 ⟨h.fits, forall_mem_singleton.2 (hp.trans_le (hb.trans hn))⟩
  · rw [last_base_append] at hb'
    have hb' : last_base none loser = some b' := hb'
    obtain rfl := mem_unique hbase hb'
    exact hsplit b hp (h.below b hbase)

/-- A marker closes the loser's records. -/
theorem commit (hroom : staged.length ≤ WAL_MAX_STAGED)
    (hstaged : ∀ u ∈ staged, u.1 < n) (hn : n ≤ MAX_PAGES) :
    OpenLog n (closed_by hist loser lsn staged) [] := by
  have hscan : scan .init (closed_by hist loser lsn staged) =
      ⟨(scan .init hist).redone ++ staged, [], []⟩ := by
    rw [closed_by, scan_append, scan_append, scan_hist_steals h.closed h.steals,
      scan_page_recs _ _ (by simpa using hroom)]
    rfl
  refine ⟨?_, by rw [hscan], by simp, ?_, fun _ hb => by cases hb⟩
  · rw [append_nil]
    exact forall_mem_append.2 ⟨forall_mem_append.2 ⟨h.fits,
      page_recs_fits (fun u hu => (hstaged u hu).trans_le hn) _⟩, forall_mem_singleton.2 trivial⟩
  · rw [hscan, undo_images, append_nil]
    exact forall_mem_append.2 ⟨(forall_mem_append.1 h.inside).1, hstaged⟩

omit h in
/-- From the first byte of the marker on. -/
theorem restartable_marked (h : OpenLog n hist []) (hreads : Reads d.log hist)
    (hn : n ≤ d.data.length) (hmax : d.data.length ≤ MAX_PAGES) : Restartable d hist := by
  refine ⟨hreads, fun r hr => h.fits r (mem_append_left _ hr), hmax, ?_, ?_⟩
  · rw [h.closed]
    exact fun u hu => (h.inside u hu).trans_le hn
  · rw [h.closed]
    exact h.below

end OpenLog

/-! ### Runs of calls -/

/-- A `Wal`, and whether a transaction is open on it. -/
structure WalRun where
  wal : Wal
  /-- After `wal_begin` and before `wal_commit` or `wal_undo`. -/
  in_txn : Bool

def WalRun.opened (d : Disk) : WalRun := ⟨wal_open d, false⟩

/-- One call, whatever it returns.  Pages are allocated before they are written. -/
def WalRun.step (s : WalRun) : Call → Option WalRun
  | .alloc => some { s with wal := { s.wal with data := (pager_allocate s.wal.data).1 } }
  | .begin => some ⟨wal_begin s.wal, true⟩
  | .steal page_id buf =>
      if page_id < s.wal.data.num_pages then some { s with wal := (wal_steal s.wal page_id buf).1 }
      else none
  | .stage page_id buf =>
      if page_id < s.wal.data.num_pages then some { s with wal := (wal_stage s.wal page_id buf).1 }
      else none
  | .commit => some ⟨(wal_commit s.wal).1, false⟩
  | .undo => some ⟨(wal_undo s.wal).1, false⟩

/-- `wal_steal` and `wal_commit` belong to an open transaction. -/
def txn_call (s : WalRun) : Call → Prop
  | .steal _ _ => s.in_txn = true
  | .commit => s.in_txn = true
  | _ => True

instance (s : WalRun) : (c : Call) → Decidable (txn_call s c)
  | .steal _ _ => inferInstanceAs (Decidable (s.in_txn = true))
  | .commit => inferInstanceAs (Decidable (s.in_txn = true))
  | .alloc => .isTrue trivial
  | .begin => .isTrue trivial
  | .stage _ _ => .isTrue trivial
  | .undo => .isTrue trivial

/-- What a transaction that has logged `cur` knows; `old` is what an earlier one left behind
    when `wal_begin` was called without an end of it. -/
structure TxnRecords (w : Wal) (hist old cur : List Rec) : Prop where
  start : w.txn_log_start = (encode_all (hist ++ old)).length
  base_le : w.base_pages ≤ w.data.num_pages
  kept : OpenLog w.base_pages hist old
  images : ∀ u ∈ undo_images cur, u.1 < w.base_pages
  room : w.staged.length ≤ WAL_MAX_STAGED
  staged : ∀ u ∈ w.staged, u.1 < w.data.num_pages
  begun : w.stole = true → last_base none cur = some w.base_pages
  unbegun : w.stole = false → cur = []

structure WalRunInv (s : WalRun) (hist old cur : List Rec) : Prop where
  log : s.wal.log = encode_all (hist ++ (old ++ cur))
  records : OpenLog s.wal.data.num_pages hist (old ++ cur)
  pages : s.wal.data.num_pages ≤ s.wal.data.file.length
  bound : s.wal.data.file.length ≤ MAX_PAGES
  idle : s.in_txn = false → cur = [] ∧ s.wal.stole = false
  txn : s.in_txn = true → TxnRecords s.wal hist old cur

/-- Some records make a restart on `d` safe. -/
def Safe (d : Disk) : Prop := ∃ rs, Restartable d rs

namespace WalRunInv

variable {s s' : WalRun} {hist old cur : List Rec}

variable (h : WalRunInv s hist old cur) {page_id : Nat} {buf : Page}

include h

theorem safe_torn {t : List UInt8} (ht : Torn t) : Safe { s.wal.disk with log := s.wal.log ++ t } :=
  h.records.restartable ht (by rw [h.log]) h.pages h.bound

theorem safe : Safe s.wal.disk := by
  have := h.safe_torn Torn.nil
  rwa [append_nil] at this

omit h in
theorem opened {d : Disk} (hmax : d.data.length ≤ MAX_PAGES) :
    WalRunInv (WalRun.opened d) [] [] [] where
  log := wal_open_log d
  records := .empty _
  pages := wal_open_pages d
  bound := wal_open_bound hmax
  idle _ := ⟨rfl, rfl⟩
  txn h := nomatch h

theorem alloc (hs : s.step .alloc = some s') :
    WalRunInv s' hist old cur ∧ Stops s.wal.disk (call_io s.wal .alloc) Safe := by
  obtain rfl := (some.inj hs).symm
  rw [pager_allocate_eq]
  by_cases hlt : s.wal.data.num_pages < MAX_PAGES
  · have hlen : (write_at Page.zero s.wal.data.file s.wal.data.num_pages Page.zero).length =
        max s.wal.data.file.length (s.wal.data.num_pages + 1) := length_write_at _ _ _ _
    rw [if_pos hlt]
    have hnext : WalRunInv { s with wal := { s.wal with data :=
        ⟨write_at Page.zero s.wal.data.file s.wal.data.num_pages Page.zero,
          s.wal.data.num_pages + 1⟩ } } hist old cur := by
      refine ⟨h.log, h.records.mono (Nat.le_succ _), ?_, ?_, h.idle, fun hin => ?_⟩
      · rw [hlen]
        exact le_max_right _ _
      · rw [hlen]
        exact max_le h.bound hlt
      · obtain ⟨hstart, hbase, hkept, himages, hroom, hstaged, hbegun, hun⟩ := h.txn hin
        exact ⟨hstart, hbase.trans (Nat.le_succ _), hkept, himages, hroom,
          fun u hu => (hstaged u hu).trans (Nat.lt_succ_self _), hbegun, hun⟩
    refine ⟨hnext, Stops.cons h.safe (by simp) (Stops.nil ?_)⟩
    have hsafe := hnext.safe
    simp only [Disk.apply, if_pos hlt]
    exact hsafe
  · -- no page id is left, and nothing is written
    rw [if_neg hlt]
    refine ⟨h, Stops.cons h.safe (by simp) (Stops.nil ?_)⟩
    simp only [Disk.apply, if_neg hlt]
    exact h.safe

theorem begin (hs : s.step .begin = some s') :
    WalRunInv s' hist (old ++ cur) [] ∧ Stops s.wal.disk (call_io s.wal .begin) Safe := by
  obtain rfl := (some.inj hs).symm
  refine ⟨⟨?_, ?_, h.pages, h.bound, by simp, fun _ => ?_⟩, Stops.nil h.safe⟩
  · rw [append_nil]
    exact h.log
  · rw [append_nil]
    exact h.records
  · exact ⟨congrArg List.length h.log, le_rfl, h.records, nofun, Nat.zero_le _, nofun, nofun,
      fun _ => rfl⟩

theorem stage (hs : s.step (.stage page_id buf) = some s') :
    WalRunInv s' hist old cur ∧ Stops s.wal.disk (call_io s.wal (.stage page_id buf)) Safe := by
  refine ⟨?_, Stops.nil h.safe⟩
  simp only [WalRun.step] at hs
  split at hs
  case isFalse => cases hs
  next hp =>
  obtain rfl := (some.inj hs).symm
  obtain ⟨staged, heq, hroom, hids⟩ : ∃ staged, (wal_stage s.wal page_id buf).1 =
      { s.wal with staged := staged } ∧
      (s.wal.staged.length ≤ WAL_MAX_STAGED → staged.length ≤ WAL_MAX_STAGED) ∧
      ((∀ u ∈ s.wal.staged, u.1 < s.wal.data.num_pages) →
        ∀ u ∈ staged, u.1 < s.wal.data.num_pages) := by
    by_cases hrc : (wal_stage s.wal page_id buf).2 = 0
    · obtain ⟨staged, heq, hcase⟩ := wal_stage_staged hrc
      exact ⟨staged, heq, staged_room hcase, fun hlt => staged_ids (hcase.imp_right And.left) hlt hp⟩
    · -- a full stage leaves everything as it is
      refine ⟨s.wal.staged, ?_, id, id⟩
      unfold wal_stage at hrc ⊢
      cases hrep : stage_replace page_id buf s.wal.staged with
      | some staged => simp [hrep] at hrc
      | none =>
        simp only [hrep] at hrc ⊢
        split at hrc
        · next hfull => rw [if_pos hfull]
        · simp at hrc
  rw [heq]
  refine ⟨h.log, h.records, h.pages, h.bound, h.idle, fun hin => ?_⟩
  obtain ⟨hstart, hbase, hkept, himages, hr, hst, hbegun, hun⟩ := h.txn hin
  exact ⟨hstart, hbase, hkept, himages, hroom hr, hids hst, hbegun, hun⟩

/-! Steal -/

theorem below_base (hin : s.in_txn = true) :
    ∀ u ∈ (scan .init hist).redone ++ undo_images (old ++ cur), u.1 < s.wal.base_pages := by
  rw [undo_images_append, ← append_assoc]
  exact forall_mem_append.2 ⟨(h.txn hin).kept.inside, (h.txn hin).images⟩

/-- The records of a steal. -/
theorem steal_recs (hin : s.in_txn = true) (hp : page_id < s.wal.data.num_pages)
    (lsn : Nat) :
    ∃ undo, steal_undo s.wal lsn page_id = some undo ∧
      OpenLog s.wal.data.num_pages hist (old ++ (cur ++ steal_begin s.wal)) ∧
      OpenLog s.wal.data.num_pages hist (old ++ (cur ++ steal_begin s.wal ++ undo)) ∧
      last_base none (cur ++ steal_begin s.wal ++ undo) = some s.wal.base_pages ∧
      (undo = [] ∨ ∃ x, undo = [.undo lsn page_id x] ∧ page_id < s.wal.base_pages) := by
  have ht := h.txn hin
  have hmax : s.wal.data.num_pages ≤ MAX_PAGES := h.pages.trans h.bound
  have hbegin : OpenLog s.wal.data.num_pages hist (old ++ (cur ++ steal_begin s.wal)) := by
    unfold steal_begin
    split
    · rw [append_nil]
      exact h.records
    · rw [← append_assoc]
      exact h.records.log_begin _ (ht.base_le.trans hmax) (h.below_base hin)
  have hbase : last_base none (cur ++ steal_begin s.wal) = some s.wal.base_pages := by
    unfold steal_begin
    split
    · next hst =>
      rw [append_nil]
      exact ht.begun hst
    · rw [last_base_append]
      rfl
  have hbase' : last_base none (old ++ (cur ++ steal_begin s.wal)) = some s.wal.base_pages := by
    rw [last_base_append, last_base_eq_or, hbase]
    rfl
  unfold steal_undo
  by_cases hsp : page_id ∈ s.wal.spilled
  · exact ⟨[], by rw [if_pos hsp], hbegin, by rwa [append_nil], by rwa [append_nil],
      .inl rfl⟩
  by_cases hlt : page_id < s.wal.base_pages
  · obtain ⟨x, hx⟩ : ∃ x, pager_read s.wal.data page_id = some x :=
      ⟨_, getElem?_eq_getElem (hp.trans_le h.pages)⟩
    refine ⟨[.undo lsn page_id x], ?_, hbegin, ?_, ?_, .inr ⟨x, rfl, hlt⟩⟩
    · rw [if_neg hsp, if_pos hlt, hx]
      rfl
    · rw [← append_assoc]
      exact hbegin.log_undo lsn x hbase' hlt ht.base_le hmax
    · rw [last_base_append, hbase]
      rfl
  · exact ⟨[], by rw [if_neg hsp, if_neg hlt], hbegin, by rwa [append_nil],
      by rwa [append_nil], .inl rfl⟩

theorem steal (hin : s.in_txn = true)
    (hs : s.step (.steal page_id buf) = some s') :
    (∃ cur', WalRunInv s' hist old cur') ∧
      Stops s.wal.disk (call_io s.wal (.steal page_id buf)) Safe := by
  simp only [WalRun.step] at hs
  split at hs
  case isFalse => cases hs
  next hp =>
  obtain rfl := (some.inj hs).symm
  have ht := h.txn hin
  set hdr := steal_begin s.wal with hhdr
  set lsn := s.wal.next_lsn + hdr.length with hlsn
  obtain ⟨undo, hsome, hd1, hd2, hbase, hundo⟩ := h.steal_recs hin hp lsn
  have hfile : page_id < s.wal.data.file.length := hp.trans_le h.pages
  have hmax : page_id < MAX_PAGES := hfile.trans_le h.bound
  have hlen : (write_at Page.zero s.wal.data.file page_id buf).length =
      s.wal.data.file.length := by
    rw [length_write_at]
    omega
  have hrecs : s.wal.disk.run ((hdr ++ undo).map log_rec) =
      ⟨s.wal.data.file, s.wal.log ++ encode_all (hdr ++ undo)⟩ := run_log_recs _ _
  have hrun : s.wal.disk.run (wal_steal_io (hdr ++ undo) page_id buf) =
      ⟨write_at Page.zero s.wal.data.file page_id buf, s.wal.log ++ encode_all (hdr ++ undo)⟩ := by
    rw [wal_steal_io, Disk.run_append, hrecs]
    simp [Disk.apply, hmax]
  have hlog : s.wal.log ++ encode_all (hdr ++ undo) =
      encode_all (hist ++ (old ++ (cur ++ hdr ++ undo))) := by
    rw [h.log, ← encode_all_append]
    simp only [append_assoc]
  refine ⟨⟨cur ++ hdr ++ undo, ?_⟩, ?_⟩
  · unfold wal_steal
    simp only [← hhdr, ← hlsn, hsome, Wal.io, hrun]
    refine ⟨hlog, hd2, h.pages.trans hlen.symm.le, hlen.le.trans h.bound, ?_, fun _ => ?_⟩
    · intro hidle
      exact absurd (hin.symm.trans hidle) (by simp)
    · refine ⟨ht.start, ht.base_le, ht.kept, fun u hu => ?_, ht.room, ht.staged, fun _ => hbase,
        by simp⟩
      have hhdr_images : undo_images hdr = [] := by
        rw [hhdr, steal_begin]
        split <;> rfl
      rw [undo_images_append, undo_images_append, hhdr_images, append_nil] at hu
      rcases mem_append.1 hu with hu | hu
      · exact ht.images u hu
      · rcases hundo with rfl | ⟨x, rfl, hlt⟩
        · cases hu
        · rw [mem_singleton.1 hu]
          exact hlt
  · have hafter : Safe ⟨write_at Page.zero s.wal.data.file page_id buf,
        encode_all (hist ++ (old ++ (cur ++ hdr ++ undo)))⟩ :=
      hd2.restartable Torn.nil (by rw [append_nil]) (h.pages.trans hlen.symm.le)
        (hlen.le.trans h.bound)
    simp only [call_io, ← hhdr, ← hlsn, hsome, getD_some]
    refine stops_steal ?_ ?_ ?_
    · exact hundo.imp_right fun hx => ⟨_, hx.choose_spec.1, by simp⟩
    · rintro rs (rfl | rfl | rfl) t ht
      · simpa [Wal.disk] using h.safe_torn ht
      · exact hd1.restartable ht (by simp [h.log, ← hhdr]) h.pages h.bound
      · exact hd2.restartable ht (by simp [h.log, ← hhdr]) h.pages h.bound
    · simpa only [Disk.apply, if_pos hmax, ← hhdr, hlog] using hafter

/-! Undo -/

/-- `wal_undo` cuts the file back to the pages `wal_begin` found. -/
theorem undo (hs : s.step .undo = some s') :
    WalRunInv s' hist old [] ∧ Stops s.wal.disk (call_io s.wal .undo) Safe := by
  obtain rfl := (some.inj hs).symm
  by_cases hst : s.wal.stole = true
  · have hin : s.in_txn = true := by
      by_contra hout
      exact absurd (h.idle (Bool.eq_false_iff.2 hout)).2 (by rw [hst]; simp)
    have ht := h.txn hin
    have hscan := undo_scan_of (by simp [h.log]) ht.start
      (fun r hr => h.records.fits r (mem_append_right _ (mem_append_right _ hr)))
      (fun r hr => h.records.steals r (mem_append_right _ hr)) (ht.begun hst)
    set b := s.wal.base_pages
    set n := s.wal.data.num_pages
    have hb : b ≤ n := ht.base_le
    have himages : ∀ u ∈ undo_images cur, u.1 < s.wal.data.file.length :=
      fun u hu => (ht.images u hu).trans_le (hb.trans h.pages)
    have hmax : ∀ u ∈ undo_images cur, u.1 < MAX_PAGES :=
      fun u hu => (himages u hu).trans_le h.bound
    -- the log is still whole while the file is cut
    have hcut : OpenLog b hist (old ++ cur) :=
      ⟨h.records.fits, h.records.closed, h.records.steals, h.below_base hin, h.records.below⟩
    have hsafe : ∀ f : List Page, b ≤ f.length → f.length ≤ MAX_PAGES → Safe ⟨f, s.wal.log⟩ :=
      fun f hf hf' => hcut.restartable Torn.nil (by rw [append_nil]; exact h.log) hf hf'
    have hwlen : ∀ us : List StagedPage, (∀ u ∈ us, u ∈ undo_images cur) →
        (write_all Page.zero s.wal.data.file us).length = s.wal.data.file.length :=
      fun us hus => length_write_all_of_lt _ fun u hu => himages u (hus u hu)
    obtain ⟨f, hf, hlen, hflen⟩ : ∃ f, s.wal.disk.run (write_ops (undo_images cur) ++
        truncate_ops (truncate_to (some b) n)) = ⟨f, s.wal.log⟩ ∧ b ≤ f.length ∧
        f.length ≤ MAX_PAGES := by
      rw [Disk.run_append, Disk.run_write_ops hmax]
      cases hto : truncate_to (some b) n with
      | none =>
        have hall := hwlen (undo_images cur) fun u hu => hu
        exact ⟨_, rfl, hall.symm ▸ hb.trans h.pages, hall.symm ▸ h.bound⟩
      | some m =>
        obtain ⟨rfl, hlt⟩ := truncate_to_some hto
        have hm : (resize Page.zero (write_all Page.zero s.wal.data.file (undo_images cur)) b).length
            = b := length_resize _ _ _
        exact ⟨_, rfl, hm.symm.le, hm.le.trans (hb.trans (h.pages.trans h.bound))⟩
    have hio : wal_undo_io s.wal = write_ops (undo_images cur) ++
        truncate_ops (truncate_to (some b) n) ++ [.fsync_data, .log_truncate s.wal.txn_log_start] := by
      rw [wal_undo_io, if_pos hst, hscan]
    have hlog : (⟨f, s.wal.log⟩ : Disk).apply (.log_truncate s.wal.txn_log_start) =
        ⟨f, encode_all (hist ++ old)⟩ := by
      have hle : s.wal.txn_log_start ≤ s.wal.log.length := by
        rw [ht.start, h.log, ← append_assoc, encode_all_append (hist ++ old),
          length_append]
        exact Nat.le_add_right _ _
      rw [Disk.apply, resize_of_le hle, ht.start, h.log, ← append_assoc,
        encode_all_append (hist ++ old), take_left]
    have hrun : s.wal.disk.run (wal_undo_io s.wal) = ⟨f, encode_all (hist ++ old)⟩ := by
      rw [hio, Disk.run_append, hf]
      exact hlog
    have hnp : (truncate_to (some b) n).getD n = b := by
      cases hto : truncate_to (some b) n with
      | some m => exact (truncate_to_some hto).1
      | none =>
        simp only [truncate_to] at hto
        split at hto
        · cases hto
        · simp only [getD_none]
          omega
    refine ⟨?_, ?_⟩
    · simp only [wal_undo, if_pos hst, hscan, Wal.io, hrun]
      refine ⟨by rw [append_nil], ?_, ?_, hflen, fun _ => ⟨rfl, rfl⟩, by simp⟩
      · rw [append_nil]
        change OpenLog ((truncate_to (some b) n).getD n) hist old
        rw [hnp]
        exact ht.kept
      · change (truncate_to (some b) n).getD n ≤ f.length
        rw [hnp]
        exact hlen
    · change Stops _ (wal_undo_io s.wal) _
      rw [hio]
      refine stops_writes_cut hmax (fun k => ?_) ?_
      · have hk := hwlen ((undo_images cur).take k) fun u hu => mem_of_mem_take hu
        exact hsafe _ (hk.symm ▸ hb.trans h.pages) (hk.symm ▸ h.bound)
      rw [hf]
      have hopen : Safe ⟨f, s.wal.log⟩ := hsafe f hlen hflen
      refine Stops.cons hopen (by simp) (Stops.cons hopen (by simp) (Stops.nil ?_))
      change Safe (Disk.apply ⟨f, s.wal.log⟩ _)
      rw [hlog]
      exact ht.kept.restartable Torn.nil (by rw [append_nil]) hlen hflen
  · -- nothing was stolen, and the log is left alone
    have hst : s.wal.stole = false := Bool.eq_false_iff.2 hst
    obtain rfl : cur = [] := by
      cases hin : s.in_txn with
      | false => exact (h.idle hin).1
      | true => exact (h.txn hin).unbegun hst
    have hundo : wal_undo s.wal = (s.wal, 0) := by simp [wal_undo, hst]
    have hio : call_io s.wal .undo = [] := by simp [call_io, wal_undo_io, hst]
    rw [hundo, hio]
    exact ⟨⟨h.log, h.records, h.pages, h.bound, fun _ => ⟨rfl, hst⟩, by simp⟩, Stops.nil h.safe⟩

/-! Commit -/

theorem commit (hin : s.in_txn = true) (hs : s.step .commit = some s') :
    (∃ hist', WalRunInv s' hist' [] []) ∧ Stops s.wal.disk (call_io s.wal .commit) Safe := by
  obtain rfl := (some.inj hs).symm
  have ht := h.txn hin
  have hn : s.wal.data.num_pages ≤ MAX_PAGES := h.pages.trans h.bound
  have hfile : ∀ u ∈ s.wal.staged, u.1 < s.wal.data.file.length :=
    fun u hu => (ht.staged u hu).trans_le h.pages
  have hmax : ∀ u ∈ s.wal.staged, u.1 < MAX_PAGES := fun u hu => (ht.staged u hu).trans_le hn
  have hrc : write_rc s.wal.staged = 0 := by simpa [write_rc] using hmax
  have hclosed := h.records.commit s.wal.next_lsn ht.room ht.staged hn
  have hlen : ∀ k, (write_all Page.zero s.wal.data.file (s.wal.staged.take k)).length =
      s.wal.data.file.length :=
    fun k => length_write_all_of_lt _ fun u hu => hfile u (mem_of_mem_take hu)
  have hall : (write_all Page.zero s.wal.data.file s.wal.staged).length =
      s.wal.data.file.length := length_write_all_of_lt _ hfile
  obtain ⟨hstops, hrun⟩ := stops_commit (d := s.wal.disk) (P := Safe) h.log hmax
    s.wal.next_lsn (s.wal.disk.run (commit_log_io s.wal)).log.length
    (fun k t htorn => ⟨_, h.records.restartable_pages s.wal.next_lsn ((length_take_le' k _).trans ht.room)
      (fun u hu => ht.staged u (mem_of_mem_take hu)) htorn (by simp [Wal.disk, h.log]) h.pages
      h.bound⟩)
    (fun k log hreads => ⟨_, hclosed.restartable_marked hreads ((hlen k).symm ▸ h.pages)
      ((hlen k).symm ▸ h.bound)⟩)
    ⟨_, Restartable.of_empty (hall.symm ▸ h.bound)⟩
  refine ⟨?_, hstops⟩
  -- the checkpoint empties the log, or there is none
  obtain ⟨hist', hlog, hrecords⟩ : ∃ hist', s.wal.disk.run (wal_commit_io s.wal) =
      ⟨write_all Page.zero s.wal.data.file s.wal.staged, encode_all hist'⟩ ∧
      OpenLog s.wal.data.num_pages hist' [] := by
    split at hrun
    · exact ⟨[], hrun, .empty _⟩
    · exact ⟨_, hrun, hclosed⟩
  simp only [wal_commit, if_pos hrc, Wal.io, hlog]
  exact ⟨hist', by rw [append_nil, append_nil], hrecords, hall.symm ▸ h.pages,
    hall.symm ▸ h.bound, fun _ => ⟨rfl, rfl⟩, by simp⟩

/-- One call keeps the invariant, and a restart is safe wherever it stops. -/
theorem step {c : Call} (hok : txn_call s c) (hs : s.step c = some s') :
    (∃ hist' old' cur', WalRunInv s' hist' old' cur') ∧
      Stops s.wal.disk (call_io s.wal c) Safe := by
  cases c with
  | alloc => exact (h.alloc hs).imp_left fun h' => ⟨_, _, _, h'⟩
  | begin => exact (h.begin hs).imp_left fun h' => ⟨_, _, _, h'⟩
  | steal page_id buf => exact (h.steal hok hs).imp_left fun ⟨cur', h'⟩ => ⟨_, _, cur', h'⟩
  | stage page_id buf => exact (h.stage hs).imp_left fun h' => ⟨_, _, _, h'⟩
  | commit => exact (h.commit hok hs).imp_left fun ⟨hist', h'⟩ => ⟨hist', _, _, h'⟩
  | undo => exact (h.undo hs).imp_left fun h' => ⟨_, _, _, h'⟩

end WalRunInv

/-- The disk a process leaves that stops between two calls or inside one. -/
inductive Killed (s : WalRun) : Disk → Prop
  | between : Killed s s.wal.disk
  | inside (c : Call) (s' : WalRun) (hok : txn_call s c) (hs : s.step c = some s') (k b : Nat) :
      Killed s (s.wal.disk.run (cut_io (call_io s.wal c) k b))

/-- However often recovery is stopped, the run that completes leaves the same file. -/
theorem recovery_restarts {d : Disk} (hmax : d.data.length ≤ MAX_PAGES) {cs : List Call}
    {s : WalRun} (hrun : Steps WalRun.step txn_call (WalRun.opened d) cs s) {k k' : Disk}
    (hkill : Killed s k) (hagain : Restarts k k') :
    (wal_open k').data.file = (wal_open k).data.file := by
  obtain ⟨hist, old, cur, hinv⟩ : ∃ hist old cur, WalRunInv s hist old cur := by
    refine Steps.invariant (fun s => ∃ hist old cur, WalRunInv s hist old cur) ?_ hrun
      ⟨[], [], [], .opened hmax⟩
    rintro s c s' ⟨hist, old, cur, hinv⟩ hok hs
    exact (hinv.step hok hs).1
  obtain ⟨rs, hrs⟩ : Safe k := by
    cases hkill with
    | between => exact hinv.safe
    | inside c s' hok hs k b => exact (hinv.step hok hs).2 k b
  exact hrs.converges hagain

/-- Page 0 is stolen inside a second transaction, after a first one has committed page 1. -/
def second_txn : List Call :=
  [.alloc, .begin, .alloc, .stage 1 (Page.fill 1), .commit, .begin, .steal 0 (Page.fill 2)]

/-- A stop inside recovery after three of its operations. -/
def stop_after_three (d : Disk) : Disk := d.run (cut_io (wal_recover_io (wal_fresh d)) 3 0)

set_option maxRecDepth 100000 in
theorem recovery_restarts_second_txn : ∃ s,
    Steps WalRun.step txn_call (WalRun.opened ⟨[], []⟩) second_txn s ∧
      (wal_open (stop_after_three s.wal.disk)).data.file = [Page.zero, Page.fill 1] := by
  have hrun : (run (fun s c => if txn_call s c then s.step c else none) (WalRun.opened ⟨[], []⟩)
      second_txn).any (fun s => (wal_open s.wal.disk).data.file = [Page.zero, Page.fill 1]) =
        true := by decide +kernel
  obtain ⟨s, hs, hfile⟩ := (any_eq_true _ _).1 hrun
  have hsteps := Steps.of_guarded hs
  refine ⟨s, hsteps, ?_⟩
  rw [stop_after_three, recovery_restarts (by decide) hsteps .between (.stop .none 3 0)]
  exact of_decide_eq_true hfile

/-- The same without the second `wal_begin`: the steal logs the page count of the first. -/
def stray_steal : List Call :=
  [.alloc, .begin, .alloc, .stage 1 (Page.fill 1), .commit, .steal 0 (Page.fill 2)]

/-- Redo puts page 1 back after the file was cut to one page, and nothing cuts it again. -/
theorem stray_steal_not_restartable :
    ¬ ∀ (d : Disk) (cs : List Call) (s : WalRun) (k k' : Disk), d.data.length ≤ MAX_PAGES →
      run WalRun.step (WalRun.opened d) cs = some s → Killed s k → Restarts k k' →
      (wal_open k').data.file = (wal_open k).data.file := by
  intro hall
  have hrun : (run WalRun.step (WalRun.opened ⟨[], []⟩) stray_steal).any (fun s =>
      (wal_open s.wal.disk).data.file.length = 1 ∧
        (wal_open (stop_after_three s.wal.disk)).data.file.length = 2) = true := by decide +kernel
  obtain ⟨s, hs, hfacts⟩ := (any_eq_true _ _).1 hrun
  obtain ⟨hone, htwo⟩ := of_decide_eq_true hfacts
  have hsame := hall _ _ s _ _ (by decide) hs .between (.stop .none 3 0)
  rw [← hsame] at hone
  exact absurd (hone.symm.trans htwo) (by decide)

end MiniDb
