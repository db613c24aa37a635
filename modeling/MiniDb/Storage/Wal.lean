import MiniDb.Storage.WalFormat

/-! # Write-ahead log

  The operations of `wal.c` on a data file and its log.  Each call is given by
  the disk operations it issues, in order (`wal_steal_io`, `wal_commit_io`,
  ...), and by the state it leaves; the disk part of that state is the run of
  these operations, so that a stop inside a call is `cut_io` of its list.

  Commit writes after-images, a marker and an `fsync`, and only then the data
  file, without `fsync` (no-force).  A page evicted before its transaction
  ends goes to the data file after its before-image has been logged (steal). -/

namespace MiniDb

open Framework List

def WAL_CHECKPOINT_BYTES : Nat := 4 <<< 20

structure Wal where
  data : Pager
  log : List UInt8
  staged : List StagedPage
  txn_active : Bool
  /-- This transaction has stolen a page. -/
  stole : Bool
  /-- Page count when the transaction began. -/
  base_pages : Nat
  /-- Pages already stolen by this transaction. -/
  spilled : List Nat
  next_lsn : Nat
  flushed_lsn : Nat
  /-- Offset in the log at which the transaction's records start. -/
  txn_log_start : Nat

/-- The files behind the two descriptors. -/
def Wal.disk (w : Wal) : Disk := ⟨w.data.file, w.log⟩

/-- Issue disk operations; the in-memory fields stay. -/
def Wal.io (w : Wal) (ops : List IoOp) : Wal :=
  { w with
    data := { w.data with file := (w.disk.run ops).data }
    log := (w.disk.run ops).log }

@[simp] theorem Wal.disk_io (w : Wal) (ops : List IoOp) : (w.io ops).disk = w.disk.run ops := rfl

/-- Append a record to the log. -/
def log_rec (r : Rec) : IoOp := .log_write r.encode

/-! ### Transactions -/

def wal_begin (w : Wal) : Wal :=
  { w with
    staged := []
    txn_active := true
    stole := false
    base_pages := w.data.num_pages
    spilled := []
    txn_log_start := w.log.length }

/-- Replace the staged image of `page_id`, if there is one. -/
def stage_replace (page_id : Nat) (buf : Page) : List StagedPage → Option (List StagedPage)
  | [] => none
  | s :: staged =>
      if s.1 = page_id then some ((page_id, buf) :: staged)
      else (stage_replace page_id buf staged).map (s :: ·)

def wal_stage (w : Wal) (page_id : Nat) (buf : Page) : Wal × Int :=
  match stage_replace page_id buf w.staged with
  | some staged => ({ w with staged := staged }, 0)
  | none =>
      if w.staged.length ≥ WAL_MAX_STAGED then (w, -1)
      else ({ w with staged := w.staged ++ [(page_id, buf)] }, 0)

/-- The `REC_BEGIN` of the first steal. -/
def steal_begin (w : Wal) : List Rec :=
  if w.stole then [] else [.begin w.next_lsn w.base_pages]

/-- The `REC_UNDO` of the first steal of a page that existed at `wal_begin`.
    `none` is a failed read of the before-image. -/
def steal_undo (w : Wal) (lsn page_id : Nat) : Option (List Rec) :=
  if page_id ∈ w.spilled then some []
  else if page_id < w.base_pages then
    (pager_read w.data page_id).map fun before => [.undo lsn page_id before]
  else some []

/-- The disk operations of a successful `wal_steal` that logs `recs`. -/
def wal_steal_io (recs : List Rec) (page_id : Nat) (buf : Page) : List IoOp :=
  recs.map log_rec ++ [.fsync_log, .data_write page_id buf, .fsync_data]

def wal_steal (w : Wal) (page_id : Nat) (buf : Page) : Wal × Int :=
  let hdr := steal_begin w
  let lsn := w.next_lsn + hdr.length
  match steal_undo w lsn page_id with
  | none => ({ w.io (hdr.map log_rec) with stole := true, next_lsn := lsn }, -1)
  | some undo =>
      ({ w.io (wal_steal_io (hdr ++ undo) page_id buf) with
          stole := true
          spilled := if page_id ∈ w.spilled then w.spilled else w.spilled ++ [page_id]
          next_lsn := lsn + undo.length
          flushed_lsn := lsn + undo.length - 1 },
        if page_id < MAX_PAGES then 0 else -1)

/-- The page count an undo truncates to, when it is below the current one. -/
def truncate_to (base : Option Nat) (num_pages : Nat) : Option Nat :=
  match base with
  | some b => if b < num_pages then some b else none
  | none => none

/-- `pager_truncate`, when there is something to cut. -/
def truncate_ops (cut : Option Nat) : List IoOp := (cut.map IoOp.data_truncate).toList

/-- What `wal_undo` reads from its own part of the log. -/
def undo_scan (w : Wal) : List StagedPage × Option Nat :=
  let log := w.log.drop w.txn_log_start
  undo_loop false log.length log (some w.base_pages)

def wal_undo_io (w : Wal) : List IoOp :=
  if w.stole then
    write_ops (undo_scan w).1 ++
      truncate_ops (truncate_to (undo_scan w).2 w.data.num_pages) ++
      [.fsync_data, .log_truncate w.txn_log_start]
  else []

/-- Return code of a run of page writes: `-1` once one of them fails. -/
def write_rc (us : List StagedPage) : Int :=
  if us.all fun u => u.1 < MAX_PAGES then 0 else -1

def wal_undo (w : Wal) : Wal × Int :=
  if w.stole then
    let np := (truncate_to (undo_scan w).2 w.data.num_pages).getD w.data.num_pages
    let w' := w.io (wal_undo_io w)
    ({ w' with
        data := { w'.data with num_pages := np }
        stole := false
        spilled := [] },
      write_rc (undo_scan w).1)
  else (w, 0)

/-- The after-images of a commit, with their log sequence numbers. -/
def page_recs : Nat → List StagedPage → List Rec
  | _, [] => []
  | lsn, (pid, data) :: staged => .page lsn pid data :: page_recs (lsn + 1) staged

/-- Log operations of a commit: after-images, marker, `fsync`. -/
def commit_log_io (w : Wal) : List IoOp :=
  (page_recs w.next_lsn w.staged).map log_rec ++
    [log_rec (.commit (w.next_lsn + w.staged.length)), .fsync_log]

/-- The checkpoint at the end of a commit, once the log has outgrown its limit. -/
def checkpoint_io (log_length : Nat) : List IoOp :=
  if log_length > WAL_CHECKPOINT_BYTES then [.fsync_data, .log_truncate 0] else []

def wal_commit_io (w : Wal) : List IoOp :=
  commit_log_io w ++ write_ops w.staged ++
    checkpoint_io (w.disk.run (commit_log_io w)).log.length

def wal_commit (w : Wal) : Wal × Int :=
  if write_rc w.staged = 0 then
    ({ w.io (wal_commit_io w) with
        staged := []
        stole := false
        spilled := []
        txn_active := false
        next_lsn := w.next_lsn + w.staged.length + 1
        flushed_lsn := w.next_lsn + w.staged.length },
      0)
  else
    -- the first failed page write ends the call
    let done := w.staged.takeWhile fun u => u.1 < MAX_PAGES
    ({ w.io (commit_log_io w ++ write_ops done) with
        next_lsn := w.next_lsn + w.staged.length + 1
        flushed_lsn := w.next_lsn + w.staged.length },
      -1)

/-! ### Recovery -/

/-- The after-images a recovery of `log` replays, in commit order. -/
def redo_images (log : List UInt8) : List StagedPage := (recover_pass1 log.length log [] log).1

/-- The log after its last commit marker. -/
def loser_log (log : List UInt8) : List UInt8 := (recover_pass1 log.length log [] log).2

/-- The before-images and the base of the uncommitted tail. -/
def loser_scan (log : List UInt8) : List StagedPage × Option Nat :=
  undo_loop true (loser_log log).length (loser_log log) none

def wal_recover_io (w : Wal) : List IoOp :=
  write_ops (redo_images w.log) ++ write_ops (loser_scan w.log).1 ++
    truncate_ops (truncate_to (loser_scan w.log).2 w.data.num_pages) ++
    [.log_truncate 0, .fsync_data]

def wal_recover (w : Wal) : Wal × Int :=
  let np := (truncate_to (loser_scan w.log).2 w.data.num_pages).getD w.data.num_pages
  let w' := w.io (wal_recover_io w)
  ({ w' with data := { w'.data with num_pages := np } },
    write_rc (redo_images w.log ++ (loser_scan w.log).1))

/-- The fields `wal_open` sets before it recovers. -/
def wal_fresh (d : Disk) : Wal :=
  { data := pager_open d.data
    log := d.log
    staged := []
    txn_active := false
    stole := false
    base_pages := 0
    spilled := []
    next_lsn := 1
    flushed_lsn := 0
    txn_log_start := 0 }

def wal_open (d : Disk) : Wal := (wal_recover (wal_fresh d)).1

/-! ### What a log says -/

/-- `log` holds the records `rs`: their bytes and a torn end, or their bytes
    where a commit marker that comes last may have lost part of its `lsn`. -/
inductive Reads (log : List UInt8) (rs : List Rec) : Prop where
  | torn (t : List UInt8) (ht : Torn t) (h : log = encode_all rs ++ t)
  | marker (rs' : List Rec) (lsn : Nat) (bs : List UInt8) (hrs : rs = rs' ++ [.commit lsn])
      (hbs : bs.length ≤ 8) (h : log = encode_all rs' ++ REC_COMMIT :: bs)

theorem Reads.exact (rs : List Rec) : Reads (encode_all rs) rs :=
  .torn [] .nil (by simp)

theorem scan_loser_subset (s : Scan) (rs : List Rec) :
    ∀ r ∈ (scan s rs).loser, r ∈ s.loser ∨ r ∈ rs := by
  induction rs generalizing s with
  | nil => intro r hr; exact .inl hr
  | cons r' rs ih =>
    intro r hr
    rcases ih (s.next r') r hr with h | h
    · cases r' <;> simp [Scan.next] at h ⊢ <;> tauto
    · exact .inr (mem_cons_of_mem _ h)

/-- No marker follows the last marker. -/
theorem scan_loser_no_commit (s : Scan) (rs : List Rec)
    (h : ∀ lsn, Rec.commit lsn ∉ s.loser) : ∀ lsn, Rec.commit lsn ∉ (scan s rs).loser := by
  induction rs generalizing s with
  | nil => exact h
  | cons r rs ih =>
    refine ih (s.next r) ?_
    intro lsn
    have := h lsn
    cases r <;> simp [Scan.next, this]

/-- Recovery sees exactly the records its log holds. -/
theorem Reads.recover {log : List UInt8} {rs : List Rec} (h : Reads log rs)
    (hfits : ∀ r ∈ rs, r.fits) :
    redo_images log = (scan .init rs).redone ∧
      loser_scan log = (undo_images (scan .init rs).loser,
        last_base none (scan .init rs).loser) := by
  cases h with
  | torn t ht h =>
    have hlen : rs.length ≤ log.length := by
      have := length_le_encode_all rs
      rw [h, length_append]
      omega
    obtain ⟨ws, redo', hrun, _, hws⟩ := recover_pass1_encode hfits (t := t) .init log.length hlen
    have hrun' : recover_pass1 log.length log [] log =
        (ws, encode_all (scan .init rs).loser ++ t) := by
      simpa [Scan.init, ← h, recover_pass1_torn ht] using hrun
    refine ⟨by simpa [redo_images, hrun', Scan.init] using hws, ?_⟩
    have hl : loser_log log = encode_all (scan .init rs).loser ++ t := by
      simp [loser_log, hrun']
    rw [loser_scan, hl]
    apply undo_loop_encode _ (scan_loser_no_commit _ _ (by simp [Scan.init])) (by simp) ht
    · have := length_le_encode_all (scan .init rs).loser
      rw [length_append]
      omega
    · intro r hr
      rcases scan_loser_subset _ _ r hr with hr | hr
      · simp [Scan.init] at hr
      · exact hfits r hr
  | marker rs' lsn bs hrs hbs h =>
    subst hrs
    have hfits' : ∀ r ∈ rs', r.fits := fun r hr => hfits r (mem_append_left _ hr)
    have hlen : rs'.length + 1 ≤ log.length := by
      have := length_le_encode_all rs'
      rw [h, length_append, length_cons]
      omega
    obtain ⟨ws, redo', hrun, hredo, hws⟩ :=
      recover_pass1_encode hfits' (t := REC_COMMIT :: bs) .init log.length (by omega)
    obtain ⟨fuel, hfuel⟩ : ∃ f, log.length - rs'.length = f + 1 :=
      ⟨log.length - rs'.length - 1, by omega⟩
    have hrun' : recover_pass1 log.length log [] log = (ws ++ redo', []) := by
      rw [hfuel] at hrun
      simpa [Scan.init, ← h, recover_pass1_commit_byte hbs] using hrun
    have hscan : scan .init (rs' ++ [.commit lsn]) = ⟨(scan .init rs').redone ++
        (scan .init rs').pending, [], []⟩ := by
      rw [scan_append]; rfl
    refine ⟨?_, ?_⟩
    · rw [redo_images, hrun', hscan, ← hws, hredo]
      simp [Scan.init]
    · have hl : loser_log log = [] := by simp [loser_log, hrun']
      rw [loser_scan, hl, hscan, undo_loop_nil]
      rfl

end MiniDb
