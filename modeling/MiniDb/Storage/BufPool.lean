import MiniDb.Storage.Wal

/-! # Buffer pool

  The frames of `bufpool.c` over the pager of one write-ahead log.  A miss
  takes a free frame or the least recently used unpinned one; a dirty victim
  goes to the data file, through `wal_steal` while a transaction writes the
  file (`no_steal` with a handler) and by a plain `pager_write` otherwise.

  Pins, LRU stamps and the steal handler are as in the source.  The latch and
  the `io_pending` hand-over between threads are not modelled: one thread at a
  time uses a pool here. -/

namespace MiniDb

open Framework List

structure Frame where
  page_id : Nat
  valid : Bool
  dirty : Bool
  pin_count : Nat
  /-- LRU stamp; larger is more recent. -/
  last_used : Nat
  data : Page

structure BufferPool where
  frames : List Frame
  clock : Nat
  hits : Nat
  misses : Nat
  no_steal : Bool
  /-- A steal handler is set.  It is always `wal_steal` on the pool's own log. -/
  steal_fn : Bool

/-- A data file with its log, its buffer pool, and its page count at the first
    write of the running transaction. -/
structure PagedFile where
  wal : Wal
  bp : BufferPool
  txn_pages : Nat

/-- A frame of a new pool. -/
def Frame.empty : Frame :=
  { page_id := 0, valid := false, dirty := false, pin_count := 0, last_used := 0,
    data := Page.zero }

def bufpool_create (num_frames : Nat) : BufferPool :=
  { frames := List.replicate num_frames Frame.empty, clock := 0, hits := 0, misses := 0,
    no_steal := false, steal_fn := false }

/-- Forget a frame without writing it. -/
def Frame.clear (fr : Frame) : Frame := { fr with valid := false, dirty := false, pin_count := 0 }

/-- One more pin, with a new LRU stamp. -/
def Frame.pin (stamp : Nat) (fr : Frame) : Frame :=
  { fr with pin_count := fr.pin_count + 1, last_used := stamp }

/-- A frame with a page just read. -/
def Frame.loaded (page_id stamp : Nat) (data : Page) : Frame :=
  { page_id := page_id, valid := true, dirty := false, pin_count := 1, last_used := stamp,
    data := data }

/-- The frame that holds a page. -/
def Frame.holds (page_id : Nat) (fr : Frame) : Bool := fr.valid && fr.page_id == page_id

def find_frame (bp : BufferPool) (page_id : Nat) : Option Nat :=
  bp.frames.findIdx? (Frame.holds page_id)

/-- Apply `g` to frame `i`. -/
def PagedFile.modify_frame (f : PagedFile) (i : Nat) (g : Frame → Frame) : PagedFile :=
  { f with bp := { f.bp with frames := f.bp.frames.modify i g } }

/-- Overwrite frame `i`. -/
def PagedFile.set_frame (f : PagedFile) (i : Nat) (fr : Frame) : PagedFile :=
  { f with bp := { f.bp with frames := f.bp.frames.set i fr } }

/-- The LRU loop: the unpinned frame with the smallest stamp, the first one on a tie. -/
def victim_loop (can_steal_dirty : Bool) : List Frame → Nat → Option (Nat × Frame) →
    Option (Nat × Frame)
  | [], _, victim => victim
  | fr :: frames, i, victim =>
      if fr.pin_count ≠ 0 then victim_loop can_steal_dirty frames (i + 1) victim
      else if fr.dirty && !can_steal_dirty then victim_loop can_steal_dirty frames (i + 1) victim
      else
        match victim with
        | none => victim_loop can_steal_dirty frames (i + 1) (some (i, fr))
        | some v =>
            if fr.last_used < v.2.last_used then
              victim_loop can_steal_dirty frames (i + 1) (some (i, fr))
            else victim_loop can_steal_dirty frames (i + 1) (some v)

/-- Write a dirty victim out. -/
def evict (f : PagedFile) (victim : Frame) : PagedFile × Int :=
  if victim.dirty then
    if f.bp.no_steal && f.bp.steal_fn then
      let r := wal_steal f.wal victim.page_id victim.data
      ({ f with wal := r.1 }, r.2)
    else
      let r := pager_write f.wal.data victim.page_id victim.data
      ({ f with wal := { f.wal with data := r.1 } }, r.2)
  else (f, 0)

def pick_frame (f : PagedFile) : PagedFile × Option Nat :=
  match f.bp.frames.findIdx? fun fr => !fr.valid with
  | some i => (f, some i)
  | none =>
      match victim_loop (!f.bp.no_steal || f.bp.steal_fn) f.bp.frames 0 none with
      | none => (f, none)
      | some (i, victim) =>
          let r := evict f victim
          if r.2 ≠ 0 then (r.1, none)
          else (r.1.set_frame i { victim with valid := false, dirty := false }, some i)

/-- Pin a page, loading it on a miss.  Returns the frame, as the pointer to its data. -/
def bufpool_fetch (f : PagedFile) (page_id : Nat) : PagedFile × Option Nat :=
  match find_frame f.bp page_id with
  | some i =>
      let f' := f.modify_frame i (Frame.pin (f.bp.clock + 1))
      ({ f' with bp := { f'.bp with hits := f.bp.hits + 1, clock := f.bp.clock + 1 } }, some i)
  | none =>
      let r := pick_frame { f with bp := { f.bp with misses := f.bp.misses + 1 } }
      match r.2 with
      | none => (r.1, none)
      | some i =>
          match pager_read r.1.wal.data page_id with
          | none =>
              -- the frame is given back
              (r.1.modify_frame i fun fr => { fr.clear with page_id := page_id }, none)
          | some data =>
              let f' := r.1.set_frame i (Frame.loaded page_id (r.1.bp.clock + 1) data)
              ({ f' with bp := { f'.bp with clock := r.1.bp.clock + 1 } }, some i)

/-- Allocate a page and pin it; also returns its id. -/
def bufpool_new_page (f : PagedFile) : PagedFile × Option (Nat × Nat) :=
  let a := pager_allocate f.wal.data
  let f := { f with wal := { f.wal with data := a.1 } }
  match a.2 with
  | none => (f, none)
  | some id =>
      let r := bufpool_fetch f id
      (r.1, r.2.map fun i => (id, i))

def bufpool_unpin (f : PagedFile) (page_id : Nat) (is_dirty : Bool) : PagedFile :=
  match find_frame f.bp page_id with
  | none => f
  | some i =>
      f.modify_frame i fun fr =>
        { fr with dirty := fr.dirty || is_dirty, pin_count := fr.pin_count - 1 }

/-- A client stores through the pointer to a page it has pinned. -/
def store (f : PagedFile) (page_id : Nat) (buf : Page) : PagedFile :=
  match find_frame f.bp page_id with
  | none => f
  | some i =>
      f.modify_frame i fun fr => if fr.pin_count = 0 then fr else { fr with data := buf }

/-- A frame that has to be written. -/
def Frame.pending (fr : Frame) : Bool := fr.valid && fr.dirty

/-- The loop of `bufpool_flush_all`: write dirty frames to the data file. -/
def flush_all_loop : Pager → List Frame → Pager × List Frame × Int
  | data, [] => (data, [], 0)
  | data, fr :: frames =>
      if fr.pending then
        let w := pager_write data fr.page_id fr.data
        if w.2 ≠ 0 then (w.1, fr :: frames, -1)
        else
          let r := flush_all_loop w.1 frames
          (r.1, { fr with dirty := false } :: r.2.1, r.2.2)
      else
        let r := flush_all_loop data frames
        (r.1, fr :: r.2.1, r.2.2)

def bufpool_flush_all (f : PagedFile) : PagedFile × Int :=
  let r := flush_all_loop f.wal.data f.bp.frames
  ({ f with wal := { f.wal with data := r.1 }, bp := { f.bp with frames := r.2.1 } }, r.2.2)

/-- The loop of `bufpool_flush_cb` with `wal_stage` as the sink; the count is
    `-1` when a page cannot be staged. -/
def flush_cb_loop : Wal → List Frame → Int → Wal × List Frame × Int
  | wal, [], n => (wal, [], n)
  | wal, fr :: frames, n =>
      if fr.pending then
        let s := wal_stage wal fr.page_id fr.data
        if s.2 ≠ 0 then (s.1, fr :: frames, -1)
        else
          let r := flush_cb_loop s.1 frames (n + 1)
          (r.1, { fr with dirty := false } :: r.2.1, r.2.2)
      else
        let r := flush_cb_loop wal frames n
        (r.1, fr :: r.2.1, r.2.2)

def bufpool_flush_cb (f : PagedFile) : PagedFile × Int :=
  let r := flush_cb_loop f.wal f.bp.frames 0
  ({ f with wal := r.1, bp := { f.bp with frames := r.2.1 } }, r.2.2)

def bufpool_set_no_steal (f : PagedFile) (on : Bool) : PagedFile :=
  { f with bp := { f.bp with no_steal := on } }

def bufpool_set_steal_handler (f : PagedFile) (on : Bool) : PagedFile :=
  { f with bp := { f.bp with steal_fn := on } }

/-- Forget every frame the condition selects. -/
def invalidate (sel : Frame → Bool) (f : PagedFile) : PagedFile :=
  let frames := f.bp.frames.map fun fr => if sel fr then fr.clear else fr
  { f with bp := { f.bp with frames := frames } }

def bufpool_invalidate_all : PagedFile → PagedFile := invalidate fun _ => true

/-! ### Transactions on a file -/

/-- Open the WAL transaction of a file and turn stealing on. -/
def begin_write (f : PagedFile) : PagedFile :=
  let f := bufpool_set_steal_handler (bufpool_set_no_steal f true) true
  { f with wal := wal_begin f.wal, txn_pages := f.wal.data.num_pages }

/-- Stage the dirty frames in a new WAL transaction and commit them; without a
    dirty frame nothing is logged. -/
def wal_flush_commit (f : PagedFile) : PagedFile × Int :=
  let r := bufpool_flush_cb { f with wal := wal_begin f.wal }
  if r.2 < 0 then (r.1, -1)
  else if r.2 > 0 then
    let c := wal_commit r.1.wal
    ({ r.1 with wal := c.1 }, c.2)
  else (r.1, 0)

/-- The pool leaves transaction mode. -/
def end_write (f : PagedFile) : PagedFile :=
  bufpool_set_steal_handler (bufpool_set_no_steal f false) false

/-- Commit one file of a transaction; the return code is not looked at. -/
def commit_file (f : PagedFile) : PagedFile := end_write (wal_flush_commit f).1

/-- Roll one file of a transaction back. -/
def abort_file (f : PagedFile) : PagedFile :=
  let f := bufpool_invalidate_all { f with wal := (wal_undo f.wal).1 }
  end_write { f with wal := { f.wal with data := pager_truncate f.wal.data f.txn_pages } }

/-- What a transaction does to a file between its first write and its end. -/
inductive FileOp where
  | fetch (page_id : Nat)
  | new_page
  | store (page_id : Nat) (buf : Page)
  | unpin (page_id : Nat) (is_dirty : Bool)

def FileOp.apply (f : PagedFile) : FileOp → PagedFile
  | .fetch page_id => (bufpool_fetch f page_id).1
  | .new_page => (bufpool_new_page f).1
  | .store page_id buf => MiniDb.store f page_id buf
  | .unpin page_id is_dirty => bufpool_unpin f page_id is_dirty

def file_run (f : PagedFile) (ops : List FileOp) : PagedFile := ops.foldl FileOp.apply f

/-! ### What a fetch can do -/

theorem find_frame_some {bp : BufferPool} {page_id i : Nat} (h : find_frame bp page_id = some i) :
    ∃ fr, bp.frames[i]? = some fr ∧ fr.valid = true ∧ fr.page_id = page_id := by
  obtain ⟨hlt, hp, -⟩ := findIdx?_eq_some_iff_getElem.mp h
  refine ⟨bp.frames[i], by simp [hlt], ?_⟩
  simpa [Frame.holds] using hp

theorem find_frame_none {bp : BufferPool} {page_id : Nat} (h : find_frame bp page_id = none) :
    ∀ fr ∈ bp.frames, fr.valid = true → fr.page_id ≠ page_id := by
  intro fr hfr hv heq
  have := findIdx?_eq_none_iff.mp h fr hfr
  simp [Frame.holds, hv, heq] at this

/-- A victim is an unpinned frame of the pool. -/
theorem victim_loop_some {c : Bool} {frames : List Frame} {i0 i : Nat} {v : Frame}
    {v0 : Option (Nat × Frame)} (h : victim_loop c frames i0 v0 = some (i, v)) :
    v0 = some (i, v) ∨ (i0 ≤ i ∧ frames[i - i0]? = some v ∧ v.pin_count = 0) := by
  induction frames generalizing i0 v0 with
  | nil => exact .inl h
  | cons fr frames ih =>
    -- a later frame, found with the index shifted by one
    have hlater : ∀ {v1}, victim_loop c frames (i0 + 1) v1 = some (i, v) →
        v1 = some (i, v) ∨ (i0 ≤ i ∧ (fr :: frames)[i - i0]? = some v ∧ v.pin_count = 0) := by
      intro v1 h1
      rcases ih h1 with h1 | ⟨hle, hget, hpin⟩
      · exact .inl h1
      · refine .inr ⟨by omega, ?_, hpin⟩
        have : i - i0 = (i - (i0 + 1)) + 1 := by omega
        rw [this, getElem?_cons_succ, hget]
    have hhere : fr.pin_count = 0 → some (i0, fr) = some (i, v) →
        i0 ≤ i ∧ (fr :: frames)[i - i0]? = some v ∧ v.pin_count = 0 := by
      rintro hpin heq
      cases heq
      simp [hpin]
    simp only [victim_loop] at h
    split at h
    · exact hlater h
    next hpin =>
    have hpin : fr.pin_count = 0 := by simpa using hpin
    split at h
    · exact hlater h
    split at h
    · rcases hlater h with h | h
      · exact .inr (hhere hpin h)
      · exact .inr h
    · split at h
      · rcases hlater h with h | h
        · exact .inr (hhere hpin h)
        · exact .inr h
      · exact hlater h

/-- No unpinned frame was found: every frame is pinned. -/
theorem victim_loop_none {frames : List Frame} {i : Nat}
    (h : victim_loop true frames i none = none) :
    ∀ fr ∈ frames, fr.pin_count ≠ 0 := by
  -- once there is a victim, the loop ends with one
  have hsome : ∀ (frames : List Frame) (i : Nat) (v : Nat × Frame),
      victim_loop true frames i (some v) ≠ none := by
    intro frames
    induction frames with
    | nil => simp [victim_loop]
    | cons fr frames ih =>
      intro i v
      simp only [victim_loop, Bool.not_true, Bool.and_false]
      split
      · exact ih _ _
      · simp only [Bool.false_eq_true, if_false]
        split <;> exact ih _ _
  induction frames generalizing i with
  | nil => simp
  | cons fr frames ih =>
    simp only [victim_loop, Bool.not_true, Bool.and_false] at h
    split at h
    · next hpin =>
      intro fr' hfr'
      rcases mem_cons.1 hfr' with rfl | hfr'
      · exact hpin
      · exact ih h fr' hfr'
    · exact absurd h (by simpa using hsome frames (i + 1) (i, fr))

/-- What `pick_frame` does: nothing, or one eviction. -/
theorem pick_frame_cases (f : PagedFile) :
    (∃ i fr, f.bp.frames[i]? = some fr ∧ fr.valid = false ∧ pick_frame f = (f, some i)) ∨
    (victim_loop (!f.bp.no_steal || f.bp.steal_fn) f.bp.frames 0 none = none ∧
      pick_frame f = (f, none)) ∨
    ∃ i v, f.bp.frames[i]? = some v ∧ v.valid = true ∧ v.pin_count = 0 ∧
      ((evict f v).2 ≠ 0 ∧ pick_frame f = ((evict f v).1, none) ∨
        (evict f v).2 = 0 ∧
          pick_frame f =
            ((evict f v).1.set_frame i { v with valid := false, dirty := false }, some i)) := by
  unfold pick_frame
  cases hfree : f.bp.frames.findIdx? fun fr => !fr.valid with
  | some i =>
    obtain ⟨hlt, hp, -⟩ := findIdx?_eq_some_iff_getElem.mp hfree
    exact .inl ⟨i, f.bp.frames[i], by simp [hlt], by simpa using hp, rfl⟩
  | none =>
    refine .inr ?_
    simp only
    cases hv : victim_loop (!f.bp.no_steal || f.bp.steal_fn) f.bp.frames 0 none with
    | none => exact .inl ⟨rfl, rfl⟩
    | some iv =>
      obtain ⟨i, v⟩ := iv
      rcases victim_loop_some hv with h | ⟨-, hget, hpin⟩
      · cases h
      simp only [Nat.sub_zero] at hget
      have hvalid : v.valid = true := by
        have := findIdx?_eq_none_iff.mp hfree v (mem_of_getElem? hget)
        simpa using this
      refine .inr ⟨i, v, hget, hvalid, hpin, ?_⟩
      by_cases hrc : (evict f v).2 = 0
      · exact .inr ⟨hrc, by simp [hrc]⟩
      · exact .inl ⟨hrc, by simp [hrc]⟩

end MiniDb
