import Mathlib.Algebra.GroupWithZero.Nat
import MiniDb.Framework.Overlay

/-! # Pager and disk

  A data file is a list of pages; page `n` lives at byte offset
  `n * PAGE_SIZE`, so a `pwrite` past the end leaves zero pages in the gap.
  The log file is a byte string.

  `IoOp` is one system call on these two files.  A call of the storage layer
  is described by the list of operations it issues, in order; stopping the
  process inside the call keeps a prefix of them, and a log write that was
  under way may leave any prefix of its bytes (`cut_io`). -/

namespace MiniDb

open Framework List

def PAGE_SIZE : Nat := 4096

/-- First page id whose byte offset does not fit `off_t`: `pwrite` fails there. -/
def MAX_PAGES : Nat := 2 ^ 51

/-- A page is exactly `PAGE_SIZE` bytes. -/
structure Page where
  bytes : List UInt8
  size : bytes.length = PAGE_SIZE
  deriving DecidableEq

/-- The page with every byte equal to `b`. -/
def Page.fill (b : UInt8) : Page := ⟨List.replicate PAGE_SIZE b, by simp⟩

/-- The page `pager_allocate` appends. -/
def Page.zero : Page := Page.fill 0

theorem Page.fill_injective : Function.Injective Page.fill := by
  intro a b h
  have hb : List.replicate PAGE_SIZE a = List.replicate PAGE_SIZE b := congrArg Page.bytes h
  exact replicate_right_injective (by decide) hb

/-- `file` is the open file, `num_pages` the in-memory page count. -/
structure Pager where
  file : List Page
  num_pages : Nat

/-- The page count is the file size divided by the page size. -/
def pager_open (file : List Page) : Pager := { file := file, num_pages := file.length }

/-- A read is short exactly when the page lies past the end of the file. -/
def pager_read (pager : Pager) (page_id : Nat) : Option Page := pager.file[page_id]?

def pager_write (pager : Pager) (page_id : Nat) (buf : Page) : Pager × Int :=
  if page_id < MAX_PAGES then
    ({ pager with file := write_at Page.zero pager.file page_id buf }, 0)
  else (pager, -1)

/-- `none` is `PAGE_ID_INVALID`. -/
def pager_allocate (pager : Pager) : Pager × Option Nat :=
  let id := pager.num_pages
  let (pager, rc) := pager_write pager id Page.zero
  if rc ≠ 0 then (pager, none)
  else ({ pager with num_pages := pager.num_pages + 1 }, some id)

theorem pager_allocate_eq (pager : Pager) : pager_allocate pager =
    if pager.num_pages < MAX_PAGES then
      (⟨write_at Page.zero pager.file pager.num_pages Page.zero, pager.num_pages + 1⟩,
        some pager.num_pages) else (pager, none) := by
  by_cases hlt : pager.num_pages < MAX_PAGES
  · simp [pager_allocate, pager_write, hlt]
  · simp [pager_allocate, pager_write, hlt]

def pager_truncate (pager : Pager) (num_pages : Nat) : Pager :=
  { file := resize Page.zero pager.file num_pages, num_pages := num_pages }

/-! ### Disk operations -/

/-- What survives the process: one data file and its log. -/
structure Disk where
  data : List Page
  log : List UInt8

/-- One system call on the data file or on the log. -/
inductive IoOp where
  | log_write (bs : List UInt8)
  | log_truncate (n : Nat)
  | data_write (page_id : Nat) (buf : Page)
  | data_truncate (n : Nat)
  | fsync_log
  | fsync_data

/-- Effect of one operation.  The log is only written at its end. -/
def Disk.apply (d : Disk) : IoOp → Disk
  | .log_write bs => { d with log := d.log ++ bs }
  | .log_truncate n => { d with log := resize 0 d.log n }
  | .data_write page_id buf =>
      if page_id < MAX_PAGES then { d with data := write_at Page.zero d.data page_id buf } else d
  | .data_truncate n => { d with data := resize Page.zero d.data n }
  | .fsync_log => d
  | .fsync_data => d

def Disk.run (d : Disk) (ops : List IoOp) : Disk := ops.foldl Disk.apply d

variable (d : Disk)

@[simp] theorem Disk.run_nil : d.run [] = d := rfl

@[simp] theorem Disk.run_cons (op : IoOp) (ops : List IoOp) :
    d.run (op :: ops) = (d.apply op).run ops := rfl

theorem Disk.run_append (ops ops' : List IoOp) :
    d.run (ops ++ ops') = (d.run ops).run ops' := by
  simp [Disk.run]

/-- The first `k` operations, and of a log write in progress the first `b` bytes. -/
def cut_io (ops : List IoOp) (k b : Nat) : List IoOp :=
  ops.take k ++
    match ops[k]? with
    | some (.log_write bs) => [.log_write (bs.take b)]
    | _ => []

theorem cut_io_cons_zero (op : IoOp) (ops : List IoOp) (b : Nat) :
    cut_io (op :: ops) 0 b = match op with
      | .log_write bs => [.log_write (bs.take b)]
      | _ => [] := by
  cases op <;> rfl

theorem cut_io_cons_succ (op : IoOp) (ops : List IoOp) (k b : Nat) :
    cut_io (op :: ops) (k + 1) b = op :: cut_io ops k b := by
  simp [cut_io]

@[simp] theorem cut_io_nil (k b : Nat) : cut_io [] k b = [] := by
  simp [cut_io]

/-- A stop inside `ops ++ ops'` is a stop inside `ops`, or `ops` is complete. -/
theorem cut_io_append (ops ops' : List IoOp) (k b : Nat) :
    (∃ j, cut_io (ops ++ ops') k b = cut_io ops j b) ∨
      ∃ j, cut_io (ops ++ ops') k b = ops ++ cut_io ops' j b := by
  induction ops generalizing k with
  | nil => exact .inr ⟨k, rfl⟩
  | cons op ops ih =>
    cases k with
    | zero =>
      left
      exact ⟨0, by rw [cons_append, cut_io_cons_zero, cut_io_cons_zero]⟩
    | succ k =>
      rcases ih k with ⟨j, hj⟩ | ⟨j, hj⟩
      · left
        exact ⟨j + 1, by rw [cons_append, cut_io_cons_succ, hj, cut_io_cons_succ]⟩
      · right
        exact ⟨j, by rw [cons_append, cut_io_cons_succ, hj, cons_append]⟩

/-! ### Stopping inside a call

  `Stops d ops P` is a crash condition: wherever the process stops while it
  issues `ops` from `d`, the disk satisfies `P`. -/

def Stops (d : Disk) (ops : List IoOp) (P : Disk → Prop) : Prop :=
  ∀ k b, P (d.run (cut_io ops k b))

theorem run_cut_io_zero (ops : List IoOp) : d.run (cut_io ops 0 0) = d := by
  cases ops with
  | nil => rfl
  | cons op ops => cases op <;> simp [cut_io_cons_zero, Disk.apply]

namespace Stops

variable {d : Disk} {op : IoOp} {ops ops' : List IoOp} {P Q : Disk → Prop}

theorem here (h : Stops d ops P) : P d := by
  have := h 0 0
  rwa [run_cut_io_zero] at this

theorem nil (h : P d) : Stops d [] P := by
  intro k b
  simpa using h

theorem cons (h : P d)
    (hpart : ∀ bs, op = .log_write bs → ∀ b, P { d with log := d.log ++ bs.take b })
    (hrest : Stops (d.apply op) ops P) : Stops d (op :: ops) P := by
  intro k b
  cases k with
  | zero =>
    rw [cut_io_cons_zero]
    cases op with
    | log_write bs => exact hpart bs rfl b
    | _ => exact h
  | succ k =>
    rw [cut_io_cons_succ]
    exact hrest k b

theorem append (h : Stops d ops P) (h' : Stops (d.run ops) ops' P) : Stops d (ops ++ ops') P := by
  intro k b
  rcases cut_io_append ops ops' k b with ⟨j, hj⟩ | ⟨j, hj⟩
  · rw [hj]; exact h j b
  · rw [hj, Disk.run_append]; exact h' j b

theorem mono (himp : ∀ d, P d → Q d) (h : Stops d ops P) : Stops d ops Q :=
  fun k b => himp _ (h k b)

end Stops

/-! ### Runs of page writes -/

/-- The page writes of a list of images. -/
def write_ops (us : List (Nat × Page)) : List IoOp := us.map fun u => .data_write u.1 u.2

@[simp] theorem write_ops_nil : write_ops [] = [] := rfl

theorem write_ops_append (us vs : List (Nat × Page)) :
    write_ops (us ++ vs) = write_ops us ++ write_ops vs := by
  simp [write_ops]

/-- Page writes with valid ids are a replay of the images. -/
theorem Disk.run_write_ops {us : List (Nat × Page)} (h : ∀ u ∈ us, u.1 < MAX_PAGES) (d : Disk) :
    d.run (write_ops us) = { d with data := write_all Page.zero d.data us } := by
  induction us generalizing d with
  | nil => rfl
  | cons u us ih =>
    obtain ⟨p, x⟩ := u
    have hp : p < MAX_PAGES := h (p, x) mem_cons_self
    have hus : ∀ u ∈ us, u.1 < MAX_PAGES := fun u hu => h u (mem_cons_of_mem _ hu)
    have hstep : d.apply (.data_write p x) = { d with data := write_at Page.zero d.data p x } := by
      simp [Disk.apply, hp]
    show (d.apply (.data_write p x)).run (write_ops us) = _
    rw [ih hus, hstep]
    rfl

/-- A stop inside a run of page writes has done a prefix of them. -/
theorem cut_io_write_ops (us : List (Nat × Page)) (k b : Nat) :
    cut_io (write_ops us) k b = write_ops (us.take k) := by
  induction us generalizing k with
  | nil => simp
  | cons u us ih =>
    cases k with
    | zero => simp [write_ops, cut_io_cons_zero]
    | succ k =>
      have := ih k
      simp only [write_ops, map_cons, take_succ_cons] at this ⊢
      rw [cut_io_cons_succ, this]

end MiniDb
