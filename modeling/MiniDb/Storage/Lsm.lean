import Mathlib.Algebra.GroupWithZero.Nat
import Mathlib.Algebra.Order.Monoid.Unbundled.WithTop
import MiniDb.Framework.SortedRuns

/-! # The log-structured merge tree (lsm.c)

  Writes go to a sorted memtable; a full memtable is written to a new table
  file; reads let the newest version of a key win, a tombstone included;
  compaction merges all table files into one and drops the tombstones.  In
  unique mode a key has one value, in multi mode the unit is the pair of key
  and value.

  A table file is the list of its 8-byte words: magic, count and three words
  for each record.  Every read of the source asks for whole words, so bytes
  after the last whole word of a torn file do not matter.  `dir` is the
  directory, the sequence number standing for the file name that is printed
  from it.  Sequence numbers do not wrap here, and the memtable's priority
  `UINT64_MAX` is the top element above them. -/

namespace MiniDb.Lsm

open Framework

/-! ### State -/

structure Entry where
  key : Int
  val : Int
  tomb : Bool
  deriving DecidableEq, Repr

def SST_MAGIC : Int := 0x314D534C6D696E64

/-- The files of a directory. -/
abbrev Dir := List (Nat × List Int)

/-- `fopen "wb"` and everything written to the file. -/
def dir_write (dir : Dir) (seq : Nat) (words : List Int) : Dir :=
  (seq, words) :: dir.filter (·.1 ≠ seq)

def dir_unlink (dir : Dir) (seq : Nat) : Dir := dir.filter (·.1 ≠ seq)

/-- An open table; `fp` is what its file holds. -/
structure SSTable where
  seq : Nat
  fp : List Int
  count : Nat
  min_key : Int
  max_key : Int
  deriving DecidableEq, Repr

structure LSM where
  threshold : Nat
  multi : Bool
  mem : List Entry
  ssts : List SSTable
  next_seq : Nat
  dir : Dir
  deriving DecidableEq, Repr

/-! ### Memtable -/

def mem_mid (lo hi : Nat) : Nat := lo + (hi - lo) / 2

/-- The place of `key`, and whether it is there. -/
def mem_bsearch (l : LSM) (key : Int) : Nat × Bool :=
  bisect mem_mid (fun mid =>
    match l.mem[mid]? with
    | some e => if e.key < key then .lt else if key < e.key then .gt else .eq
    | none => .gt) l.mem.length 0 l.mem.length

/-- Overwrite the version of the key, or insert one at its place. -/
def mem_upsert (l : LSM) (key val : Int) (tomb : Bool) : LSM :=
  match mem_bsearch l key with
  | (pos, true) => { l with mem := l.mem.modify pos fun e => { e with val := val, tomb := tomb } }
  | (pos, false) => { l with mem := l.mem.take pos ++ ⟨key, val, tomb⟩ :: l.mem.drop pos }

def mem_bsearch2 (l : LSM) (key val : Int) : Nat × Bool :=
  bisect mem_mid (fun mid =>
    match l.mem[mid]? with
    | some e =>
      if e.key < key ∨ e.key = key ∧ e.val < val then .lt
      else if key < e.key ∨ e.key = key ∧ val < e.val then .gt
      else .eq
    | none => .gt) l.mem.length 0 l.mem.length

/-- As `mem_upsert`, but another value of the key is another entry. -/
def mem_upsert_dup (l : LSM) (key val : Int) (tomb : Bool) : LSM :=
  match mem_bsearch2 l key val with
  | (pos, true) => { l with mem := l.mem.modify pos fun e => { e with tomb := tomb } }
  | (pos, false) => { l with mem := l.mem.take pos ++ ⟨key, val, tomb⟩ :: l.mem.drop pos }

/-! ### Table files -/

def rec_words (e : Entry) : List Int := [e.key, e.val, if e.tomb then 1 else 0]

/-- What `sst_write_file` writes. -/
def sst_words (es : List Entry) : List Int :=
  SST_MAGIC :: (es.length : Int) :: es.flatMap rec_words

/-- The three words of record `i`, when the file has all of them. -/
def rec_at (fp : List Int) (i : Nat) : Option (Int × Int × Int) :=
  match fp.drop (2 + 3 * i) with
  | k :: v :: t :: _ => some (k, v, t)
  | _ => none

/-- A file without a whole header or without its last record is refused. -/
def sst_open (seq : Nat) (fp : List Int) : Option SSTable :=
  match fp with
  | magic :: count :: _ =>
    if magic ≠ SST_MAGIC then none
    else if 0 < count.toNat then
      match rec_at fp 0, rec_at fp (count.toNat - 1) with
      | some first, some last => some ⟨seq, fp, count.toNat, first.1, last.1⟩
      | _, _ => none
    else some ⟨seq, fp, count.toNat, 0, 0⟩
  | _ => none

/-- A record that cannot be read counts as a tombstone of key 0. -/
def sst_read_rec (s : SSTable) (i : Nat) : Entry :=
  match rec_at s.fp i with
  | some (k, v, t) => ⟨k, v, t ≠ 0⟩
  | none => ⟨0, 0, true⟩

/-- The source keeps the last place of the interval, not the place after it. -/
def sst_mid (lo hi : Nat) : Nat := lo + (hi - 1 - lo) / 2

def sst_get (s : SSTable) (key : Int) : Option Entry :=
  if s.count = 0 ∨ key < s.min_key ∨ s.max_key < key then none
  else
    match bisect sst_mid (fun mid =>
      let k := (sst_read_rec s mid).key
      if k = key then .eq else if k < key then .lt else .gt) s.count 0 s.count with
    | (mid, true) => some (sst_read_rec s mid)
    | (_, false) => none

/-! ### Opening -/

/-- The tables among the files `readdir` lists, and the next free number. -/
def lsm_open_multi (readdir : Dir) (threshold : Nat) (multi : Bool) : Option LSM :=
  if threshold = 0 then none
  else
    let found := readdir.filterMap fun f => sst_open f.1 f.2
    some
      { threshold := threshold
        multi := multi
        mem := []
        ssts := found.insertionSort fun a b => a.seq ≤ b.seq
        next_seq := found.foldl (fun n s => if n ≤ s.seq then s.seq + 1 else n) 1
        dir := readdir }

def lsm_open (readdir : Dir) (threshold : Nat) : Option LSM :=
  lsm_open_multi readdir threshold false

/-! ### Writing -/

/-- The memtable becomes the newest table.  0 on success, -1 on failure. -/
def lsm_flush (l : LSM) : Int × LSM :=
  if l.mem = [] then (0, l)
  else
    let seq := l.next_seq
    let l₁ := { l with next_seq := seq + 1, dir := dir_write l.dir seq (sst_words l.mem) }
    match sst_open seq (sst_words l.mem) with
    | none => (-1, l₁)
    | some s => (0, { l₁ with ssts := l.ssts ++ [s], mem := [] })

def maybe_flush (l : LSM) : Int × LSM :=
  if l.threshold ≤ l.mem.length then lsm_flush l else (0, l)

def lsm_put (l : LSM) (key val : Int) : Int × LSM := maybe_flush (mem_upsert l key val false)

def lsm_delete (l : LSM) (key : Int) : Int × LSM := maybe_flush (mem_upsert l key 0 true)

def lsm_put_dup (l : LSM) (key val : Int) : Int × LSM :=
  maybe_flush (mem_upsert_dup l key val false)

def lsm_delete_val (l : LSM) (key val : Int) : Int × LSM :=
  maybe_flush (mem_upsert_dup l key val true)

/-- The open tables are unlinked one after the other. -/
def unlink_all (dir : Dir) (ssts : List SSTable) : Dir :=
  ssts.foldl (fun d s => dir_unlink d s.seq) dir

def lsm_clear (l : LSM) : LSM := { l with ssts := [], mem := [], dir := unlink_all l.dir l.ssts }

/-! ### Reading and merging -/

/-- A tombstone hides what is older. -/
def live : Option Entry → Option Int
  | some e => if e.tomb then none else some e.val
  | none => none

def lsm_get (l : LSM) (key : Int) : Option Int :=
  match mem_bsearch l key with
  | (pos, true) => live l.mem[pos]?
  | (_, false) => live (l.ssts.reverse.findSome? fun s => sst_get s key)

/-- An entry with its priority: above every table for the memtable, else the
    table's number. -/
abbrev MEntry := Entry × WithTop Nat

def mentry_cmp (x y : MEntry) : Ordering :=
  if x.1.key < y.1.key then .lt
  else if y.1.key < x.1.key then .gt
  else if y.2 < x.2 then .lt
  else if x.2 < y.2 then .gt
  else .eq

def mentry_cmp_multi (x y : MEntry) : Ordering :=
  if x.1.key < y.1.key then .lt
  else if y.1.key < x.1.key then .gt
  else if x.1.val < y.1.val then .lt
  else if y.1.val < x.1.val then .gt
  else if y.2 < x.2 then .lt
  else if x.2 < y.2 then .gt
  else .eq

/-- A sorted rearrangement; no two entries compare equal. -/
def qsort (cmp : MEntry → MEntry → Ordering) (arr : List MEntry) : List MEntry :=
  arr.insertionSort fun a b => cmp a b ≠ .gt

def same_group (multi : Bool) (a b : MEntry) : Bool :=
  a.1.key = b.1.key && (!multi || a.1.val = b.1.val)

def sst_entries (s : SSTable) : List MEntry :=
  (List.range s.count).map fun j => (sst_read_rec s j, (s.seq : WithTop Nat))

def sort_merge (multi : Bool) (arr : List MEntry) : List MEntry :=
  qsort (if multi then mentry_cmp_multi else mentry_cmp) arr

def collect_all (l : LSM) : List MEntry :=
  sort_merge l.multi (l.mem.map (fun e => (e, ⊤)) ++ l.ssts.flatMap sst_entries)

/-- The newest version of every group of the tables, without tombstones. -/
def compacted (l : LSM) : List Entry :=
  ((heads (same_group l.multi) (sort_merge l.multi (l.ssts.flatMap sst_entries))).filter
    fun cur => !cur.1.tomb).map fun cur => ⟨cur.1.key, cur.1.val, false⟩

/-- All tables become one; the memtable stays in front of it. -/
def lsm_compact (l : LSM) : Int × LSM :=
  if l.ssts = [] then (0, l)
  else if (l.ssts.map SSTable.count).sum = 0 then (0, l)
  else
    let seq := l.next_seq
    let l₁ := { l with next_seq := seq + 1, dir := dir_write l.dir seq (sst_words (compacted l)) }
    match sst_open seq (sst_words (compacted l)) with
    | none => (-1, l₁)
    | some merged => (0, { l₁ with ssts := [merged], dir := unlink_all l₁.dir l.ssts })

/-- The pairs in the range, in the order in which they are visited. -/
def lsm_scan (l : LSM) (lo hi : Int) : List (Int × Int) :=
  if hi < lo then []
  else
    ((heads (same_group l.multi) (collect_all l)).filter fun cur =>
      !(cur.1.key < lo || hi < cur.1.key) && !cur.1.tomb).map fun cur => (cur.1.key, cur.1.val)

/-- The pairs of one key, in the order in which they are visited. -/
def lsm_find_all (l : LSM) (key : Int) : List (Int × Int) :=
  ((heads (same_group l.multi) (collect_all l)).filter fun cur =>
    cur.1.key = key && !cur.1.tomb).map fun cur => (cur.1.key, cur.1.val)

end MiniDb.Lsm
