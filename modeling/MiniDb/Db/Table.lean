import Mathlib.Algebra.Group.Int.Defs
import MiniDb.Db.Index
import MiniDb.Db.Mvcc

/-! # Tables

  A table is its heap with the primary key index on an INT first column, up to
  four secondary indexes, the optimizer's statistics, and the transaction that
  is writing to it.  A writer's rollback restores what the files held when it
  began to write (`undo`). -/

namespace MiniDb

def DB_MAX_TABLES : Nat := 16
def DB_MAX_SEC_IDX : Nat := 4
def DML_MAX_ROWS : Nat := 4096
def SELECT_MAX_ROWS : Nat := 4096
def PARSCAN_MIN_PAGES : Nat := 16
def MVCC_HDR : Nat := 8

structure SecIndex where
  name : String
  col : Nat
  tree : BTNode

structure Stats where
  rows : Nat
  pages : Nat
  pk_min : Int
  pk_max : Int

/-- The contents of a table's files. -/
structure TableData where
  heap : Heap
  index : BTNode
  trees : List BTNode

structure Table where
  schema : CreateStmt
  heap : Heap
  index : BTNode
  lindex : LSM
  sec : List SecIndex
  stats : Option Stats
  writer_txn : Nat
  undo : TableData

def Table.has_index (t : Table) : Bool :=
  (t.schema.columns.head?.map ColumnDef.type) == some .COL_INT

def Table.data (t : Table) : TableData := ⟨t.heap, t.index, t.sec.map SecIndex.tree⟩

/-! ### Writing transactions -/

/-- The first write of `txn` notes what a rollback goes back to. -/
def Table.begin_write (t : Table) (txn : Nat) : Table :=
  if t.writer_txn = txn then t else { t with writer_txn := txn, undo := t.data }

def Table.commit (t : Table) (txn : Nat) : Table :=
  if t.writer_txn ≠ txn then t else { t with writer_txn := 0 }

/-- The LSM index takes no part in rollbacks: it is rebuilt from the heap. -/
def lsm_pk_rebuild (h : Heap) : LSM :=
  (heap_scan h).foldl (fun l x =>
    match x.2.row.head? with
    | some (.int v) => lsm_put_dup l v (rid_encode x.1)
    | _ => l) []

def Table.abort (t : Table) (txn : Nat) : Table :=
  if t.writer_txn ≠ txn then t
  else { t with
    heap := t.undo.heap
    index := t.undo.index
    lindex := if t.has_index && t.schema.index_kind = 1 then lsm_pk_rebuild t.undo.heap else t.lindex
    sec := t.sec.zipWith (fun si tree => { si with tree := tree }) t.undo.trees
    writer_txn := 0 }

/-! ### Rows -/

/-- The value an `int32` cast leaves. -/
def int32_cast (v : Int) : Int := (v + 2 ^ 31) % 2 ^ 32 - 2 ^ 31

/-- The stored values and their length in bytes; `none` when a value does not
    fit its column. -/
def encode_values : List ColumnDef → List Value → Option (Row × Nat)
  | [], [] => some ([], 0)
  | _ :: cs, .null :: vs => (encode_values cs vs).map fun r => (.null :: r.1, r.2)
  | c :: cs, .int v :: vs =>
    if c.type = .COL_INT then
      (encode_values cs vs).map fun r => (.int (int32_cast v) :: r.1, r.2 + 4)
    else none
  | c :: cs, .text s :: vs =>
    if c.type = .COL_TEXT then
      (encode_values cs vs).map fun r => (.text s :: r.1, r.2 + 2 + s.length)
    else none
  | _, _ => none

/-- Header, NULL bitmap, values. -/
def encode_row (schema : CreateStmt) (vals : List Value) (xmin xmax : Nat) : Option Version :=
  (encode_values schema.columns vals).map fun r =>
    ⟨xmin, xmax, r.1, MVCC_HDR + (schema.columns.length + 7) / 8 + r.2⟩

def pidx_insert (t : Table) (key : Int) (rid : Rid) : Table :=
  if t.schema.index_kind = 1 then { t with lindex := lsm_put_dup t.lindex key (rid_encode rid) }
  else { t with index := btree_insert_dup t.index key (rid_encode rid) }

def pidx_delete (t : Table) (key : Int) (rid : Rid) : Table :=
  if t.schema.index_kind = 1 then { t with lindex := lsm_delete_val t.lindex key (rid_encode rid) }
  else { t with index := btree_delete_val t.index key (rid_encode rid) }

/-- Change each secondary index at the row's value of its column; only
    integers are indexed. -/
def sec_update (f : BTNode → Int → Int → BTNode) (sec : List SecIndex) (row : List Value)
    (rid : Rid) : List SecIndex :=
  sec.map fun si : SecIndex =>
    match (row[si.col]? : Option Value) with
    | some (.int v) => { si with tree := f si.tree v (rid_encode rid) }
    | _ => si

/-- The index entries of a new version, under the values it was written with. -/
def index_row (t : Table) (row : List Value) (rid : Rid) : Table :=
  let t :=
    match t.has_index, row.head? with
    | true, some (.int v) => pidx_insert t v rid
    | _, _ => t
  { t with sec := sec_update btree_insert_dup t.sec row rid }

def insert_row (t : Table) (txn : Nat) (vals : List Value) : Table × Bool :=
  match encode_row t.schema vals txn 0 with
  | none => (t, false)
  | some rec =>
    match heap_insert t.heap rec with
    | (heap, none) => ({ t with heap := heap }, false)
    | (heap, some rid) => (index_row { t with heap := heap } vals rid, true)

/-- The old version is stamped before the new one is known to fit. -/
def update_row (txn sci : Nat) (set_val : Value) (t : Table) (rid : Rid) : Table :=
  match heap_get t.heap rid with
  | none => t
  | some old =>
    let row := old.row.set sci set_val
    match encode_row t.schema row txn 0 with
    | none => t
    | some rec =>
      match heap_insert (stamp_xmax t.heap rid txn) rec with
      | (heap, none) => { t with heap := heap }
      | (heap, some newrid) => index_row { t with heap := heap } row newrid

def delete_row (txn : Nat) (t : Table) (rid : Rid) : Table :=
  { t with heap := stamp_xmax t.heap rid txn }

/-- An update fails, or deletes the old version and inserts the new one. -/
theorem update_row_cases (txn sci : Nat) (set_val : Value) (t : Table) (rid : Rid) :
    update_row txn sci set_val t rid = t ∨ ∃ old, heap_get t.heap rid = some old ∧
      update_row txn sci set_val t rid =
        (insert_row (delete_row txn t rid) txn (old.row.set sci set_val)).1 := by
  unfold update_row insert_row delete_row
  cases hold : heap_get t.heap rid with
  | none => exact .inl rfl
  | some old =>
    dsimp only
    cases hrec : encode_row t.schema (old.row.set sci set_val) txn 0 with
    | none => exact .inl rfl
    | some rec =>
      refine .inr ⟨old, rfl, ?_⟩
      rw [hrec]
      dsimp only
      split <;> rfl

/-! ### Access paths -/

def pidx_find_all (t : Table) (key : Int) : List Int :=
  if t.schema.index_kind = 1 then lsm_find_all t.lindex key else btree_find_all t.index key

def pidx_range (t : Table) (op : CmpOp) (bound : Int) : List (Int × Int) :=
  let lower : Bool := op = .CMP_GT ∨ op = .CMP_GE
  if t.schema.index_kind = 1 then
    if lower then lsm_scan t.lindex (some bound) none else lsm_scan t.lindex none (some bound)
  else if lower then btree_seek_scan t.index bound
  else btree_scan t.index

/-- `range_visit` passes over an entry without reading its row. -/
def range_skips (op : CmpOp) (bound key : Int) : Bool := op = .CMP_GT && key = bound

/-- `range_visit` asks for the end of the walk. -/
def range_stops (op : CmpOp) (bound key : Int) : Bool :=
  (op = .CMP_LT && decide (bound ≤ key)) || (op = .CMP_LE && decide (bound < key))

/-- The entries whose rows are read.  The LSM scan does not look at what
    `range_visit` returns and goes on. -/
def range_entries (t : Table) (op : CmpOp) (bound : Int) : List Int :=
  let es := pidx_range t op bound
  let walked := if t.schema.index_kind = 1 then es.filter (!range_stops op bound ·.1)
    else es.takeWhile (!range_stops op bound ·.1)
  (walked.filter (!range_skips op bound ·.1)).map Prod.snd

/-- The versions that index values point to; a vanished slot is passed over. -/
def fetch_all (t : Table) (vals : List Int) : List Version :=
  vals.filterMap fun v => heap_get t.heap (rid_decode v)

/-- Estimated rows of a primary key range (in exact arithmetic). -/
def est_pk_range_rows (s : Stats) (op : CmpOp) (v : Int) : Int :=
  if s.rows = 0 then 0
  else
    let span := s.pk_max - s.pk_min
    let est : Int :=
      if span ≤ 0 then s.rows
      else
        let part := if op = .CMP_GT ∨ op = .CMP_GE then s.pk_max - v else v - s.pk_min
        (2 * s.rows * max 0 (min part span) + span) / (2 * span)
    min (max est 1) s.rows

/-- Without statistics the index is taken. -/
def choose_pk_range (t : Table) (op : CmpOp) (v : Int) : Bool :=
  match t.stats with
  | none => true
  | some s => 1 + est_pk_range_rows s op v < s.pages

/-! ### VACUUM -/

/-- Remove the index entries of a dead version, under its stored values. -/
def unindex_row (t : Table) (x : Rid × Version) : Table :=
  let t :=
    match t.has_index, x.2.row.head? with
    | true, some (.int v) => pidx_delete t v x.1
    | _, _ => t
  { t with sec := sec_update btree_delete_val t.sec x.2.row x.1 }

/-- Dead versions leave indexes and heap, their pages are packed. -/
def vacuum_heap (h : Heap) (dead : List (Rid × Version)) : Heap :=
  let h := (dead.map Prod.fst).foldl heap_delete h
  truncate_tail ((dead.map fun x => x.1.page_id).foldl (fun h p => h.modify p slotpage_compact) h)

def vacuum_rows (t : Table) (dead : List (Rid × Version)) : Table :=
  let t := dead.foldl unindex_row t
  { t with heap := vacuum_heap t.heap dead }

end MiniDb
