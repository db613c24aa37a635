import MiniDb.Db.Table

/-! # Queries on one table

  What a query reads: subqueries, access paths, and the rows that are handed
  to the output (`stream`) or to sorting and aggregation (`collected`).  Every
  test of visibility is noted as it was made. -/

namespace MiniDb

structure CatalogEntry where
  schema : CreateStmt
  sec : List (String × Nat)
  stats : Option Stats

/-- What the catalog file holds. -/
structure Catalog where
  next_txn : Nat
  entries : List CatalogEntry

structure Database extends TxnState where
  tables : List Table
  catalog : Option Catalog

def find_table (db : Database) (name : String) : Option Table :=
  db.tables.find? (·.schema.table == name)

/-! ### Tests of visibility -/

/-- A test of a version, the id it took for the statement's own, and its answer. -/
structure Test where
  version : Version
  own : Nat
  seen : Bool
  deriving DecidableEq

def row_test (d : TxnState) (my_txn : Nat) (rec : Version) : Test :=
  ⟨rec, my_txn, row_visible d rec.xmin rec.xmax my_txn⟩

def rec_test (d : TxnState) (rec : Version) : Test := row_test d d.cur_txn rec

def rec_visible (d : TxnState) (rec : Version) : Bool := (rec_test d rec).seen

theorem rec_visible_def (d : TxnState) (rec : Version) :
    rec_visible d rec = row_visible d rec.xmin rec.xmax d.cur_txn := rfl

/-- What was read, and the tests it took. -/
structure Read (α : Type) where
  found : List α
  tests : List Test

/-- A heap scan whose callback first tests the record. -/
def scan_read {α : Type} (d : TxnState) (h : Heap) (visit : Rid × Version → Option α) : Read α :=
  ⟨(heap_scan h).filterMap fun x => if rec_visible d x.2 then visit x else none,
    (heap_scan h).map fun x => rec_test d x.2⟩

/-- The records that index values point to, tested one by one. -/
def fetch_read (d : TxnState) (t : Table) (vals : List Int) : Read Row :=
  ⟨(fetch_all t vals).filterMap fun rec => if rec_visible d rec then some rec.row else none,
    (fetch_all t vals).map (rec_test d)⟩

/-- The visible rows that match, in heap order. -/
def scan_rows (d : TxnState) (t : Table) (tname : String) (w : Where) : Read Row :=
  scan_read d t.heap fun x => if where_matches t.schema tname w x.2.row then some x.2.row else none

/-! ### Subqueries -/

/-- A result that may fail, with the tests made on the way. -/
structure Tested (α : Type) where
  result : Option α
  tests : List Test

def Tested.bind {α β : Type} (x : Tested α) (f : α → Tested β) : Tested β :=
  match x.result with
  | none => ⟨none, x.tests⟩
  | some a => ⟨(f a).result, x.tests ++ (f a).tests⟩

instance : Monad Tested where
  pure a := ⟨some a, []⟩
  bind := Tested.bind

theorem Tested.bind_result {α β : Type} (x : Tested α) (f : α → Tested β) :
    (x >>= f).result = x.result.bind fun a => (f a).result := by
  show (Tested.bind x f).result = _
  unfold Tested.bind
  cases x.result <;> rfl

/-- The last column of that name. -/
def last_column (schema : CreateStmt) (name : String) : Option Nat :=
  (schema.columns.reverse.findIdx? (·.name == name)).map (schema.columns.length - 1 - ·)

/-- `SELECT <column> FROM <table> [WHERE ...]` is all that is supported. -/
def subquery_item (joins : List JoinClause) (select_star : Bool) (items : List SelectItem)
    (group_col : String) : Option SelectItem :=
  match joins, select_star, items, group_col with
  | [], false, [it], "" => if it.agg = .AGG_NONE then some it else none
  | _, _, _, _ => none

def sub_scan (d : TxnState) (t : Table) (tname : String) (w : Where) (col : Nat) : Tested (List Value) :=
  let r := scan_rows d t tname w
  ⟨some ((r.found.take SELECT_MAX_ROWS).map fun row => row[col]?.getD .null), r.tests⟩

mutual

/-- The values of a subquery; a nested one runs first. -/
def run_subquery (db : Database) : SelectStmt → Tested (List Value)
  | ⟨_, table, as_name, joins, _, select_star, items, _, _, group_col, _, _, _, filter, _, _, _⟩ =>
    match subquery_item joins select_star items group_col, find_table db table with
    | some it, some t => do
      let w ← prepare_where db filter
      match last_column t.schema it.col with
      | none => ⟨none, []⟩
      | some col => sub_scan db.toTxnState t (if as_name = "" then t.schema.table else as_name) w col
    | _, _ => ⟨none, []⟩

def run_sub (db : Database) : Option SelectStmt → Tested (List Value)
  | none => ⟨none, []⟩
  | some sub => run_subquery db sub

/-- A set that the parser or an earlier run has filled stays. -/
def prepare_cond (db : Database) : Condition → Tested Condition
  | ⟨tbl, col, op, val, in_sub, in_negate, scalar_sub, sub, in_set⟩ =>
    if in_sub && in_set.isNone then do
      let set ← run_sub db sub
      pure ⟨tbl, col, op, val, in_sub, in_negate, scalar_sub, sub, some set⟩
    else pure ⟨tbl, col, op, val, in_sub, in_negate, scalar_sub, sub, in_set⟩

def prepare_group (db : Database) : List Condition → Tested (List Condition)
  | [] => pure []
  | c :: cs => do
    let c ← prepare_cond db c
    let cs ← prepare_group db cs
    pure (c :: cs)

def prepare_where (db : Database) : List (List Condition) → Tested (List (List Condition))
  | [] => pure []
  | g :: gs => do
    let g ← prepare_group db g
    let gs ← prepare_where db gs
    pure (g :: gs)

end

/-! ### Access paths -/

inductive AccessPath where
  | point (v : Int)
  | range (op : CmpOp) (v : Int)
  | sec (tree : BTNode) (v : Int)
  | scan

/-- A WHERE clause of one condition. -/
def single_cond : Where → Option Condition
  | [[c]] => some c
  | _ => none

/-- The condition names a column of the table under the name it goes by. -/
def names_column (tname : String) (c : Condition) (name : Option String) : Bool :=
  (c.tbl = "" || c.tbl = tname) && name = some c.col

/-- The literal of a condition that compares the primary key with an integer. -/
def pk_literal (t : Table) (tname : String) (c : Condition) : Option Int :=
  match c.val with
  | .int v =>
    if !c.in_sub && t.has_index && names_column tname c (t.schema.columns.head?.map ColumnDef.name)
    then some v else none
  | _ => none

/-- The first secondary index on the column of `col = <integer>`. -/
def sec_index_for (t : Table) (tname : String) (c : Condition) : Option (SecIndex × Int) :=
  match c.op, c.val with
  | .CMP_EQ, .int v =>
    if c.in_sub then none
    else (t.sec.find? fun si =>
      names_column tname c ((t.schema.columns[si.col]?).map ColumnDef.name)).map fun si => (si, v)
  | _, _ => none

def is_range_op (op : CmpOp) : Bool :=
  op = .CMP_GT || op = .CMP_GE || op = .CMP_LT || op = .CMP_LE

/-- A primary key condition never takes a secondary index. -/
def access_path (t : Table) (tname : String) (w : Where) : AccessPath :=
  match single_cond w with
  | none => .scan
  | some c =>
    match pk_literal t tname c with
    | some v =>
      if c.op = .CMP_EQ then .point v
      else if is_range_op c.op && choose_pk_range t c.op v then .range c.op v
      else .scan
    | none =>
      match sec_index_for t tname c with
      | some (si, v) => .sec si.tree v
      | none => .scan

/-- The primary key paths do not look at the condition again; the secondary
    one does. -/
def path_read (d : TxnState) (t : Table) (tname : String) (w : Where) : AccessPath → Read Row
  | .point v => fetch_read d t (pidx_find_all t v)
  | .range op v => fetch_read d t (range_entries t op v)
  | .sec tree v =>
    let r := fetch_read d t (btree_find_all tree v)
    ⟨r.found.filter (where_matches t.schema tname w), r.tests⟩
  | .scan => scan_rows d t tname w

/-! ### Output -/

/-- Rows go straight to the output, or are collected for what sorts, cuts and
    aggregates them. -/
inductive SelectRows where
  | none
  | stream (rows : List Row)
  | collected (rows : List Row)

structure Output where
  ok : Bool
  rows : SelectRows
  tests : List Test

def Output.error (tests : List Test) : Output := ⟨false, .none, tests⟩

/-- A column of the collected rows. -/
structure ColRef where
  tbl : String
  col : String
  is_int : Bool

def table_cols (t : Table) (tname : String) : List ColRef :=
  t.schema.columns.map fun c => ⟨tname, c.name, c.type = .COL_INT⟩

def find_col (cols : List ColRef) (qtbl col : String) : Option Nat :=
  cols.findIdx? fun c => (qtbl = "" || qtbl = c.tbl) && c.col = col

/-- An item of the select list has a column of a fitting type. -/
def item_ok (cols : List ColRef) (it : SelectItem) : Bool :=
  (it.agg = .AGG_COUNT && it.star) ||
    match find_col cols it.tbl it.col with
    | none => false
    | some ci => !(it.agg = .AGG_SUM || it.agg = .AGG_AVG) || (cols[ci]?.map ColRef.is_int) = some true

/-- `emit_out_rows` sorts by output columns. -/
def emit_order_ok (sel : SelectStmt) : Bool :=
  sel.order_keys.all fun key =>
    if 0 < key.pos then key.pos ≤ sel.items.length
    else sel.items.any fun it => it.agg = .AGG_NONE && it.col = key.col

/-- `aggregate_rowset` reports no error. -/
def aggregate_ok (sel : SelectStmt) (cols : List ColRef) : Bool :=
  sel.items.all (item_ok cols) &&
    (sel.group_col = "" || (find_col cols sel.group_tbl sel.group_col).isSome) &&
    sel.having_agg.all (fun it =>
      (it.agg = .AGG_COUNT && it.star) || (find_col cols it.tbl it.col).isSome) &&
    if sel.group_col = "" && !sel.has_aggregate && !sel.distinct then
      sel.order_keys.all fun key =>
        if 0 < key.pos then key.pos ≤ sel.items.length else (find_col cols key.tbl key.col).isSome
    else emit_order_ok sel

/-- Large tables are aggregated in parallel, without the limit on rows and
    without looking at errors. -/
def exec_select_project (d : TxnState) (t : Table) (tname : String) (sel : SelectStmt) : Output :=
  let r := scan_rows d t tname sel.filter
  if (sel.has_aggregate || sel.group_col ≠ "") && !where_has_subquery sel.filter &&
      decide (PARSCAN_MIN_PAGES ≤ t.heap.length) then
    ⟨true, .collected r.found, r.tests⟩
  else ⟨aggregate_ok sel (table_cols t tname), .collected (r.found.take SELECT_MAX_ROWS), r.tests⟩

def exec_select_sorted (d : TxnState) (t : Table) (tname : String) (sel : SelectStmt) : Output :=
  let r := scan_rows d t tname sel.filter
  ⟨sel.order_keys.all (fun key =>
      if 0 < key.pos then key.pos ≤ t.schema.columns.length
      else (key.tbl = "" || key.tbl = tname) && (column_of t.schema key.col).isSome),
    .collected (r.found.take SELECT_MAX_ROWS), r.tests⟩

/-- A SELECT without joins, on its table. -/
def exec_select_single (d : TxnState) (t : Table) (sel : SelectStmt) : Output :=
  let tname := if sel.as_name = "" then t.schema.table else sel.as_name
  if sel.explain then ⟨true, .none, []⟩
  else if !sel.select_star then exec_select_project d t tname sel
  else if !sel.order_keys.isEmpty || decide (0 ≤ sel.limit) || decide (0 < sel.offset) then exec_select_sorted d t tname sel
  else
    let r := path_read d t tname sel.filter (access_path t tname sel.filter)
    ⟨true, .stream r.found, r.tests⟩

end MiniDb
