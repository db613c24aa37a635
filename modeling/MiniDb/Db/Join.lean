import MiniDb.Db.Query

/-! # Joins

  The tables of a join form a chain.  `mjoin_descend` walks it level by level:
  each level finds the rows of its table that match the rows chosen before,
  by a lookup in the primary key index, by a hash table or by a scan, and goes
  down with each of them.  The chosen rows live in one slot per level, which
  keeps its last value. -/

namespace MiniDb

def HJOIN_BUCKETS : Nat := 1024

inductive JoinMethod where
  | JM_SCAN
  | JM_INDEX
  | JM_HASH
  deriving DecidableEq

/-- One table of the chain; `on_a` and `on_b` are the two sides of its ON
    clause as (table of the chain, column). -/
structure JoinLevel where
  tab : Table
  tname : String
  is_left : Bool
  on_a : Nat × Nat
  on_b : Nat × Nat

def values_equal : Value → Value → Bool
  | .int a, .int b => a = b
  | .text a, .text b => strcmp a b = 0
  | _, _ => false

/-! ### Names in the chain -/

/-- The first table of the chain with such a column. -/
def resolve_chain_ref : List (Table × String) → String → String → Option (Nat × Nat)
  | [], _, _ => none
  | (t, tname) :: ts, qtbl, col =>
    match (if qtbl ≠ "" ∧ qtbl ≠ tname then none else column_of t.schema col) with
    | some ci => some (0, ci)
    | none => (resolve_chain_ref ts qtbl col).map fun r => (r.1 + 1, r.2)

def cell_chain : List (JoinLevel × Row) → String → String → Option Value
  | [], _, _ => none
  | (l, row) :: ls, qtbl, col =>
    match cell_in l.tab.schema l.tname qtbl col row with
    | some v => some v
    | none => cell_chain ls qtbl col

def where_matches_chain (ls : List (JoinLevel × Row)) (w : Where) : Bool :=
  w.isEmpty || w.any fun g => g.all fun c => cond_eval (cell_chain ls c.tbl c.col) c

/-! ### Join methods -/

/-- The column of level `k` that its ON clause matches with an earlier level,
    and where the value to match comes from. -/
def join_key (k : Nat) (l : JoinLevel) : Option (Nat × (Nat × Nat)) :=
  if l.on_a.1 = k ∧ l.on_b.1 < k then some (l.on_a.2, l.on_b)
  else if l.on_b.1 = k ∧ l.on_a.1 < k then some (l.on_b.2, l.on_a)
  else none

/-- The index is taken for the primary key, otherwise a hash table. -/
def choose_method (k : Nat) (l : JoinLevel) : JoinMethod :=
  match join_key k l with
  | none => .JM_SCAN
  | some (kcol, _) => if kcol = 0 && l.tab.has_index then .JM_INDEX else .JM_HASH

/-- `(unsigned)` keeps 32 bits. -/
def val_hash : Value → Nat
  | .int v => (v * 2654435761 % 2 ^ 32).toNat
  | .text s => s.foldl (fun h c => (h ^^^ c.toNat) * 16777619 % 2 ^ 32) 2166136261
  -- what the text field of a NULL holds is not defined; no NULL is ever matched
  | .null => 2166136261

abbrev HashTab := Nat → List (Value × Row)

/-- New entries go to the front of their bucket. -/
def hash_insert (ht : HashTab) (key : Value) (row : Row) : HashTab :=
  let b := val_hash key % HJOIN_BUCKETS
  fun i => if i = b then (key, row) :: ht i else ht i

def hash_bucket (ht : HashTab) (key : Value) : List (Value × Row) := ht (val_hash key % HJOIN_BUCKETS)

def row_at (row : Row) (i : Nat) : Value := row[i]?.getD .null

def hash_build (d : TxnState) (t : Table) (col_idx : Nat) : HashTab × List Test :=
  let r := scan_read d t.heap fun x => some x.2.row
  (r.found.foldl (fun ht row => hash_insert ht (row_at row col_idx) row) fun _ => [], r.tests)

/-! ### The walk -/

/-- What a walk needs to know: the chain, the method and hash table of each
    level, WHERE, and whether the rows are collected. -/
structure JoinPlan where
  levels : List JoinLevel
  method : Nat → JoinMethod
  hash : Nat → HashTab
  filter : Where
  materialize : Bool
  limit : Int

/-- The slots, whether a level has found a match, the rows emitted so far and
    the tests made. -/
structure MJoin where
  rows : Nat → Row
  matched : Nat → Bool
  emitted : List (List Row)
  tests : List Test

/-- The slots start zeroed, and a zero value is the integer 0. -/
def mjoin_start : MJoin :=
  ⟨fun _ => List.replicate SQL_MAX_COLS (.int 0), fun _ => false, [], []⟩

def MJoin.put (m : MJoin) (k : Nat) (row : Row) : MJoin := { m with rows := Function.update m.rows k row }

def MJoin.mark (m : MJoin) (k : Nat) (b : Bool) : MJoin :=
  { m with matched := Function.update m.matched k b }

def MJoin.value (m : MJoin) (ref : Nat × Nat) : Value := row_at (m.rows ref.1) ref.2

/-- `true` asks every loop to stop. -/
def mjoin_emit (p : JoinPlan) (m : MJoin) : MJoin × Bool :=
  let tuple := (List.range p.levels.length).map m.rows
  if !where_matches_chain (p.levels.zip tuple) p.filter then (m, false)
  else if p.materialize then
    (if m.emitted.length < SELECT_MAX_ROWS then { m with emitted := m.emitted ++ [tuple] } else m,
      false)
  else
    let m := { m with emitted := m.emitted ++ [tuple] }
    (m, decide (0 ≤ p.limit ∧ p.limit ≤ m.emitted.length))

/-- Visit one after another until a visit asks to stop. -/
def visit_all {α : Type} (visit : α → MJoin → MJoin × Bool) : List α → MJoin → MJoin × Bool
  | [], m => (m, false)
  | a :: as, m =>
    match visit a m with
    | (m, true) => (m, true)
    | (m, false) => visit_all visit as m

/-- The first visible record among the candidates, and the tests it takes. -/
def pk_vis_find (d : TxnState) : List Version → Option Version × List Test
  | [] => (none, [])
  | rec :: recs =>
    if rec_visible d rec then (some rec, [rec_test d rec])
    else
      let r := pk_vis_find d recs
      (r.1, rec_test d rec :: r.2)

/-- The rows of level `k` one after another, each handed to `down`. -/
def join_level (d : TxnState) (p : JoinPlan) (k : Nat) (l : JoinLevel)
    (down : MJoin → MJoin × Bool) (m : MJoin) : MJoin × Bool :=
  match (if k = 0 then .JM_SCAN else p.method k), join_key k l with
  | .JM_INDEX, some (_, key) =>
    match m.value key with
    | .int v =>
      let r := pk_vis_find d (fetch_all l.tab (btree_find_all l.tab.index v))
      let m := { m with tests := m.tests ++ r.2 }
      match r.1 with
      | some rec => down ((m.put k rec.row).mark k true)
      | none => (m, false)
    | _ => (m, false)
  | .JM_HASH, some (_, key) =>
    visit_all (fun e m =>
      if values_equal e.1 (m.value key) then down ((m.put k e.2).mark k true) else (m, false))
      (hash_bucket (p.hash k) (m.value key)) m
  | _, _ =>
    visit_all (fun x m =>
      let m := { m with tests := m.tests ++ [rec_test d x.2] }
      if !rec_visible d x.2 then (m, false)
      else
        let m := m.put k x.2.row
        if k = 0 then down m
        else if values_equal (m.value l.on_a) (m.value l.on_b) then down (m.mark k true)
        else (m, false))
      (heap_scan l.tab.heap) m

/-- An outer row without a match goes on with NULLs in a LEFT JOIN. -/
def mjoin_descend (d : TxnState) (p : JoinPlan) : Nat → List JoinLevel → MJoin → MJoin × Bool
  | _, [], m => mjoin_emit p m
  | k, l :: ls, m =>
    let down := mjoin_descend d p (k + 1) ls
    match join_level d p k l down (if k = 0 then m else m.mark k false) with
    | (m, true) => (m, true)
    | (m, false) =>
      if k ≠ 0 && l.is_left && !m.matched k then
        down (m.put k (List.replicate l.tab.schema.columns.length .null))
      else (m, false)

/-! ### SELECT with joins -/

/-- The tables of the chain with the names they go by. -/
def join_chain (db : Database) (sel : SelectStmt) : Option (List (Table × String)) :=
  ((sel.table, sel.as_name) :: sel.joins.map fun j => (j.table, j.as_name)).mapM fun x =>
    (find_table db x.1).map fun t => (t, if x.2 = "" then t.schema.table else x.2)

/-- The levels after the first; both sides of every ON clause are looked up in
    the whole chain. -/
def resolve_joins (chain : List (Table × String)) :
    List (Table × String) → List JoinClause → Option (List JoinLevel)
  | (t, tname) :: ts, j :: js =>
    match resolve_chain_ref chain j.l_tbl j.l_col, resolve_chain_ref chain j.r_tbl j.r_col,
      resolve_joins chain ts js with
    | some a, some b, some ls => some (⟨t, tname, j.is_left, a, b⟩ :: ls)
    | _, _, _ => none
  | _, _ => some []

def join_levels (chain : List (Table × String)) (joins : List JoinClause) : Option (List JoinLevel) :=
  match chain with
  | [] => some []
  | (t, tname) :: ts =>
    (resolve_joins chain ts joins).map fun ls => ⟨t, tname, false, (0, 0), (0, 0)⟩ :: ls

/-- The method of each level of a chain. -/
def join_methods (levels : List JoinLevel) (k : Nat) : JoinMethod :=
  match levels[k]? with
  | none => .JM_SCAN
  | some l => if k = 0 then .JM_SCAN else choose_method k l

/-- The hash table of level `k`, if its method asks for one. -/
def join_hash (d : TxnState) (levels : List JoinLevel) (method : Nat → JoinMethod) (k : Nat) :
    HashTab × List Test :=
  match method k, levels[k]? with
  | .JM_HASH, some l =>
    match join_key k l with
    | some (kcol, _) => hash_build d l.tab kcol
    | none => (fun _ => [], [])
  | _, _ => (fun _ => [], [])

def join_plan (d : TxnState) (sel : SelectStmt) (levels : List JoinLevel)
    (method : Nat → JoinMethod) : JoinPlan where
  levels := levels
  method := method
  hash k := (join_hash d levels method k).1
  __ := sel
  materialize := !(sel.select_star && sel.order_keys.isEmpty && sel.offset = 0)

def mjoin (d : TxnState) (p : JoinPlan) : MJoin := (mjoin_descend d p 0 p.levels mjoin_start).1

/-- The columns of a joined row. -/
def chain_cols (levels : List JoinLevel) : List ColRef := levels.flatMap fun l => table_cols l.tab l.tname

def join_order_ok (levels : List JoinLevel) (sel : SelectStmt) : Bool :=
  sel.order_keys.all fun key =>
    if 0 < key.pos then key.pos ≤ (chain_cols levels).length
    else (resolve_chain_ref (levels.map fun l => (l.tab, l.tname)) key.tbl key.col).isSome

/-- The joined rows of a chain, by the methods given. -/
def join_rows (d : TxnState) (sel : SelectStmt) (levels : List JoinLevel)
    (method : Nat → JoinMethod) : Output :=
  let p := join_plan d sel levels method
  let built := (List.range levels.length).flatMap fun k => (join_hash d levels method k).2
  if sel.select_star && p.materialize && !join_order_ok levels sel then .error built
  else
    let m := mjoin d p
    let rows := m.emitted.map List.flatten
    let tests := built ++ m.tests
    if !sel.select_star then ⟨aggregate_ok sel (chain_cols levels), .collected rows, tests⟩
    else if p.materialize then ⟨true, .collected rows, tests⟩
    else ⟨true, .stream rows, tests⟩

def exec_select_join (db : Database) (sel : SelectStmt) : Output :=
  match join_chain db sel with
  | none => .error []
  | some chain =>
    match join_levels chain sel.joins with
    | none => .error []
    | some levels =>
      if sel.explain then ⟨true, .none, []⟩
      else join_rows db.toTxnState sel levels (join_methods levels)

def exec_select (db : Database) (sel : SelectStmt) : Output :=
  if !sel.joins.isEmpty then exec_select_join db sel
  else
    match find_table db sel.table with
    | none => .error []
    | some t => exec_select_single db.toTxnState t sel

end MiniDb
