import MiniDb.Db.Exec

/-! # WHERE in three-valued logic

  `where_matches` knows true and false only.  The parser unfolds BETWEEN into
  two conditions and puts the values of an IN into `in_set`.  A NOT IN passes over
  a NULL among its values, and to it a NULL is not even outside the empty set.  The
  set of a subquery ends after SELECT_MAX_ROWS rows, so that an IN misses values
  and a NOT IN lets them pass.  A clause goes wrong on a row if it hangs on such a
  condition. -/

namespace MiniDb

open List Option

/-- What is asked of a column. -/
inductive CondTest where
  | compare (op : CmpOp) (v : Value)
  | like (negate : Bool) (pat : Value)
  | between (lo hi : Value)
  | is_null (negate : Bool)
  | in_list (negate : Bool) (v : Value) (vs : List Value)
  | in_select (negate : Bool) (sub : SelectStmt)

/-- `[tbl.]col <test>` -/
structure WrittenCond where
  tbl : String
  col : String
  test : CondTest

theorem Tested.bind_some {α β : Type} {x : Tested α} {f : α → Tested β} {b : β}
    (h : (x >>= f).result = some b) :
    ∃ a, x.result = some a ∧ (f a).result = some b :=
  bind_eq_some_iff.mp (Tested.bind_result x f ▸ h)

inductive Truth where
  | yes | no | unknown
  deriving DecidableEq

namespace Truth

def of (b : Bool) : Truth := if b then .yes else .no

def not : Truth → Truth
  | .yes => .no
  | .no => .yes
  | .unknown => .unknown

def and : Truth → Truth → Truth
  | .no, _ | _, .no => .no
  | .yes, .yes => .yes
  | _, _ => .unknown

def or : Truth → Truth → Truth
  | .yes, _ | _, .yes => .yes
  | .no, .no => .no
  | _, _ => .unknown

def all (ts : List Truth) : Truth := ts.foldr and .yes

def any (ts : List Truth) : Truth := ts.foldr or .no

@[simp] theorem of_eq_yes {b : Bool} : of b = .yes ↔ b = true := by cases b <;> simp [of]

variable {ts : List Truth}

end Truth

/-- A comparison with NULL is unknown. -/
def sql_compare (op : CmpOp) : Value → Value → Truth
  | .null, _ | _, .null => .unknown
  | a, b => .of (value_compare op a b)

def sql_like : Value → Value → Truth
  | .text s, .text pat => .of (like_match s pat)
  | _, _ => .unknown

/-- `x IN (v, ...)` is `x = v OR ...`. -/
def sql_in (x : Value) (negate : Bool) (vals : List Value) : Truth :=
  let member := Truth.any (vals.map (sql_compare .CMP_EQ x))
  if negate then member.not else member

/-- The operators of a parsed condition. -/
def sql_op (x : Value) : CmpOp → Value → Truth
  | .CMP_LIKE, v => sql_like x v
  | .CMP_NOT_LIKE, v => (sql_like x v).not
  | .CMP_IS_NULL, _ => .of (x = .null)
  | .CMP_IS_NOT_NULL, _ => .of (x ≠ .null)
  | op, v => sql_compare op x v

mutual

/-- The values of a subquery: those of all the rows its own clause is true of. -/
def sql_values (db : Database) : SelectStmt → List Value
  | ⟨_, table, as_name, joins, _, select_star, items, _, _, group_col, _, _, _, filter, _, _, _⟩ =>
    match subquery_item joins select_star items group_col, find_table db table with
    | some it, some t =>
      let tname := if as_name = "" then t.schema.table else as_name
      match last_column t.schema it.col with
      | none => []
      | some col => ((scan_rows db.toTxnState t tname []).found.filter fun row =>
          filter.isEmpty || sql_groups db t.schema tname row filter = .yes).map fun row =>
            row[col]?.getD .null
    | _, _ => []

def sql_sub (db : Database) : Option SelectStmt → List Value
  | none => []
  | some sub => sql_values db sub

def sql_parsed (db : Database) (schema : CreateStmt) (tname : String) (row : Row) : Condition → Truth
  | ⟨tbl, col, op, val, in_sub, in_negate, scalar_sub, sub, in_set⟩ =>
    match cell_in schema tname tbl col row with
    | none => .unknown
    | some x =>
      if in_sub then
        let vals := in_set.getD (sql_sub db sub)
        if scalar_sub then (vals.head?.map (sql_compare op x)).getD .unknown else sql_in x in_negate vals
      else sql_op x op val

def sql_group (db : Database) (schema : CreateStmt) (tname : String) (row : Row) : List Condition → Truth
  | [] => .yes
  | c :: cs => (sql_parsed db schema tname row c).and (sql_group db schema tname row cs)

def sql_groups (db : Database) (schema : CreateStmt) (tname : String) (row : Row) : List (List Condition) → Truth
  | [] => .no
  | g :: gs => (sql_group db schema tname row g).or (sql_groups db schema tname row gs)

end

section Sql

variable (schema : CreateStmt) (tname : String) (row : Row)

-- the values of the subqueries, in the code and in SQL
variable (set vals : SelectStmt → List Value)

def sql_test (x : Value) : CondTest → Truth
  | .compare op v => sql_compare op x v
  | .like negate pat => if negate then (sql_like x pat).not else sql_like x pat
  | .between lo hi => (sql_compare .CMP_GE x lo).and (sql_compare .CMP_LE x hi)
  | .is_null negate => .of ((x = .null) != negate)
  | .in_list negate v vs => sql_in x negate (v :: vs)
  | .in_select negate sub => sql_in x negate (vals sub)

def sql_cond (c : WrittenCond) : Truth :=
  match cell_in schema tname c.tbl c.col row with
  | none => .unknown
  | some x => sql_test vals x c.test

/-- It is true, and not passed. -/
def InMisses (x : Value) (negate : Bool) (set vals : List Value) : Prop :=
  if negate then
    x = .null ∧ vals = [] ∨ in_member x set = true ∧ in_member x vals = false ∧ .null ∉ vals
  else in_member x vals = true ∧ in_member x set = false

def CondTest.Wrong (wrong : Value → Bool → List Value → List Value → Prop) (x : Value) : CondTest → Prop
  | .in_list negate v vs => wrong x negate (v :: vs) (v :: vs)
  | .in_select negate sub => wrong x negate (set sub) (vals sub)
  | _ => False

/-- The condition is an IN that goes wrong in this way. -/
def WrittenCond.Wrong (wrong : Value → Bool → List Value → List Value → Prop) (c : WrittenCond) : Prop :=
  ∃ x, cell_in schema tname c.tbl c.col row = some x ∧ c.test.Wrong set vals wrong x

/-- The condition is true, and is passed. -/
def WrittenCond.Holds (c : WrittenCond) : Prop :=
  sql_cond schema tname row vals c = .yes ∧ ¬c.Wrong schema tname row set vals InMisses

/-! ### One condition -/

variable {schema tname row set vals} {op : CmpOp} (x : Value)

variable {c : WrittenCond} {conds conds' : List Condition}

end Sql

variable (db : Database) (schema : CreateStmt) (tname : String) (row : Row)

end MiniDb
