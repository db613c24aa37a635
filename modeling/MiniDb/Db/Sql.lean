import Mathlib.Data.List.Basic

/-! # Statements and WHERE

  The parsed statements, and the evaluation of a WHERE clause on one row.
  A clause is a disjunction of conjunctions.  An `IN` or scalar subquery is
  run once, before the outer scan, and leaves its values in `in_set`.

  A value is a 64-bit integer literal, a byte string, or NULL. -/

namespace MiniDb

def SQL_MAX_COLS : Nat := 32
def SQL_TEXT_LEN : Nat := 256

inductive ColType where
  | COL_INT
  | COL_TEXT
  deriving DecidableEq

inductive CmpOp where
  | CMP_EQ | CMP_NE | CMP_LT | CMP_GT | CMP_LE | CMP_GE
  | CMP_IS_NULL | CMP_IS_NOT_NULL
  | CMP_LIKE | CMP_NOT_LIKE
  deriving DecidableEq

inductive Value where
  | int (v : Int)
  | text (s : List UInt8)
  | null
  deriving DecidableEq

abbrev Row := List Value

structure ColumnDef where
  name : String
  type : ColType
  not_null : Bool
  deriving DecidableEq

/-- A table's schema; `index_kind` is 1 for `USING lsm`. -/
structure CreateStmt where
  table : String
  columns : List ColumnDef
  index_kind : Nat
  deriving DecidableEq

/-- `[LEFT] JOIN <table> [<alias>] ON <l> = <r>`; `as_name` is the alias. -/
structure JoinClause where
  is_left : Bool
  table : String
  as_name : String
  l_tbl : String
  l_col : String
  r_tbl : String
  r_col : String

inductive AggFunc where
  | AGG_NONE | AGG_COUNT | AGG_SUM | AGG_MIN | AGG_MAX | AGG_AVG
  deriving DecidableEq

structure SelectItem where
  agg : AggFunc
  star : Bool
  tbl : String
  col : String

/-- `pos` is the 1-based position of `ORDER BY <pos>`, 0 for a column. -/
structure OrderKey where
  tbl : String
  col : String
  pos : Nat
  desc : Bool

mutual

/-- `as_name` is the alias (`""` for none), `filter` the WHERE clause; `limit` is -1 when
    there is no LIMIT. -/
structure SelectStmt where
  explain : Bool
  table : String
  as_name : String
  joins : List JoinClause
  distinct : Bool
  select_star : Bool
  items : List SelectItem
  has_aggregate : Bool
  group_tbl : String
  group_col : String
  /-- The aggregate of the HAVING clause. -/
  having_agg : Option SelectItem
  having_op : CmpOp
  having_val : Value
  filter : List (List Condition)
  order_keys : List OrderKey
  limit : Int
  offset : Int

/-- `in_set` is filled by the parser for a value list, by `prepare_where` for
    a subquery. -/
structure Condition where
  tbl : String
  col : String
  op : CmpOp
  val : Value
  in_sub : Bool
  in_negate : Bool
  scalar_sub : Bool
  sub : Option SelectStmt
  in_set : Option (List Value)

end

/-- AND groups joined by OR; the empty clause holds of every row. -/
abbrev Where := List (List Condition)

inductive Statement where
  | create (c : CreateStmt)
  | create_index (name table column : String)
  | insert (table : String) (values : List Value)
  | select (sel : SelectStmt)
  | delete (table : String) (w : Where)
  | update (table set_col : String) (set_val : Value) (w : Where)
  | begin
  | commit
  | rollback
  /-- `""` stands for every table. -/
  | vacuum (table : String)
  | session (n : Int)
  | analyze (table : String)

/-! ### Comparisons -/

def cmp_apply (op : CmpOp) (sign : Int) : Bool :=
  match op with
  | .CMP_EQ => sign = 0
  | .CMP_NE => sign ≠ 0
  | .CMP_LT => sign < 0
  | .CMP_GT => 0 < sign
  | .CMP_LE => sign ≤ 0
  | .CMP_GE => 0 ≤ sign
  | _ => false

def strcmp : List UInt8 → List UInt8 → Int
  | [], [] => 0
  | [], _ :: _ => -1
  | _ :: _, [] => 1
  | a :: as, b :: bs => if a = b then strcmp as bs else if a < b then -1 else 1

def int_sign (a b : Int) : Int := if a < b then -1 else if b < a then 1 else 0

/-- The bytes `%` and `_`. -/
def like_any : UInt8 := 37
def like_one : UInt8 := 95

/-- `star` is the pattern after the last `%` and the input where it was met. -/
def like_loop : Nat → List UInt8 → List UInt8 → Option (List UInt8 × List UInt8) → Bool
  | 0, _, _, _ => false
  | _ + 1, [], pat, _ => (pat.dropWhile (· == like_any)).isEmpty
  | fuel + 1, c :: s, pat, star =>
    if pat.head? = some like_any then
      like_loop fuel (c :: s) pat.tail (some (pat.tail, c :: s))
    else if pat.head? = some like_one ∨ pat.head? = some c then
      like_loop fuel s pat.tail star
    else
      match star with
      -- the last `%` takes one more byte
      | some (after, ss) => like_loop fuel ss.tail after (some (after, ss.tail))
      | none => false

def like_match (s pat : List UInt8) : Bool :=
  like_loop ((s.length + 1) * (pat.length + 1) + 1) s pat none

/-- `cell <op> val` for two values of one type; false for NULL and for a type mismatch. -/
def value_compare (op : CmpOp) : Value → Value → Bool
  | .int a, .int b => cmp_apply op (int_sign a b)
  | .text a, .text b => cmp_apply op (strcmp a b)
  | _, _ => false

/-- Membership in the value set of an `IN`. -/
def in_member (cell : Value) (in_set : List Value) : Bool :=
  in_set.any fun v =>
    match cell, v with
    | .int a, .int b => a = b
    | .text a, .text b => strcmp a b = 0
    | _, _ => false

def cond_eval (cell : Option Value) (cond : Condition) : Bool :=
  if cond.in_sub then
    match cell with
    | none | some .null => false
    | some v =>
      if cond.scalar_sub then
        match (cond.in_set.getD []).head? with
        | none => false
        | some w => value_compare cond.op v w
      else
        let member := in_member v (cond.in_set.getD [])
        if cond.in_negate then !member else member
  else
    match cond.op, cell with
    | .CMP_IS_NULL, some v => v = .null
    | .CMP_IS_NOT_NULL, some v => v ≠ .null
    | _, none => false
    | .CMP_LIKE, some v =>
      match v, cond.val with
      | .text s, .text pat => like_match s pat
      | _, _ => false
    | .CMP_NOT_LIKE, some v =>
      match v, cond.val with
      | .text s, .text pat => !like_match s pat
      | _, _ => false
    | op, some v => value_compare op v cond.val

/-! ### WHERE on a row of one table -/

/-- The first column of that name. -/
def column_of (schema : CreateStmt) (name : String) : Option Nat :=
  schema.columns.findIdx? (·.name == name)

/-- `tname` is the name the table goes by in the query. -/
def cell_in (schema : CreateStmt) (tname qtbl col : String) (row : Row) : Option Value :=
  if qtbl ≠ "" ∧ qtbl ≠ tname then none
  else (column_of schema col).bind (row[·]?)

def cond_matches (schema : CreateStmt) (tname : String) (cond : Condition) (row : Row) : Bool :=
  cond_eval (cell_in schema tname cond.tbl cond.col row) cond

def where_matches (schema : CreateStmt) (tname : String) (w : Where) (row : Row) : Bool :=
  w.isEmpty || w.any fun g => g.all (cond_matches schema tname · row)

/-- Some condition was written with a subquery. -/
def where_has_subquery (w : Where) : Bool := w.any fun g => g.any (·.sub.isSome)

end MiniDb
