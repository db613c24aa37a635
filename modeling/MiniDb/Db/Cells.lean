import MiniDb.Framework.Sorting
import MiniDb.Db.Join

/-! # The cells of an output row

  An item of the select list makes one cell of the rows of a group.  Rows are
  sorted with `qsort`, of which nothing is known but that it sorts, and numbers
  are printed from doubles. -/

namespace MiniDb

open Framework

/-- The C library and the settings of the engine. -/
structure Env where
  qsort : Sorter
  /-- `(double)v` -/
  to_double : Int → ℚ
  to_double_exact : ∀ v, -2 ^ 53 ≤ v → v ≤ 2 ^ 53 → to_double v = v
  /-- `(double)sum / cnt` -/
  quotient : Int → Nat → ℚ
  /-- The threads of a parallel scan. -/
  workers : Nat

inductive OutCell where
  | num (x : ℚ)
  | text (s : List UInt8)
  | null
  deriving DecidableEq

/-- An environment to evaluate in, with arithmetic that does not round. -/
def exact_env : Env where
  qsort := insertion_sorter
  to_double v := v
  to_double_exact _ _ _ := rfl
  quotient sum cnt := sum / cnt
  workers := 4

/-- NULL is less than other values; no NULL is ever compared. -/
def value_less : Value → Value → Bool
  | .null, .null => false
  | .null, _ => true
  | .int a, .int b => a < b
  | .text a, .text b => strcmp a b < 0
  | _, _ => false

def int_val : Value → Int
  | .int v => v
  | _ => 0

def value_cell (E : Env) : Value → OutCell
  | .int v => .num (E.to_double v)
  | .text s => .text s
  | .null => .null

/-- The values of a column that are not NULL. -/
def known (ci : Nat) (rows : List Row) : List Value := (rows.map (row_at · ci)).filter (· ≠ .null)

/-- The first value that no later one beats. -/
def best_of (beats : Value → Value → Bool) (vals : List Value) : Option Value :=
  vals.foldl (fun best v =>
    match best with
    | none => some v
    | some b => if beats v b then some v else some b) none

/-- One item of the select list for the rows of a group. -/
def compute_cell (E : Env) (it : SelectItem) (ci : Nat) (rows : List Row) : OutCell :=
  let vals := known ci rows
  match it.agg with
  | .AGG_NONE => value_cell E ((rows.head?.map (row_at · ci)).getD .null)
  | .AGG_COUNT => .num (E.to_double (if it.star then rows.length else vals.length))
  | .AGG_SUM => if vals.isEmpty then .null else .num (E.to_double (vals.map int_val).sum)
  | .AGG_AVG => if vals.isEmpty then .null else .num (E.quotient (vals.map int_val).sum vals.length)
  | .AGG_MIN => ((best_of value_less vals).map (value_cell E)).getD .null
  | .AGG_MAX => ((best_of (fun a b => value_less b a) vals).map (value_cell E)).getD .null

def item_ci (cols : List ColRef) (it : SelectItem) : Nat := (find_col cols it.tbl it.col).getD 0

end MiniDb
