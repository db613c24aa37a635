import Mathlib.Data.List.Basic

/-! # Parts of a buffer

  `slice` reads a range of a buffer, `splice` overwrites one.  A read beside
  the range that was written sees the old content, a read of the range itself
  what was written. -/

namespace Framework

open List

variable {α : Type*}

/-- The `n` elements from `off` on. -/
def slice (xs : List α) (off n : Nat) : List α := (xs.drop off).take n

/-- Overwrite the elements from `off` on with `ys`. -/
def splice (xs : List α) (off : Nat) (ys : List α) : List α :=
  xs.take off ++ (ys ++ xs.drop (off + ys.length))

variable {xs ys : List α} {off n o m : Nat}

theorem length_slice (h : off + n ≤ xs.length) : (slice xs off n).length = n := by
  simp only [slice, length_take, length_drop]
  omega

variable (h : off + ys.length ≤ xs.length)

include h

theorem length_splice : (splice xs off ys).length = xs.length := by
  simp only [splice, length_append, length_take, length_drop]
  omega

omit h in
theorem getElem?_slice (xs : List α) (off n i : Nat) :
    (slice xs off n)[i]? = if i < n then xs[off + i]? else none := by
  simp only [slice, getElem?_take, getElem?_drop]

theorem getElem?_splice (i : Nat) :
    (splice xs off ys)[i]? =
      if i < off then xs[i]? else if i < off + ys.length then ys[i - off]? else xs[i]? := by
  have hoff : (xs.take off).length = off := by
    rw [length_take]
    omega
  rw [splice]
  by_cases h₁ : i < off
  · rw [if_pos h₁, getElem?_append_left (by omega), getElem?_take, if_pos h₁]
  · rw [if_neg h₁, getElem?_append_right (by omega), hoff]
    by_cases h₂ : i < off + ys.length
    · rw [if_pos h₂, getElem?_append_left (by omega)]
    · rw [if_neg h₂, getElem?_append_right (by omega), getElem?_drop]
      congr 1
      omega

/-- A read of what was written. -/
theorem slice_splice_self : slice (splice xs off ys) off ys.length = ys := by
  apply ext_getElem?
  intro i
  rw [getElem?_slice]
  by_cases hi : i < ys.length
  · rw [if_pos hi, getElem?_splice h, if_neg (by omega), if_pos (by omega)]
    congr 1
    omega
  · rw [if_neg hi, getElem?_eq_none (by omega)]

/-- A read beside what was written. -/
theorem slice_splice_other (ho : o + m ≤ off ∨ off + ys.length ≤ o) :
    slice (splice xs off ys) o m = slice xs o m := by
  apply ext_getElem?
  intro i
  rw [getElem?_slice, getElem?_slice]
  by_cases hi : i < m
  · rw [if_pos hi, if_pos hi, getElem?_splice h]
    rcases ho with ho | ho
    · rw [if_pos (by omega)]
    · rw [if_neg (by omega), if_neg (by omega)]
  · rw [if_neg hi, if_neg hi]

omit h in
theorem slice_slice (hm : o + m ≤ n) : slice (slice xs off n) o m = slice xs (off + o) m := by
  apply ext_getElem?
  intro i
  rw [getElem?_slice, getElem?_slice, getElem?_slice]
  by_cases hi : i < m
  · rw [if_pos hi, if_pos hi, if_pos (by omega), Nat.add_assoc]
  · rw [if_neg hi, if_neg hi]

end Framework
