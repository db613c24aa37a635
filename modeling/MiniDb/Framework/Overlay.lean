import Mathlib.Data.List.Basic
import Mathlib.Data.List.GetD

/-! # Writes over a growing array

  A file of fixed-size blocks is a list; `write_at` overwrites one block and
  fills the gap with a default block when the index lies past the end.
  `last_write us p` is the newest of the updates `us` to index `p`, and
  `getElem?_write_all` says that replaying `us` over a file leaves, at every
  index inside it, the newest update or else the old block.  Redo and undo
  passes are both instances. -/

namespace Framework

open List

variable {α : Type*}

/-- Overwrite block `p`; a gap before `p` is filled with `z`. -/
def write_at (z : α) (f : List α) (p : Nat) (x : α) : List α :=
  if p < f.length then f.set p x else f ++ List.replicate (p - f.length) z ++ [x]

/-- Replay a list of updates, first one first. -/
def write_all (z : α) : List α → List (Nat × α) → List α
  | f, [] => f
  | f, (p, x) :: us => write_all z (write_at z f p x) us

/-- The newest update to index `p`. -/
def last_write : List (Nat × α) → Nat → Option α
  | [], _ => none
  | (q, x) :: us, p => (last_write us p).or (if q = p then some x else none)

@[simp] theorem last_write_nil (p : Nat) : last_write ([] : List (Nat × α)) p = none := rfl

theorem last_write_cons (q : Nat) (x : α) (us : List (Nat × α)) (p : Nat) :
    last_write ((q, x) :: us) p =
      (last_write us p).or (if q = p then some x else none) := rfl

theorem last_write_append (us vs : List (Nat × α)) (p : Nat) :
    last_write (us ++ vs) p = (last_write vs p).or (last_write us p) := by
  induction us with
  | nil => simp
  | cons u us ih =>
    obtain ⟨q, x⟩ := u
    simp only [cons_append, last_write_cons, ih, Option.or_assoc]

variable {us : List (Nat × α)} {p : Nat} {x z : α} {f : List α} {q : Nat}

/-- An update of `p` is found among the updates. -/
theorem mem_of_last_write (h : last_write us p = some x) : (p, x) ∈ us := by
  induction us with
  | nil => simp at h
  | cons u us ih =>
    obtain ⟨q, y⟩ := u
    rw [last_write_cons, Option.or_eq_some_iff] at h
    rcases h with h | ⟨_, h⟩
    · exact mem_cons_of_mem _ (ih h)
    · split at h
      · next hqp => cases h; subst hqp; exact mem_cons_self
      · cases h

theorem last_write_eq_none : last_write us p = none ↔ p ∉ us.map Prod.fst := by
  induction us with
  | nil => simp
  | cons u us ih =>
    obtain ⟨q, y⟩ := u
    rw [last_write_cons, Option.or_eq_none_iff, ih]
    by_cases hqp : q = p
    · simp [hqp]
    · simp [hqp, Ne.symm hqp]

/-- With one update per index, every update is the newest one. -/
theorem last_write_of_mem (hnd : (us.map Prod.fst).Nodup) (h : (p, x) ∈ us) :
    last_write us p = some x := by
  induction us with
  | nil => simp at h
  | cons u us ih =>
    obtain ⟨q, y⟩ := u
    simp only [map_cons, nodup_cons] at hnd
    rcases mem_cons.mp h with heq | hmem
    · cases heq
      have hnone : last_write us p = none := last_write_eq_none.mpr hnd.1
      simp [last_write_cons, hnone]
    · simp [last_write_cons, ih hnd.2 hmem]

/-! ### Replaying updates -/

theorem length_write_at (z : α) (f : List α) (p : Nat) (x : α) :
    (write_at z f p x).length = max f.length (p + 1) := by
  unfold write_at
  split
  · simp; omega
  · simp; omega

theorem getElem?_write_at (hp : p < f.length) :
    (write_at z f q x)[p]? = if q = p then some x else f[p]? := by
  unfold write_at
  split
  · next hq =>
    by_cases hqp : q = p
    · subst hqp; simp [hq]
    · simp [hqp]
  · next hq =>
    have hqp : q ≠ p := by omega
    rw [append_assoc, getElem?_append_left hp, if_neg hqp]

/-- A write inside the file changes its own block only. -/
theorem getElem?_write_at_self : (write_at z f q x)[q]? = some x := by
  unfold write_at
  split
  · next hq => simp [hq]
  · next hq =>
    rw [getElem?_append_right (by simp; omega)]
    simp [Nat.add_sub_cancel' (Nat.le_of_not_lt hq)]

theorem getElem?_write_at_inside (hq : q ≤ f.length) (p : Nat) :
    (write_at z f q x)[p]? = if q = p then some x else f[p]? := by
  unfold write_at
  rcases Nat.lt_or_eq_of_le hq with hlt | rfl
  · rw [if_pos hlt, getElem?_set]
    by_cases hqp : q = p
    · simp [hqp, hqp ▸ hlt]
    · simp [hqp]
  · rw [if_neg (Nat.lt_irrefl _), Nat.sub_self, replicate_zero, append_nil, getElem?_append]
    split
    · next hp => rw [if_neg (Nat.ne_of_gt hp)]
    · next hp => grind

theorem length_write_all_le (z : α) (f : List α) (us : List (Nat × α)) :
    f.length ≤ (write_all z f us).length := by
  induction us generalizing f with
  | nil => exact Nat.le_refl _
  | cons u us ih =>
    obtain ⟨q, y⟩ := u
    have h := ih (write_at z f q y)
    rw [length_write_at] at h
    simp only [write_all]
    omega

/-- Updates inside the file keep its length. -/
theorem length_write_all_of_lt (z : α) (h : ∀ u ∈ us, u.1 < f.length) :
    (write_all z f us).length = f.length := by
  induction us generalizing f with
  | nil => rfl
  | cons u us ih =>
    obtain ⟨q, y⟩ := u
    have hq : q < f.length := h (q, y) mem_cons_self
    have hlen : (write_at z f q y).length = f.length := by
      rw [length_write_at]; omega
    simp only [write_all]
    rw [ih (fun u hu => by rw [hlen]; exact h u (mem_cons_of_mem _ hu)), hlen]

/-- Inside the file, replaying `us` leaves the newest update or the old block. -/
theorem getElem?_write_all (hp : p < f.length) :
    (write_all z f us)[p]? = (last_write us p).or f[p]? := by
  induction us generalizing f with
  | nil => simp [write_all]
  | cons u us ih =>
    obtain ⟨q, y⟩ := u
    have hp' : p < (write_at z f q y).length := by rw [length_write_at]; omega
    simp only [write_all]
    rw [ih hp', getElem?_write_at hp, last_write_cons]
    by_cases hqp : q = p
    · simp [hqp]
    · simp [hqp]

/-- Read with the filler as default, a write changes its own block only. -/
theorem getD_write_at (z : α) (f : List α) (q : Nat) (x : α) (p : Nat) :
    (write_at z f q x).getD p z = if q = p then x else f.getD p z := by
  by_cases hqp : q = p
  · subst hqp
    rw [if_pos rfl, getD_eq_getElem?_getD, getElem?_write_at_self]
    rfl
  rw [if_neg hqp]
  rcases Nat.lt_or_ge p f.length with hp | hp
  · rw [getD_eq_getElem?_getD, getElem?_write_at hp, if_neg hqp, getD_eq_getElem?_getD]
  · -- past the old end there is only filler
    rw [getD_eq_default _ _ hp, write_at]
    split
    · exact getD_eq_default _ _ (by simpa using hp)
    · rw [append_assoc, getD_append_right _ _ _ _ hp]
      rcases Nat.lt_or_ge (p - f.length) (q - f.length) with hlt | hge
      · rw [getD_append _ _ _ _ (by simpa using hlt)]
        simp
      · exact getD_eq_default _ _ (by simp; omega)

theorem getD_write_all (z : α) (f : List α) (us : List (Nat × α)) (p : Nat) :
    (write_all z f us).getD p z = (last_write us p).getD (f.getD p z) := by
  induction us generalizing f with
  | nil => rfl
  | cons u us ih =>
    obtain ⟨q, y⟩ := u
    rw [write_all, ih, getD_write_at, last_write_cons]
    cases last_write us p with
    | some x => rfl
    | none => split <;> rfl

/-- Cut a file to `n` blocks, or fill it up to `n` with `z`. -/
def resize (z : α) (f : List α) (n : Nat) : List α :=
  f.take n ++ List.replicate (n - f.length) z

@[simp] theorem length_resize (z : α) (f : List α) (n : Nat) : (resize z f n).length = n := by
  simp [resize]; omega

theorem getElem?_resize {n : Nat} (hn : p < n) (hp : p < f.length) :
    (resize z f n)[p]? = f[p]? := by
  rw [resize, getElem?_append_left (by simp; omega)]
  simp [hn]

theorem resize_of_le {n : Nat} (h : n ≤ f.length) : resize z f n = f.take n := by
  simp [resize, Nat.sub_eq_zero_of_le h]

theorem write_all_append (z : α) (f : List α) (us vs : List (Nat × α)) :
    write_all z f (us ++ vs) = write_all z (write_all z f us) vs := by
  induction us generalizing f with
  | nil => rfl
  | cons u us ih =>
    obtain ⟨q, y⟩ := u
    exact ih _

end Framework
