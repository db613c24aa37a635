import Mathlib.Tactic.Ring

/-! # Little-endian integers in byte strings

  `le_bytes w n` is the `w`-byte little-endian form of `n`, `le_nat` reads it
  back.  `read_exact` is the all-or-nothing read of `n` bytes from the front of
  a byte string. -/

namespace Framework

/-- The `w` low bytes of `n`, lowest first. -/
def le_bytes : Nat → Nat → List UInt8
  | 0, _ => []
  | w + 1, n => UInt8.ofNat (n % 256) :: le_bytes w (n / 256)

/-- The number a little-endian byte string denotes. -/
def le_nat : List UInt8 → Nat
  | [] => 0
  | b :: bs => b.toNat + 256 * le_nat bs

@[simp] theorem le_bytes_length (w n : Nat) : (le_bytes w n).length = w := by
  induction w generalizing n with
  | zero => rfl
  | succ w ih => simp [le_bytes, ih]

/-- A number that fits `w` bytes survives the round trip. -/
theorem le_nat_le_bytes {w n : Nat} (h : n < 256 ^ w) : le_nat (le_bytes w n) = n := by
  induction w generalizing n with
  | zero =>
    have : n = 0 := by simpa using h
    simp [le_bytes, le_nat, this]
  | succ w ih =>
    have hdiv : n / 256 < 256 ^ w := by
      rw [Nat.pow_succ] at h
      exact Nat.div_lt_of_lt_mul (by omega)
    have hmod : (UInt8.ofNat (n % 256)).toNat = n % 256 := by
      simp [UInt8.toNat_ofNat']
    simp only [le_bytes, le_nat, ih hdiv, hmod]
    omega

/-- Read exactly `n` bytes, or nothing when fewer are left. -/
def read_exact (n : Nat) (bs : List UInt8) : Option (List UInt8 × List UInt8) :=
  if n ≤ bs.length then some (bs.take n, bs.drop n) else none

/-- A field written with its full width is read back, whatever follows it. -/
theorem read_exact_append {n : Nat} {xs : List UInt8} (h : xs.length = n)
    (ys : List UInt8) : read_exact n (xs ++ ys) = some (xs, ys) := by
  subst h
  simp [read_exact]

theorem read_exact_short {n : Nat} {bs : List UInt8} (h : bs.length < n) :
    read_exact n bs = none := by
  simp [read_exact, Nat.not_le.mpr h]

end Framework
