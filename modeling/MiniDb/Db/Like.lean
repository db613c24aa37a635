import MiniDb.Db.Sql

/-! # LIKE

  `like_match` walks over the text and the pattern and remembers only the last
  `%`.  That is enough: what an earlier `%` could still take, the last one can
  take as well. -/

namespace MiniDb

open List Option

/-- The text is in the language of the pattern. -/
def Like : List UInt8 → List UInt8 → Prop
  | [], s => s = []
  | b :: pat, s =>
    if b = like_any then ∃ v, v <:+ s ∧ Like pat v
    else ∃ c v, s = c :: v ∧ (b = like_one ∨ b = c) ∧ Like pat v

/-- One iteration of the main loop; `none` returns 0. -/
def like_step (c : UInt8) (s pat : List UInt8) (star : Option (List UInt8 × List UInt8)) :
    Option (List UInt8 × List UInt8 × Option (List UInt8 × List UInt8)) :=
  if pat.head? = some like_any then some (c :: s, pat.tail, some (pat.tail, c :: s))
  else if pat.head? = some like_one ∨ pat.head? = some c then some (s, pat.tail, star)
  else star.map fun x => (x.2.tail, x.1, some (x.1, x.2.tail))

/-- The number of iterations; `none` if there are more than `fuel`. -/
def like_iterations : Nat → List UInt8 → List UInt8 → Option (List UInt8 × List UInt8) → Option Nat
  | _, [], _, _ => some 0
  | 0, _ :: _, _, _ => none
  | fuel + 1, c :: s, pat, star =>
    match like_step c s pat star with
    | some (s, pat, star) => (like_iterations fuel s pat star).map (· + 1)
    | none => some 1

theorem like_loop_cons (fuel : Nat) (c : UInt8) (s pat : List UInt8)
    (star : Option (List UInt8 × List UInt8)) :
    like_loop (fuel + 1) (c :: s) pat star =
      match like_step c s pat star with
      | some (s, pat, star) => like_loop fuel s pat star
      | none => false := by
  conv_lhs => unfold like_loop
  unfold like_step
  split
  · rfl
  · split
    · rfl
    · cases star <;> rfl

section Language

variable {pat s v : List UInt8}

theorem like_any_iff : Like (like_any :: pat) s ↔ ∃ v, v <:+ s ∧ Like pat v := by
  rw [Like, if_pos rfl]

theorem like_nil_iff : Like pat [] ↔ (pat.dropWhile (· == like_any)).isEmpty = true := by
  induction pat with
  | nil => simp [Like]
  | cons b pat ih =>
    by_cases hb : b = like_any
    · rw [hb, like_any_iff, dropWhile_cons_of_pos (by simp), ← ih]
      simp
    · rw [Like, if_neg hb, dropWhile_cons_of_neg (by simpa using hb)]
      simp

/-- `%` takes whatever stands before what it matches. -/
theorem Like.any_of_suffix (h : Like (like_any :: pat) v) (hv : v <:+ s) : Like (like_any :: pat) s := by
  obtain ⟨u, hu, hlike⟩ := like_any_iff.mp h
  exact like_any_iff.mpr ⟨u, hu.trans hv, hlike⟩

/-- `%` takes nothing, or one byte and then what it likes. -/
theorem like_any_cons {c : UInt8} :
    Like (like_any :: pat) (c :: s) ↔ Like pat (c :: s) ∨ Like (like_any :: pat) s := by
  simp only [like_any_iff, suffix_cons_iff]
  constructor
  · rintro ⟨v, rfl | hv, h⟩
    · exact .inl h
    · exact .inr ⟨v, hv, h⟩
  · rintro (h | ⟨v, hv, h⟩)
    · exact ⟨_, .inl rfl, h⟩
    · exact ⟨v, .inr hv, h⟩

/-- Without `%` every byte of a pattern takes one byte. -/
theorem Like.split {seg : List UInt8} (hseg : like_any ∉ seg) (h : Like (seg ++ pat) s) :
    ∃ x y, s = x ++ y ∧ x.length = seg.length ∧ Like pat y := by
  induction seg generalizing s with
  | nil => exact ⟨[], s, rfl, rfl, h⟩
  | cons b seg ih =>
    obtain ⟨hb, hseg⟩ := not_or.mp fun h => hseg (mem_cons.mpr h)
    rw [cons_append, Like, if_neg fun h => hb h.symm] at h
    obtain ⟨c, v, rfl, -, h⟩ := h
    obtain ⟨x, y, rfl, hlen, hy⟩ := ih hseg h
    exact ⟨c :: x, y, rfl, by simp [hlen], hy⟩

end Language

/-! ### The loop -/

/-- The last `%` takes at least one byte more. -/
def LikeLater : Option (List UInt8 × List UInt8) → Prop
  | none => False
  | some (after, ss) => Like (like_any :: after) ss.tail

/-- Since the last `%` the pattern and the text have gone on in step. -/
def InStep (s pat : List UInt8) : Option (List UInt8 × List UInt8) → Prop
  | none => True
  | some (after, ss) => ∃ seg x, after = seg ++ pat ∧ like_any ∉ seg ∧ ss = x ++ s ∧ x.length = seg.length

/-- A bound on the iterations that are left, for patterns of at most `P` bytes:
    each takes a byte of the pattern, or a byte of the text for the last `%`. -/
def iterations_left (P : Nat) (s pat : List UInt8) (star : Option (List UInt8 × List UInt8)) : Nat :=
  (star.elim s.length fun x => x.2.length) * (P + 1) + pat.length

section Loop

variable {s s' pat pat' : List UInt8} {star star' : Option (List UInt8 × List UInt8)} {c : UInt8} {P : Nat}

/-- If the last `%` took one byte more, too little text would be left for the
    pattern before the next `%`; so that one can take the rest as well. -/
theorem InStep.later (h : InStep s pat star) (hlater : LikeLater star)
    (hpat : pat.head? = some like_any ∨ s = []) : Like pat s := by
  match star with
  | some (after, ss) =>
    obtain ⟨seg, x, rfl, hseg, rfl, hlen⟩ := h
    obtain ⟨v, hv, hlike⟩ := like_any_iff.mp hlater
    obtain ⟨x', y, rfl, hlen', hy⟩ := hlike.split hseg
    have hsuf : y <:+ x ++ s := ((suffix_append x' y).trans hv).trans (tail_suffix _)
    have hle : x'.length + y.length ≤ x.length + s.length - 1 := by simpa using hv.length_le
    have hys : y <:+ s := suffix_of_suffix_length_le hsuf (suffix_append x s) (by omega)
    rcases hpat with hany | rfl
    · obtain ⟨pat, rfl⟩ := List.head?_eq_some_iff.mp hany
      exact hy.any_of_suffix hys
    · rwa [suffix_nil.mp hys] at hy

theorem InStep.text_le (h : InStep s pat star) : s.length ≤ star.elim s.length fun x => x.2.length := by
  match star with
  | none => exact Nat.le_refl _
  | some (after, ss) =>
    obtain ⟨seg, x, -, -, rfl, -⟩ := h
    simp

/-- Without a `%` at its head, a pattern fails or goes one byte further. -/
theorem like_cons_iff (hany : pat.head? ≠ some like_any) :
    Like pat (c :: s) ↔ (pat.head? = some like_one ∨ pat.head? = some c) ∧ Like pat.tail s := by
  cases pat with
  | nil => simp [Like]
  | cons b pat =>
    rw [Like, if_neg fun hb => hany (congrArg some hb)]
    simp

theorem like_step_none (hs : like_step c s pat star = none) :
    pat.head? ≠ some like_any ∧ ¬(pat.head? = some like_one ∨ pat.head? = some c) ∧ star = none := by
  unfold like_step at hs
  split at hs
  · cases hs
  · next hany =>
    split at hs
    · cases hs
    · next hone => exact ⟨hany, hone, map_eq_none_iff.mp hs⟩

/-- One iteration keeps the question the same and comes nearer to the end. -/
theorem like_step_spec (h : InStep (c :: s) pat star) (hpat : pat.length ≤ P)
    (hafter : ∀ x ∈ star, x.1.length ≤ P) (hs : like_step c s pat star = some (s', pat', star')) :
    (InStep s' pat' star' ∧ pat'.length ≤ P ∧ ∀ x ∈ star', x.1.length ≤ P) ∧
      iterations_left P s' pat' star' < iterations_left P (c :: s) pat star ∧
      (Like pat' s' ∨ LikeLater star' ↔ Like pat (c :: s) ∨ LikeLater star) := by
  unfold like_step at hs
  by_cases hany : pat.head? = some like_any
  · -- a new last `%`, which takes nothing so far
    rw [if_pos hany] at hs
    cases hs
    have hle := Nat.mul_le_mul_right (P + 1) h.text_le
    have hlater : LikeLater star → Like pat (c :: s) := fun hl => h.later hl (.inl hany)
    obtain ⟨pat, rfl⟩ := List.head?_eq_some_iff.mp hany
    rw [length_cons] at hpat
    refine ⟨⟨⟨[], [], rfl, nofun, rfl, rfl⟩, Nat.le_of_succ_le hpat, fun x hx => ?_⟩, ?_, ?_⟩
    · rw [← some.inj hx]
      exact Nat.le_of_succ_le hpat
    · simp only [iterations_left, elim_some, tail_cons, length_cons] at hle ⊢
      omega
    · exact like_any_cons.symm.trans ⟨.inl, fun hor => hor.elim id hlater⟩
  rw [if_neg hany] at hs
  by_cases hone : pat.head? = some like_one ∨ pat.head? = some c
  · -- a byte of the pattern takes a byte of the text
    rw [if_pos hone] at hs
    cases hs
    obtain ⟨b, pat, rfl⟩ : ∃ b pat₁, pat = b :: pat₁ := by
      cases pat with
      | nil => simp at hone
      | cons b pat => exact ⟨b, pat, rfl⟩
    rw [length_cons] at hpat
    refine ⟨⟨?_, Nat.le_of_succ_le hpat, hafter⟩, ?_, ?_⟩
    · match star with
      | none => trivial
      | some (after, ss) =>
        obtain ⟨seg, x, rfl, hseg, rfl, hlen⟩ := h
        refine ⟨seg ++ [b], x ++ [c], by simp, ?_, by simp, by simp [hlen]⟩
        simp only [mem_append, mem_singleton, not_or]
        exact ⟨hseg, fun hb => hany (congrArg some hb.symm)⟩
    · cases star <;> simp only [iterations_left, elim_some, elim_none, tail_cons,
        length_cons, Nat.add_mul, Nat.one_mul] <;> omega
    · rw [like_cons_iff hany, and_iff_right hone]
  · -- the last `%` takes one byte more
    rw [if_neg hone] at hs
    obtain ⟨⟨after, ss⟩, rfl, hs⟩ := map_eq_some_iff.mp hs
    cases hs
    have hlike : ¬Like pat (c :: s) := fun hl => hone ((like_cons_iff hany).mp hl).1
    obtain ⟨seg, x, rfl, hseg, hss, hlen⟩ := h
    obtain ⟨d, ss, rfl⟩ : ∃ d ss₁, ss = d :: ss₁ := by
      cases ss with
      | nil => simp at hss
      | cons d ss => exact ⟨d, ss, rfl⟩
    have hP := hafter _ rfl
    refine ⟨⟨⟨[], [], rfl, nofun, rfl, rfl⟩, hP, fun y hy => ?_⟩, ?_, ?_⟩
    · rw [← some.inj hy]
      exact hP
    · simp only [iterations_left, elim_some, tail_cons, length_cons,
        Nat.add_mul ss.length 1, Nat.one_mul] at hP ⊢
      omega
    · rw [or_iff_right hlike]
      show Like (seg ++ pat) ss ∨ Like (like_any :: (seg ++ pat)) ss.tail ↔ Like (like_any :: (seg ++ pat)) ss
      cases ss with
      | nil => simp [like_any_iff]
      | cons d ss => exact like_any_cons.symm

/-- The loop ends in time and decides the language. -/
theorem like_loop_spec (fuel : Nat) (h : InStep s pat star) (hpat : pat.length ≤ P)
    (hafter : ∀ x ∈ star, x.1.length ≤ P) (hfuel : iterations_left P s pat star ≤ fuel) :
    (∃ n ≤ fuel, like_iterations fuel s pat star = some n) ∧
      (like_loop (fuel + 1) s pat star = true ↔ Like pat s ∨ LikeLater star) := by
  induction fuel generalizing s pat star with
  | zero =>
    cases s with
    | nil =>
      refine ⟨⟨0, Nat.le_refl _, rfl⟩, ?_⟩
      rw [like_loop, ← like_nil_iff]
      exact ⟨.inl, fun hor => hor.elim id fun hlater => h.later hlater (.inr rfl)⟩
    | cons c s =>
      have hpos : 0 < star.elim (c :: s).length fun x => x.2.length :=
        Nat.lt_of_lt_of_le (Nat.succ_pos _) h.text_le
      have hmul := Nat.mul_pos hpos (show 0 < P + 1 from Nat.succ_pos P)
      unfold iterations_left at hfuel
      omega
  | succ fuel ih =>
    cases s with
    | nil =>
      refine ⟨⟨0, Nat.zero_le _, rfl⟩, ?_⟩
      rw [like_loop, ← like_nil_iff]
      exact ⟨.inl, fun hor => hor.elim id fun hlater => h.later hlater (.inr rfl)⟩
    | cons c s =>
      rw [like_iterations, like_loop_cons]
      cases hs : like_step c s pat star with
      | none =>
        refine ⟨⟨1, Nat.succ_le_succ (Nat.zero_le _), rfl⟩, iff_of_false Bool.false_ne_true ?_⟩
        obtain ⟨hany, hone, rfl⟩ := like_step_none hs
        exact not_or.mpr ⟨fun hl => hone ((like_cons_iff hany).mp hl).1, id⟩
      | some x =>
        obtain ⟨s', pat', star'⟩ := x
        obtain ⟨⟨hin, hpat', hafter'⟩, hlt, hiff⟩ := like_step_spec h hpat hafter hs
        obtain ⟨⟨n, hn, hiter⟩, hloop⟩ := ih hin hpat' hafter' (by omega)
        exact ⟨⟨n + 1, Nat.succ_le_succ hn, by simp [hiter]⟩, hloop.trans hiff⟩

end Loop

/-- `like_match` decides the language of the pattern, and its loop ends after at
    most `(|s| + 1) * (|p| + 1)` iterations. -/
theorem like_match_iff (s p : List UInt8) :
    (like_match s p = true ↔ Like p s) ∧
      ∃ n ≤ (s.length + 1) * (p.length + 1),
        like_iterations ((s.length + 1) * (p.length + 1)) s p none = some n := by
  have hstart : InStep s p none := trivial
  have hleft : iterations_left p.length s p none ≤ (s.length + 1) * (p.length + 1) := by
    rw [iterations_left, elim_none, Nat.add_mul s.length 1]
    omega
  obtain ⟨hiter, hloop⟩ := like_loop_spec _ hstart (Nat.le_refl _) nofun hleft
  exact ⟨hloop.trans (or_iff_left id), hiter⟩

end MiniDb
