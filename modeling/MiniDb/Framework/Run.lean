import Mathlib.Logic.Basic

/-! # Runs of a partial step function

  A system is a function `step : σ → ι → Option σ`: in state `s` the action
  `a` is admitted exactly when `step s a` is `some s'`.  `run` executes a list
  of actions; `Steps step ok` is the same as a relation, where every action in
  addition meets a side condition `ok` on the state it is taken in.

  `Steps.invariant` is the only induction over runs a proof needs: an
  invariant is proved by one lemma per action. -/

namespace Framework

variable {σ ι : Type*}

/-- Execute a list of actions, stopping at the first one that is refused. -/
def run (step : σ → ι → Option σ) : σ → List ι → Option σ
  | s, [] => some s
  | s, a :: as => (step s a).bind fun s' => run step s' as

/-- `Steps step ok s as s'`: the actions `as` lead from `s` to `s'`, each one
    admitted by `step` and meeting `ok` in the state it is taken in. -/
inductive Steps (step : σ → ι → Option σ) (ok : σ → ι → Prop) :
    σ → List ι → σ → Prop where
  | nil : ∀ s, Steps step ok s [] s
  | cons : ∀ {s s' s'' : σ} (a : ι) (as : List ι),
      ok s a → step s a = some s' → Steps step ok s' as s'' →
      Steps step ok s (a :: as) s''

namespace Steps

variable {step : σ → ι → Option σ} {ok : σ → ι → Prop}

variable {s s' : σ} {as : List ι} {ok' : σ → ι → Prop}

/-- An invariant of every admitted step holds along every run. -/
theorem invariant (Inv : σ → Prop) (hstep : ∀ s a s', Inv s → ok s a → step s a = some s' → Inv s')
    (h : Steps step ok s as s') (h0 : Inv s) : Inv s' := by
  induction h with
  | nil s => exact h0
  | cons a as hok hs _ ih => exact ih (hstep _ a _ h0 hok hs)

/-- A run may be extended by one more action. -/
theorem snoc {s'' : σ} (h : Steps step ok s as s') (a : ι) (hok : ok s' a)
    (hs : step s' a = some s'') : Steps step ok s (as ++ [a]) s'' := by
  induction h with
  | nil s => exact .cons a [] hok hs (.nil _)
  | cons b bs hb hsb _ ih => exact .cons b (bs ++ [a]) hb hsb (ih hok hs)

/-- A weaker side condition admits the same run. -/
theorem mono (himp : ∀ s a, ok s a → ok' s a) (h : Steps step ok s as s') :
    Steps step ok' s as s' := by
  induction h with
  | nil s => exact .nil s
  | cons a as hok hs _ ih => exact .cons a as (himp _ _ hok) hs ih

/-- Two side conditions that a list of actions meets, it meets together. -/
theorem and {s'' : σ} (h : Steps step ok s as s')
    (h' : Steps step ok' s as s'') : Steps step (fun s a => ok s a ∧ ok' s a) s as s' := by
  induction h with
  | nil s => exact .nil s
  | cons a as hok hs _ ih =>
    cases h' with
    | cons _ _ hok' hs' hrest =>
      rw [hs] at hs'
      cases hs'
      exact .cons a as ⟨hok, hok'⟩ hs (ih hrest)

/-- An executed list of actions is a run, for a side condition they meet anywhere. -/
theorem of_run (hok : ∀ s, ∀ a ∈ as, ok s a) (h : run step s as = some s') :
    Steps step ok s as s' := by
  induction as generalizing s with
  | nil =>
    simp only [run, Option.some.injEq] at h
    exact h ▸ .nil s
  | cons a as ih =>
    simp only [run, Option.bind_eq_some_iff] at h
    obtain ⟨t, ht, hrun⟩ := h
    exact .cons a as (hok s a List.mem_cons_self) ht
      (ih (fun s b hb => hok s b (List.mem_cons_of_mem _ hb)) hrun)

/-- A run that was checked step by step. -/
theorem of_guarded [∀ s a, Decidable (ok s a)]
    (h : run (fun s a => if ok s a then step s a else none) s as = some s') :
    Steps step ok s as s' := by
  induction as generalizing s with
  | nil =>
    simp only [run, Option.some.injEq] at h
    exact h ▸ .nil s
  | cons a as ih =>
    simp only [run, Option.bind_eq_some_iff] at h
    obtain ⟨t, ht, hrun⟩ := h
    obtain ⟨hok, hstep⟩ := Option.ite_none_right_eq_some.mp ht
    exact .cons a as hok hstep (ih hrun)

end Steps

end Framework
