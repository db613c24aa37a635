import Mathlib.Data.List.Chain

/-! # The lock manager

  A lock table of shared and exclusive locks on objects (a table and a key),
  and the table of the transactions that wait for one.  A request that is
  granted leaves the table as it is or puts one entry into it (`LockGrant`); that
  two holders never conflict follows from this alone. -/

namespace MiniDb

open List

/-! ### The lock table -/

inductive LockMode where
  | LOCK_S
  | LOCK_X
  deriving DecidableEq

/-- `txn = 0` marks a free entry. -/
structure LockEntry where
  txn : Nat
  table : String
  key : Int
  mode : LockMode
  deriving DecidableEq

def LOCK_MAX : Nat := 256

def LOCK_NAME_LEN : Nat := 64

/-- A name as an entry keeps it. -/
def lock_name (name : String) : String := String.ofList (name.toList.take (LOCK_NAME_LEN - 1))

theorem lock_name_eq {name : String} (h : name.length < LOCK_NAME_LEN) : lock_name name = name := by
  unfold lock_name
  rw [take_of_length_le (by rw [String.length_toList]; exact Nat.le_sub_one_of_lt h),
    String.ofList_toList]

theorem lock_name_length (name : String) : (lock_name name).length < LOCK_NAME_LEN := by
  unfold lock_name
  rw [String.length_ofList, length_take]
  exact Nat.lt_of_le_of_lt (Nat.min_le_left _ _) (by decide)

abbrev LockManager := List LockEntry

def same_obj (e : LockEntry) (table : String) (key : Int) : Bool := e.key = key && e.table = table

/-- The entry of another transaction on the object. -/
def LockEntry.rival (e : LockEntry) (txn : Nat) (table : String) (key : Int) : Bool :=
  e.txn ≠ 0 && same_obj e table key && e.txn ≠ txn

/-- The index of the last entry that `txn` holds on the object. -/
def find_mine (txn : Nat) (table : String) (key : Int) :
    List LockEntry → Nat → Option Nat → Option Nat
  | [], _, mine => mine
  | e :: es, i, mine =>
    find_mine txn table key es (i + 1)
      (if e.txn ≠ 0 && same_obj e table key && e.txn = txn then some i else mine)

/-- The table, and whether the lock was granted. -/
def lock_acquire (lm : LockManager) (txn : Nat) (table : String) (key : Int) (mode : LockMode) :
    LockManager × Bool :=
  let other_s := lm.any fun e => e.rival txn table key && e.mode = .LOCK_S
  let other_x := lm.any fun e => e.rival txn table key && e.mode = .LOCK_X
  match find_mine txn table key lm 0 none with
  | some i =>
    if mode = .LOCK_S ∨ (lm[i]?.map LockEntry.mode) = some .LOCK_X then (lm, true)
    -- S to X only without other holders
    else if other_s || other_x then (lm, false)
    else (lm.modify i fun e => { e with mode := .LOCK_X }, true)
  | none =>
    if mode = .LOCK_X ∧ (other_s || other_x) then (lm, false)
    else if mode = .LOCK_S ∧ other_x then (lm, false)
    else
      let entry : LockEntry := ⟨txn, lock_name table, key, mode⟩
      match lm.findIdx? (·.txn == 0) with
      | some slot => (lm.set slot entry, true)
      | none => if LOCK_MAX ≤ lm.length then (lm, false) else (lm ++ [entry], true)

def lock_release_all (lm : LockManager) (txn : Nat) : LockManager :=
  lm.map fun e => if e.txn = txn then { e with txn := 0 } else e

/-- The object is locked exclusively by `txn`. -/
def Locked (lm : LockManager) (txn : Nat) (table : String) (key : Int) : Prop :=
  ∃ e ∈ lm, e.txn = txn ∧ same_obj e table key = true ∧ e.mode = .LOCK_X

/-- An exclusive lock tolerates no other holder. -/
def Exclusive (lm : LockManager) : Prop :=
  ∀ e ∈ lm, ∀ e' ∈ lm, e.txn ≠ 0 → e'.txn ≠ 0 → same_obj e e'.table e'.key = true →
    e.mode = .LOCK_X → e.txn = e'.txn

theorem find_mine_spec (txn : Nat) (table : String) (key : Int) (es : List LockEntry) (i : Nat)
    (mine : Option Nat) :
    (find_mine txn table key es i mine = mine ∧
      ∀ e ∈ es, e.txn ≠ 0 → same_obj e table key = true → e.txn ≠ txn) ∨
    ∃ j e, find_mine txn table key es i mine = some (i + j) ∧ es[j]? = some e ∧ e.txn ≠ 0 ∧
      same_obj e table key = true ∧ e.txn = txn := by
  induction es generalizing i mine with
  | nil => exact Or.inl ⟨rfl, by simp⟩
  | cons e es ih =>
    unfold find_mine
    by_cases hm : (e.txn ≠ 0 && same_obj e table key && e.txn = txn : Bool) = true
    · rw [if_pos hm]
      simp only [Bool.and_eq_true, decide_eq_true_eq] at hm
      -- a later entry of the transaction wins over this one
      rcases ih (i + 1) (some i) with ⟨heq, -⟩ | ⟨j, e', heq, hget, hrest⟩
      · exact Or.inr ⟨0, e, heq, rfl, hm.1.1, hm.1.2, hm.2⟩
      · exact Or.inr ⟨j + 1, e', by rw [heq]; congr 1; omega, hget, hrest⟩
    · rw [if_neg hm]
      rcases ih (i + 1) mine with ⟨heq, hnone⟩ | ⟨j, e', heq, hget, hrest⟩
      · refine Or.inl ⟨heq, fun e' he' h0 hobj heq' => ?_⟩
        rcases mem_cons.mp he' with rfl | hmem
        · exact hm (by rw [hobj, decide_eq_true h0, decide_eq_true heq']; rfl)
        · exact hnone e' hmem h0 hobj heq'
      · exact Or.inr ⟨j + 1, e', by rw [heq]; congr 1; omega, hget, hrest⟩

/-- No other holder is in the way of a request. -/
def Compatible (lm : LockManager) (txn : Nat) (table : String) (key : Int) (mode : LockMode) : Prop :=
  ∀ e ∈ lm, e.rival txn table key = true → mode = .LOCK_S ∧ e.mode = .LOCK_S

/-- What a granted request does: nothing, if the transaction holds enough, or
    one entry is put in the place of a free entry, of the transaction's own, or
    at the end. -/
inductive LockGrant (lm : LockManager) (txn : Nat) (table : String) (key : Int) (mode : LockMode) :
    LockManager → Prop
  | enough (e : LockEntry) (he : e ∈ lm) (htxn : e.txn = txn) (hobj : same_obj e table key = true)
      (hmode : mode = .LOCK_X → e.mode = .LOCK_X) : LockGrant lm txn table key mode lm
  | put (l₁ old l₂ : List LockEntry) (hlm : lm = l₁ ++ (old ++ l₂))
      (hold : (∀ e ∈ old, e.txn = 0) ∧ (∀ e ∈ lm, e.txn ≠ 0 → same_obj e table key = true → e.txn ≠ txn) ∨
        ∃ m, old = [⟨txn, table, key, m⟩])
      (hfit : (l₁ ++ ⟨txn, table, key, mode⟩ :: l₂).length ≤ max lm.length LOCK_MAX)
      (hcompat : Compatible lm txn table key mode) :
      LockGrant lm txn table key mode (l₁ ++ ⟨txn, table, key, mode⟩ :: l₂)

section Acquire

variable {lm lm' : LockManager} {txn txn' : Nat} {table table' : String} {key key' : Int} {mode : LockMode}
  {e : LockEntry}

theorem LockEntry.rival_iff (e : LockEntry) (txn : Nat) (table : String) (key : Int) :
    e.rival txn table key = true ↔ e.txn ≠ 0 ∧ same_obj e table key = true ∧ e.txn ≠ txn := by
  simp [LockEntry.rival, and_assoc]

theorem same_obj_iff : same_obj e table key = true ↔ e.key = key ∧ e.table = table := by
  simp [same_obj]

/-- The tests of `lock_acquire` on the modes of other holders. -/
theorem compatible_iff (lm : LockManager) (txn : Nat) (table : String) (key : Int)
    (mode : LockMode) : Compatible lm txn table key mode ↔
      ¬(mode = .LOCK_X ∧ ((lm.any fun e => e.rival txn table key && e.mode = .LOCK_S) ||
        lm.any fun e => e.rival txn table key && e.mode = .LOCK_X) = true) ∧
      ¬(mode = .LOCK_S ∧ (lm.any fun e => e.rival txn table key && e.mode = .LOCK_X) = true) := by
  unfold Compatible
  simp only [Bool.or_eq_true, any_eq_true, Bool.and_eq_true, decide_eq_true_eq]
  constructor
  · intro h
    refine ⟨?_, ?_⟩
    · rintro ⟨rfl, ⟨e, he, hr, -⟩ | ⟨e, he, hr, -⟩⟩ <;> cases (h e he hr).1
    · rintro ⟨rfl, e, he, hr, hx⟩
      rw [(h e he hr).2] at hx
      cases hx
  · rintro ⟨hx, hs⟩ e he hr
    cases mode <;> cases hm : e.mode
    · exact ⟨rfl, rfl⟩
    · exact absurd ⟨rfl, e, he, hr, hm⟩ hs
    · exact absurd ⟨rfl, .inl ⟨e, he, hr, hm⟩⟩ hx
    · exact absurd ⟨rfl, .inr ⟨e, he, hr, hm⟩⟩ hx

theorem lock_acquire_failed (h : (lock_acquire lm txn table key mode).2 = false) :
    (lock_acquire lm txn table key mode).1 = lm := by
  revert h
  unfold lock_acquire
  dsimp only
  repeat' split
  all_goals first | exact fun _ => rfl | exact nofun

theorem grant_of_lock_acquire (hname : table.length < LOCK_NAME_LEN)
    (h : lock_acquire lm txn table key mode = (lm', true)) :
    LockGrant lm txn table key mode lm' := by
  have hcompat := compatible_iff lm txn table key mode
  unfold lock_acquire at h
  rw [lock_name_eq hname] at h
  dsimp only at h
  rcases find_mine_spec txn table key lm 0 none with ⟨heq, hnone⟩ | ⟨j, mine, heq, hget, h0, hobj, htxn⟩
  · rw [heq] at h
    dsimp only at h
    split at h
    · cases h
    next hx =>
    split at h
    · cases h
    next hs =>
    split at h
    · -- the first free entry is taken
      next slot hslot =>
      obtain ⟨hlt, hfree, -⟩ := List.findIdx?_eq_some_iff_getElem.mp hslot
      cases h
      rw [set_eq_take_append_cons_drop, if_pos hlt]
      refine .put _ [lm[slot]] _ (by simp) (.inl ⟨by simpa using hfree, hnone⟩) ?_ (hcompat.mpr ⟨hx, hs⟩)
      simp only [length_append, length_take, length_cons, length_drop]
      omega
    · split at h
      · cases h
      next hmax =>
      cases h
      exact .put lm [] [] (by simp) (.inl ⟨nofun, hnone⟩) (by simp; omega) (hcompat.mpr ⟨hx, hs⟩)
  · rw [heq, Nat.zero_add] at h
    dsimp only at h
    rw [hget] at h
    split at h
    · next henough =>
      cases h
      exact .enough mine (mem_of_getElem? hget) htxn hobj fun hmode => by simpa [hmode] using henough
    next hup =>
    split at h
    · cases h
    next hothers =>
    cases h
    obtain ⟨hS, hX⟩ := not_or.mp hup
    obtain ⟨hlt, rfl⟩ := List.getElem?_eq_some_iff.mp hget
    obtain ⟨hkey, htable⟩ := same_obj_iff.mp hobj
    cases mode with
    | LOCK_S => exact absurd rfl hS
    | LOCK_X =>
      have hold : lm[j] = ⟨txn, table, key, .LOCK_S⟩ := by
        cases hm : lm[j].mode with
        | LOCK_X => exact absurd (congrArg some hm) hX
        | LOCK_S => rw [← htxn, ← hkey, ← htable, ← hm]
      have hmod : lm.modify j (fun e => { e with mode := .LOCK_X }) =
          lm.take j ++ (⟨txn, table, key, .LOCK_X⟩ : LockEntry) :: lm.drop (j + 1) := by
        rw [modify_eq_take_cons_drop hlt, hold]
      rw [hmod]
      refine .put _ [lm[j]] _ (by simp) (.inr ⟨_, by rw [hold]⟩) ?_
        (hcompat.mpr ⟨by simpa using hothers, nofun⟩)
      simp only [length_append, length_take, length_cons, length_drop]
      omega

variable (h : LockGrant lm txn table key mode lm')

include h

/-- Entries in use after a request are the new one and old ones. -/
theorem LockGrant.entry_from (he : e ∈ lm') :
    e ∈ lm ∨ e = ⟨txn, table, key, mode⟩ ∧ Compatible lm txn table key mode := by
  cases h with
  | enough => exact .inl he
  | put l₁ old l₂ hlm hold hfit hcompat =>
    rcases mem_append.mp he with he | he
    · exact .inl (hlm ▸ mem_append_left _ he)
    rcases mem_cons.mp he with rfl | he
    · exact .inr ⟨rfl, hcompat⟩
    · exact .inl (hlm ▸ mem_append_right _ (mem_append_right _ he))

/-- Nobody else loses an entry. -/
theorem LockGrant.entry_kept (he : e ∈ lm)
    (h0 : e.txn ≠ 0) : e ∈ lm' ∨ e.txn = txn ∧ same_obj e table key = true ∧ ⟨txn, table, key, mode⟩ ∈ lm' := by
  cases h with
  | enough => exact .inl he
  | put l₁ old l₂ hlm hold hfit hcompat =>
    rw [hlm] at he
    rcases mem_append.mp he with he | he
    · exact .inl (mem_append_left _ he)
    rcases mem_append.mp he with he | he
    · rcases hold with ⟨hfree, -⟩ | ⟨m, rfl⟩
      · exact absurd (hfree e he) h0
      · rw [mem_singleton.mp he]
        exact .inr ⟨rfl, by simp [same_obj], by simp⟩
    · exact .inl (by simp [he])

theorem LockGrant.holds :
    ∃ e ∈ lm', e.txn = txn ∧ same_obj e table key = true ∧ (mode = .LOCK_X → e.mode = .LOCK_X) := by
  cases h with
  | enough e he htxn hobj hmode => exact ⟨e, he, htxn, hobj, hmode⟩
  | put => exact ⟨⟨txn, table, key, mode⟩, by simp, rfl, by simp [same_obj], id⟩

omit h

theorem LockGrant.exclusive (hg : LockGrant lm txn table key mode lm') (hex : Exclusive lm) :
    Exclusive lm' := by
  intro e he e' he' h0 h0' hobj hmode
  obtain ⟨hkey, htable⟩ := same_obj_iff.mp hobj
  rcases hg.entry_from he with hold | ⟨rfl, hcompat⟩ <;>
    rcases hg.entry_from he' with hold' | ⟨rfl, hcompat'⟩
  · exact hex e hold e' hold' h0 h0' hobj hmode
  · by_contra hne
    have hS := (hcompat' e hold ((e.rival_iff _ _ _).mpr ⟨h0, hobj, hne⟩)).2
    cases hS.symm.trans hmode
  · -- the granted lock is exclusive: no other entry on the object is in use
    by_contra hne
    have hr := (e'.rival_iff txn table key).mpr
      ⟨h0', same_obj_iff.mpr ⟨hkey.symm, htable.symm⟩, fun heq => hne heq.symm⟩
    cases (hcompat e' hold' hr).1.symm.trans hmode
  · rfl

theorem LockGrant.keeps (hg : LockGrant lm txn table key .LOCK_X lm')
    (hl : Locked lm txn' table' key') (h0 : txn' ≠ 0) : Locked lm' txn' table' key' := by
  obtain ⟨e, he, rfl, hobj, hmode⟩ := hl
  rcases hg.entry_kept he h0 with hin | ⟨rfl, hsame, hnew⟩
  · exact ⟨e, hin, rfl, hobj, hmode⟩
  · obtain ⟨hkey, htable⟩ := same_obj_iff.mp hobj
    obtain ⟨hkey', htable'⟩ := same_obj_iff.mp hsame
    exact ⟨_, hnew, rfl, same_obj_iff.mpr ⟨hkey'.symm.trans hkey, htable'.symm.trans htable⟩, rfl⟩

theorem LockGrant.locked (hg : LockGrant lm txn table key .LOCK_X lm') :
    Locked lm' txn table key := by
  obtain ⟨e, he, htxn, hobj, hmode⟩ := hg.holds
  exact ⟨e, he, htxn, hobj, hmode rfl⟩

/-- Two transactions never hold one object exclusively. -/
theorem Locked.unique (hex : Exclusive lm) (hl : Locked lm txn table key)
    (hl' : Locked lm txn' table key)
    (h0 : txn ≠ 0) (h0' : txn' ≠ 0) : txn = txn' := by
  obtain ⟨e, he, rfl, hobj, hmode⟩ := hl
  obtain ⟨e', he', rfl, hobj', -⟩ := hl'
  obtain ⟨hkey, htable⟩ := same_obj_iff.mp hobj'
  exact hex e he e' he' h0 h0' (by rw [hkey, htable]; exact hobj) hmode

theorem mem_lock_release_all (h0 : e.txn ≠ 0) :
    e ∈ lock_release_all lm txn ↔ e ∈ lm ∧ e.txn ≠ txn := by
  unfold lock_release_all
  rw [mem_map]
  constructor
  · rintro ⟨e₁, he₁, rfl⟩
    by_cases hmine : e₁.txn = txn
    · rw [if_pos hmine] at h0
      exact absurd rfl h0
    · rw [if_neg hmine]
      exact ⟨he₁, hmine⟩
  · rintro ⟨he, hne⟩
    exact ⟨e, he, if_neg hne⟩

theorem Exclusive.lock_release_all (hex : Exclusive lm) (txn : Nat) :
    Exclusive (lock_release_all lm txn) := fun e he e' he' h0 h0' =>
  hex e ((mem_lock_release_all h0).mp he).1 e' ((mem_lock_release_all h0').mp he').1 h0 h0'

theorem Locked.lock_release_all (hl : Locked lm txn' table key) (hne : txn' ≠ txn) :
    Locked (lock_release_all lm txn) txn' table key := by
  obtain ⟨e, he, rfl, hobj, hmode⟩ := hl
  exact ⟨e, mem_map.mpr ⟨e, he, if_neg hne⟩, rfl, hobj, hmode⟩

end Acquire

/-! ### Runs -/

/-- The entries in use on an object. -/
def holders (lm : LockManager) (table : String) (key : Int) : List LockEntry :=
  lm.filter fun e => e.txn ≠ 0 && same_obj e table key

/-- No transaction has two entries on an object. -/
def OneEntry (lm : LockManager) : Prop :=
  lm.Pairwise fun e e' => e.txn ≠ 0 → e.txn = e'.txn → same_obj e e'.table e'.key = false

/-- A lock table that requests and releases lead to. -/
structure LockInv (lm : LockManager) : Prop where
  excl : Exclusive lm
  one : OneEntry lm
  size : lm.length ≤ LOCK_MAX

inductive LockOp where
  | acquire (txn : Nat) (table : String) (key : Int) (mode : LockMode)
  | release_all (txn : Nat)

def lock_step (lm : LockManager) : LockOp → LockManager
  | .acquire txn table key mode => (lock_acquire lm txn table key mode).1
  | .release_all txn => lock_release_all lm txn

/-- The name of a request is kept as it is. -/
def LockOp.fits : LockOp → Prop
  | .acquire _ table _ _ => table.length < LOCK_NAME_LEN
  | .release_all _ => True

section Runs

variable {lm lm' : LockManager} {txn : Nat} {table : String} {key : Int} {mode : LockMode}

theorem OneEntry.grant (h : OneEntry lm) (hg : LockGrant lm txn table key mode lm') : OneEntry lm' := by
  cases hg with
  | enough => exact h
  | put l₁ old l₂ hlm hold hfit hcompat =>
    rw [hlm] at h
    rcases hold with ⟨hfree, hnone⟩ | ⟨m, rfl⟩
    · -- the transaction has no other entry on the object
      have hsub : (l₁ ++ l₂).Sublist (l₁ ++ (old ++ l₂)) := (sublist_append_right old l₂).append_left l₁
      have hnew : ∀ e ∈ l₁ ++ l₂, e.txn ≠ 0 → e.txn = txn → same_obj e table key = false := by
        intro e he h0 heq
        exact Bool.eq_false_iff.mpr fun hobj => hnone e (hlm ▸ hsub.subset he) h0 hobj heq
      unfold OneEntry
      rw [pairwise_append, pairwise_cons]
      obtain ⟨h₁, h₂, h₁₂⟩ := pairwise_append.mp (h.sublist hsub)
      refine ⟨h₁, ⟨fun e he h0 heq => ?_, h₂⟩, fun e he e' he' => ?_⟩
      · have hobj := hnew e (mem_append_right _ he) (heq ▸ h0) heq.symm
        rw [Bool.eq_false_iff] at hobj ⊢
        rw [ne_eq, same_obj_iff] at hobj ⊢
        exact fun hc => hobj ⟨hc.1.symm, hc.2.symm⟩
      · rcases mem_cons.mp he' with rfl | he'
        · exact fun h0 heq => hnew e (mem_append_left _ he) h0 heq
        · exact h₁₂ e he e' he'
    · -- only the mode of an entry changes
      unfold OneEntry at h ⊢
      simp only [singleton_append, pairwise_append, pairwise_cons, mem_cons,
        forall_eq_or_imp] at h ⊢
      exact h

theorem LockInv.step (h : LockInv lm) {op : LockOp} (hop : op.fits) : LockInv (lock_step lm op) := by
  cases op with
  | acquire txn table key mode =>
    show LockInv (lock_acquire lm txn table key mode).1
    cases hacq : (lock_acquire lm txn table key mode).2 with
    | false => rwa [lock_acquire_failed hacq]
    | true =>
      obtain ⟨lm', heq⟩ : ∃ lm', lock_acquire lm txn table key mode = (lm', true) := ⟨_, Prod.ext rfl hacq⟩
      have hg := grant_of_lock_acquire hop heq
      rw [heq]
      refine ⟨hg.exclusive h.excl, h.one.grant hg, ?_⟩
      cases hg with
      | enough => exact h.size
      | put l₁ old l₂ hlm hold hfit => exact hfit.trans (max_le h.size le_rfl)
  | release_all txn =>
    refine ⟨h.excl.lock_release_all txn, pairwise_map.mpr (h.one.imp fun {e e'} hne h0 heq => ?_),
      by simpa [lock_step, lock_release_all] using h.size⟩
    by_cases hmine : e.txn = txn
    · rw [if_pos hmine] at h0
      exact absurd rfl h0
    · rw [if_neg hmine] at h0 heq ⊢
      by_cases hmine' : e'.txn = txn
      · rw [if_pos hmine'] at heq
        exact absurd heq h0
      · rw [if_neg hmine'] at heq ⊢
        exact hne h0 heq

/-- All holders of an object share it, or there is only one. -/
theorem LockInv.holders (h : LockInv lm) (table : String) (key : Int) :
    (∀ e ∈ holders lm table key, e.mode = .LOCK_S) ∨ ∃ e, holders lm table key = [e] := by
  by_cases hall : ∀ e ∈ MiniDb.holders lm table key, e.mode = .LOCK_S
  · exact .inl hall
  simp only [not_forall] at hall
  obtain ⟨e, he, hmode⟩ := hall
  have hmem : ∀ x ∈ MiniDb.holders lm table key, x ∈ lm ∧ x.txn ≠ 0 ∧ same_obj x table key = true := by
    intro x hx
    simpa [MiniDb.holders] using hx
  have hX : e.mode = .LOCK_X := by
    cases hm : e.mode with
    | LOCK_S => exact absurd hm hmode
    | LOCK_X => rfl
  obtain ⟨helm, h0, hobj⟩ := hmem e he
  have hsame : ∀ x ∈ MiniDb.holders lm table key, x.txn = e.txn := by
    intro x hx
    obtain ⟨hxlm, hx0, hxobj⟩ := hmem x hx
    rw [same_obj_iff] at hobj hxobj
    exact (h.excl e helm x hxlm h0 hx0 (same_obj_iff.mpr
      ⟨hobj.1.trans hxobj.1.symm, hobj.2.trans hxobj.2.symm⟩) hX).symm
  have hone : (MiniDb.holders lm table key).Pairwise fun _ _ => False :=
    (h.one.filter _).imp_of_mem fun {x y} hx hy hne => by
      obtain ⟨-, hx0, hxobj⟩ := hmem x hx
      obtain ⟨-, -, hyobj⟩ := hmem y hy
      rw [same_obj_iff] at hxobj hyobj
      have hno := hne hx0 ((hsame x hx).trans (hsame y hy).symm)
      rw [Bool.eq_false_iff, ne_eq, same_obj_iff] at hno
      exact hno ⟨hxobj.1.trans hyobj.1.symm, hxobj.2.trans hyobj.2.symm⟩
  cases hl : MiniDb.holders lm table key with
  | nil => simp [hl] at he
  | cons x xs =>
    rw [hl] at hone
    cases xs with
    | nil => exact .inr ⟨x, rfl⟩
    | cons y ys => exact ((pairwise_cons.mp hone).1 y mem_cons_self).elim

/-- A compatible request is granted while there is room. -/
theorem lock_acquire_of_compatible (hcompat : Compatible lm txn table key mode)
    (hroom : lm.length < LOCK_MAX ∨ ∃ e ∈ lm, e.txn = 0) :
    (lock_acquire lm txn table key mode).2 = true := by
  obtain ⟨hx, hs⟩ := (compatible_iff lm txn table key mode).mp hcompat
  unfold lock_acquire
  dsimp only
  cases find_mine txn table key lm 0 none with
  | some i =>
    dsimp only
    split
    · rfl
    · next hup =>
      have hmode : mode = .LOCK_X := by
        cases mode with
        | LOCK_S => exact absurd (.inl rfl) hup
        | LOCK_X => rfl
      rw [if_neg fun hany => hx ⟨hmode, hany⟩]
  | none =>
    dsimp only
    rw [if_neg hx, if_neg hs]
    cases hfree : lm.findIdx? (·.txn == 0) with
    | some slot => rfl
    | none =>
      have hlt : lm.length < LOCK_MAX := by
        refine hroom.resolve_right fun ⟨e, he, h0⟩ => ?_
        have := List.findIdx?_eq_none_iff.mp hfree e he
        simp [h0] at this
      dsimp only
      rw [if_neg (Nat.not_le.mpr hlt)]

end Runs

/-- In every run no two holders conflict and no transaction has two entries on
    an object; a failed request changes nothing, a compatible one is granted
    while there is room, a granted lock is held, and a release takes away the
    transaction's entries and no others. -/
theorem lock_table_safe (ops : List LockOp) (hops : ∀ op ∈ ops, op.fits) :
    let lm := ops.foldl lock_step []
    (∀ table key, (∀ e ∈ holders lm table key, e.mode = .LOCK_S) ∨ ∃ e, holders lm table key = [e]) ∧
    OneEntry lm ∧
    (∀ txn table key mode, (lock_acquire lm txn table key mode).2 = false →
      (lock_acquire lm txn table key mode).1 = lm) ∧
    (∀ txn table key mode, Compatible lm txn table key mode → (lm.length < LOCK_MAX ∨ ∃ e ∈ lm, e.txn = 0) →
      (lock_acquire lm txn table key mode).2 = true) ∧
    (∀ txn table key mode, table.length < LOCK_NAME_LEN → (lock_acquire lm txn table key mode).2 = true →
      ∃ e ∈ (lock_acquire lm txn table key mode).1, e.txn = txn ∧ same_obj e table key = true ∧
        (mode = .LOCK_X → e.mode = .LOCK_X)) ∧
    ∀ txn, txn ≠ 0 → (∀ e ∈ lock_release_all lm txn, e.txn ≠ txn) ∧
      ∀ (i : Nat) (e : LockEntry), e.txn ≠ txn → e.txn ≠ 0 → ((lock_release_all lm txn)[i]? = some e ↔ lm[i]? = some e) := by
  intro lm
  have hinv : LockInv lm := List.foldlRecOn ops lock_step ⟨nofun, .nil, Nat.zero_le _⟩
    fun _ h op hop => h.step (hops op hop)
  refine ⟨hinv.holders, hinv.one, fun _ _ _ _ => lock_acquire_failed,
    fun _ _ _ _ => lock_acquire_of_compatible,
    fun _ _ _ _ hname hok => (grant_of_lock_acquire hname (Prod.ext rfl hok)).holds,
    fun txn h0 => ⟨fun e he heq => ?_, fun i e hne he0 => ?_⟩⟩
  · have he0 : e.txn ≠ 0 := heq ▸ h0
    exact ((mem_lock_release_all he0).mp he).2 heq
  · unfold lock_release_all
    rw [List.getElem?_map, Option.map_eq_some_iff]
    constructor
    · rintro ⟨e₁, he₁, rfl⟩
      by_cases hmine : e₁.txn = txn
      · rw [if_pos hmine] at he0
        exact absurd rfl he0
      · rwa [if_neg hmine]
    · exact fun he => ⟨e, he, if_neg hne⟩

/-- Two readers of `t`; one of them asks for the exclusive lock in vain, and
    gets it after the other has released its own. -/
theorem lock_table_safe_upgrade :
    let lm := [LockOp.acquire 1 "t" 0 .LOCK_S, .acquire 2 "t" 0 .LOCK_S, .acquire 1 "t" 0 .LOCK_X,
      .release_all 2, .acquire 1 "t" 0 .LOCK_X].foldl lock_step []
    lm = [⟨1, "t", 0, .LOCK_X⟩, ⟨0, "t", 0, .LOCK_S⟩] ∧
      ((∀ e ∈ holders lm "t" 0, e.mode = .LOCK_S) ∨ ∃ e, holders lm "t" 0 = [e]) :=
  ⟨by decide, (lock_table_safe _ (by simp [LockOp.fits]; decide)).1 "t" 0⟩

end MiniDb
