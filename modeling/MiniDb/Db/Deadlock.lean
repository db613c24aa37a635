import Mathlib.Data.List.Nodup
import Mathlib.Data.List.Perm.Subperm
import MiniDb.Db.Locks

/-! # Deadlock detection

  A waiting transaction has an edge to every other transaction that holds a
  lock in the way of the one it waits for.  `dfs_cycle` keeps the path it has
  come and nothing else.  A path without a repetition is never longer than the
  table of waits, so the bound on its depth cuts nothing off. -/

namespace MiniDb

open Relation List

def LOCK_MAX_WAITS : Nat := 64

/-- What a transaction waits for; `request` is the name in the call, of which
    the code keeps `table`. -/
structure LockWait where
  txn : Nat
  table : String
  key : Int
  mode : LockMode
  request : String
  deriving DecidableEq

/-- The locks and the waits. -/
structure LockTables where
  entries : LockManager
  waits : List LockWait
  deriving DecidableEq

def lock_init : LockTables := ⟨[], []⟩

/-- A transaction waits for one lock at a time. -/
def lock_wait_add (s : LockTables) (txn : Nat) (table : String) (key : Int) (mode : LockMode) : LockTables :=
  let w : LockWait := ⟨txn, lock_name table, key, mode, table⟩
  match s.waits.findIdx? (·.txn = w.txn) with
  | some i => { s with waits := s.waits.set i w }
  | none => if LOCK_MAX_WAITS ≤ s.waits.length then s else { s with waits := s.waits ++ [w] }

/-- The last wait takes the place of the one that is removed. -/
def lock_wait_clear (s : LockTables) (txn : Nat) : LockTables :=
  match s.waits.findIdx? (·.txn = txn), s.waits.getLast? with
  | some i, some last => { s with waits := (s.waits.set i last).dropLast }
  | _, _ => s

/-- The holder of the entry is in the way of a wait for an object of that name. -/
def blocks (w : LockWait) (table : String) (e : LockEntry) : Bool :=
  e.txn ≠ 0 && e.txn ≠ w.txn && same_obj e table w.key && (w.mode = .LOCK_X || e.mode = .LOCK_X)

def wait_targets (s : LockTables) (txn max : Nat) : List Nat :=
  match s.waits.find? (·.txn = txn) with
  | none => []
  | some w => s.entries.foldl (fun out e =>
      if blocks w w.table e && !out.contains e.txn && out.length < max then out ++ [e.txn] else out) []

/-- The first result of a loop that ends with a transaction. -/
def first_victim (vs : List Nat) : Nat := (vs.find? (· ≠ 0)).getD 0

/-- `left` more transactions fit the path. -/
def dfs_cycle (s : LockTables) : Nat → Nat → List Nat → Nat
  | 0, txn, path => if txn ∈ path then txn else 0
  | left + 1, txn, path =>
    if txn ∈ path then txn
    else first_victim ((wait_targets s txn LOCK_MAX).map fun t => dfs_cycle s left t (path ++ [txn]))

def lock_deadlock_victim (s : LockTables) : Nat :=
  first_victim (s.waits.map fun w => dfs_cycle s LOCK_MAX_WAITS w.txn [])

/-! ### The wait-for graph -/

/-- Transaction `u` holds a lock in the way of the one that `t` has asked for. -/
def WaitsFor (s : LockTables) (t u : Nat) : Prop :=
  ∃ w ∈ s.waits, w.txn = t ∧ ∃ e ∈ s.entries, blocks w w.request e = true ∧ e.txn = u

/-- What the tables hold in every run. -/
structure WaitInv (s : LockTables) : Prop where
  room : s.entries.length ≤ LOCK_MAX
  one : (s.waits.map LockWait.txn).Nodup
  size : s.waits.length ≤ LOCK_MAX_WAITS
  names : ∀ w ∈ s.waits, w.request = w.table

inductive WaitOp where
  | lock (op : LockOp)
  | wait_add (txn : Nat) (table : String) (key : Int) (mode : LockMode)
  | wait_clear (txn : Nat)

def wait_step (s : LockTables) : WaitOp → LockTables
  | .lock op => { s with entries := lock_step s.entries op }
  | .wait_add txn table key mode => lock_wait_add s txn table key mode
  | .wait_clear txn => lock_wait_clear s txn

/-- The names in a call are kept as they are. -/
def WaitOp.fits : WaitOp → Prop
  | .lock op => op.fits
  | .wait_add _ table _ _ => table.length < LOCK_NAME_LEN
  | .wait_clear _ => True

section Search

variable {s : LockTables} {t u : Nat} {path : List Nat} {vs : List Nat}

theorem first_victim_eq_zero : first_victim vs = 0 ↔ ∀ v ∈ vs, v = 0 := by
  unfold first_victim
  cases h : vs.find? (· ≠ 0) with
  | none => simpa using find?_eq_none.mp h
  | some v =>
    have hne : v ≠ 0 := by simpa using find?_some h
    exact iff_of_false hne fun hall => hne (hall v (mem_of_find?_eq_some h))

theorem first_victim_mem (h : first_victim vs ≠ 0) : first_victim vs ∈ vs := by
  unfold first_victim at h ⊢
  cases hf : vs.find? (· ≠ 0) with
  | none =>
    rw [hf] at h
    exact absurd rfl h
  | some v => exact mem_of_find?_eq_some hf

/-- The targets are the blocking holders; there are never too many of them. -/
theorem mem_targets_loop (w : LockWait) (es : List LockEntry) {max : Nat} (out : List Nat)
    (hmax : out.length + es.length ≤ max) (u : Nat) :
    u ∈ es.foldl (fun out e =>
      if blocks w w.table e && !out.contains e.txn && out.length < max then out ++ [e.txn] else out) out ↔
      u ∈ out ∨ ∃ e ∈ es, blocks w w.table e = true ∧ e.txn = u := by
  induction es generalizing out with
  | nil => simp
  | cons e es ih =>
    rw [length_cons] at hmax
    rw [foldl_cons, exists_mem_cons_iff]
    have hroom : out.length < max := by omega
    by_cases hnew : (blocks w w.table e && !out.contains e.txn) = true
    · rw [if_pos (by simp_all), ih _ (by simp; omega), mem_append, mem_singleton]
      have hb := (Bool.and_eq_true_iff.mp hnew).1
      simp only [hb, true_and]
      tauto
    · rw [if_neg (by simp_all), ih _ (by omega)]
      have hold : blocks w w.table e = true ∧ e.txn = u → u ∈ out := by
        rintro ⟨hb, rfl⟩
        simpa [hb] using hnew
      tauto

theorem WaitInv.find_wait (h : WaitInv s) {w : LockWait} (hw : w ∈ s.waits) :
    s.waits.find? (·.txn = w.txn) = some w := by
  cases hf : s.waits.find? (·.txn = w.txn) with
  | none => exact absurd (find?_eq_none.mp hf w hw) (by simp)
  | some w' =>
    have heq : w'.txn = w.txn := by simpa using find?_some hf
    exact congrArg some (inj_on_of_nodup_map h.one (mem_of_find?_eq_some hf) hw heq)

theorem WaitInv.mem_targets (h : WaitInv s) : u ∈ wait_targets s t LOCK_MAX ↔ WaitsFor s t u := by
  unfold wait_targets WaitsFor
  cases hf : s.waits.find? (·.txn = t) with
  | none =>
    refine iff_of_false not_mem_nil ?_
    rintro ⟨w, hw, rfl, -⟩
    exact absurd (find?_eq_none.mp hf w hw) (by simp)
  | some w =>
    have htxn : w.txn = t := by simpa using find?_some hf
    dsimp only
    rw [mem_targets_loop w s.entries [] (by simpa using h.room)]
    simp only [not_mem_nil, false_or]
    constructor
    · intro he
      rw [← h.names w (mem_of_find?_eq_some hf)] at he
      exact ⟨w, mem_of_find?_eq_some hf, htxn, he⟩
    · rintro ⟨w', hw', rfl, he⟩
      rw [h.find_wait hw'] at hf
      cases hf
      rwa [h.names w hw'] at he

theorem WaitsFor.target_ne_zero (h : WaitsFor s t u) : u ≠ 0 := by
  obtain ⟨w, -, -, e, -, hb, rfl⟩ := h
  unfold blocks at hb
  simp only [Bool.and_eq_true, decide_eq_true_eq] at hb
  exact hb.1.1.1

theorem WaitsFor.mem_waits (h : WaitsFor s t u) : t ∈ s.waits.map LockWait.txn := by
  obtain ⟨w, hw, rfl, -⟩ := h
  exact mem_map_of_mem hw

/-- A path that comes back to a transaction closes a cycle. -/
theorem transGen_of_isChain {R : Nat → Nat → Prop} {x : Nat} {l : List Nat}
    (h : (l ++ [x]).IsChain R) (hx : x ∈ l) : TransGen R x x := by
  obtain ⟨l₁, l₂, rfl⟩ := append_of_mem hx
  have hchain : (x :: (l₂ ++ [x])).IsChain R := (isChain_append.mp (by simpa using h)).2.1
  cases l₂ with
  | nil => exact .single (isChain_pair.mp hchain)
  | cons y l₂ =>
    obtain ⟨hxy, hrest⟩ := isChain_cons_cons.mp hchain
    exact .head' hxy (relationReflTransGen_of_exists_isChain_cons _ hrest (by simp))

theorem dfs_cycle_mem (hmem : t ∈ path) (left : Nat) : dfs_cycle s left t path = t := by
  cases left <;> exact if_pos hmem

/-- A transaction that the search returns lies on a cycle. -/
theorem dfs_cycle_sound (h : WaitInv s) (left : Nat) (hpath : (path ++ [t]).IsChain (WaitsFor s))
    (hv : dfs_cycle s left t path ≠ 0) :
    TransGen (WaitsFor s) (dfs_cycle s left t path) (dfs_cycle s left t path) := by
  induction left generalizing t path with
  | zero =>
    by_cases hmem : t ∈ path
    · rw [dfs_cycle_mem hmem]
      exact transGen_of_isChain hpath hmem
    · exact absurd (if_neg hmem) hv
  | succ left ih =>
    by_cases hmem : t ∈ path
    · rw [dfs_cycle_mem hmem]
      exact transGen_of_isChain hpath hmem
    · unfold dfs_cycle at hv ⊢
      rw [if_neg hmem] at hv ⊢
      obtain ⟨u, hu, heq⟩ := mem_map.mp (first_victim_mem hv)
      rw [← heq] at hv ⊢
      refine ih (isChain_append.mpr ⟨hpath, isChain_singleton u, fun x hx y hy => ?_⟩) hv
      rw [getLast?_concat] at hx
      cases hx
      cases hy
      exact h.mem_targets.mp hu

/-- From a transaction on a cycle the search goes on around it, and the path
    would outgrow the table of waits if it never came back. -/
theorem dfs_cycle_complete {t : Nat} {path : List Nat} (h : WaitInv s) (left : Nat)
    (ht : TransGen (WaitsFor s) t t)
    (hnodup : path.Nodup) (hwaits : path ⊆ s.waits.map LockWait.txn)
    (hleft : path.length + left = LOCK_MAX_WAITS) : dfs_cycle s left t path ≠ 0 := by
  obtain ⟨u, htu, hut⟩ := TransGen.head'_iff.mp ht
  obtain ⟨v, -, hvt⟩ := TransGen.tail'_iff.mp ht
  by_cases hmem : t ∈ path
  · rw [dfs_cycle_mem hmem]
    exact hvt.target_ne_zero
  have hnodup' : (path ++ [t]).Nodup := (nodup_cons.mpr ⟨hmem, hnodup⟩).perm (perm_append_singleton t path).symm
  have hwaits' : path ++ [t] ⊆ s.waits.map LockWait.txn :=
    append_subset.mpr ⟨hwaits, cons_subset.mpr ⟨htu.mem_waits, nil_subset _⟩⟩
  have hlen := (subperm_of_subset hnodup' hwaits').length_le
  rw [length_append, length_map, length_singleton] at hlen
  have hsize := h.size
  obtain ⟨left, rfl⟩ : ∃ n, left = n + 1 := ⟨left - 1, by omega⟩
  unfold dfs_cycle
  rw [if_neg hmem]
  intro hzero
  refine dfs_cycle_complete h left (.tail' hut htu) hnodup' hwaits' (by simp; omega)
    (first_victim_eq_zero.mp hzero _ (mem_map.mpr ⟨u, h.mem_targets.mpr htu, rfl⟩))
termination_by left

end Search

/-! ### Runs -/

theorem WaitInv.step {s : LockTables} (h : WaitInv s) (hlocks : LockInv s.entries) {op : WaitOp}
    (hop : op.fits) : WaitInv (wait_step s op) ∧ LockInv (wait_step s op).entries := by
  cases op with
  | lock op => exact ⟨⟨(hlocks.step hop).size, h.one, h.size, h.names⟩, hlocks.step hop⟩
  | wait_add txn table key mode =>
    have hname : table = lock_name table := (lock_name_eq hop).symm
    show WaitInv (lock_wait_add s txn table key mode) ∧ LockInv (lock_wait_add s txn table key mode).entries
    unfold lock_wait_add
    dsimp only
    split
    · next i hi =>
      obtain ⟨hlt, htxn, -⟩ := findIdx?_eq_some_iff_getElem.mp hi
      refine ⟨⟨h.room, ?_, by simpa using h.size, fun w hw => ?_⟩, hlocks⟩
      · -- the replaced wait is of the same transaction
        rw [map_set]
        dsimp only
        rw [← of_decide_eq_true htxn, ← getElem_map LockWait.txn (h := by simpa using hlt),
          set_getElem_self]
        exact h.one
      · rcases mem_or_eq_of_mem_set hw with hw | rfl
        · exact h.names w hw
        · exact hname
    · next hnone =>
      split
      · exact ⟨h, hlocks⟩
      · next hroom =>
        refine ⟨⟨h.room, ?_, by simp; omega, forall_mem_append.mpr
          ⟨h.names, forall_mem_singleton.mpr hname⟩⟩, hlocks⟩
        rw [map_append, map_singleton]
        refine (nodup_cons.mpr ⟨fun hmem => ?_, h.one⟩).perm (perm_append_singleton _ _).symm
        obtain ⟨w', hw', heq⟩ := mem_map.mp hmem
        simpa [heq] using findIdx?_eq_none_iff.mp hnone w' hw'
  | wait_clear txn =>
    show WaitInv (lock_wait_clear s txn) ∧ LockInv (lock_wait_clear s txn).entries
    unfold lock_wait_clear
    split
    · next i last hi hlast =>
      obtain ⟨ws, hws⟩ := getLast?_eq_some_iff.mp hlast
      have hone := h.one
      have hsize := h.size
      rw [hws, map_append, nodup_append] at hone
      rw [hws, length_append] at hsize
      refine ⟨⟨h.room, ?_, by simp [hws]; omega, fun w hw => ?_⟩, hlocks⟩
      swap
      · rcases mem_or_eq_of_mem_set ((dropLast_sublist _).subset hw) with hw | rfl
        · exact h.names w hw
        · exact h.names w (mem_of_getLast? hlast)
      rw [hws, set_append]
      split
      · rw [dropLast_concat, map_set]
        exact hone.1.set fun hmem => hone.2.2 _ hmem _ (mem_singleton_self _) rfl
      · cases i - ws.length <;> exact dropLast_concat ▸ hone.1
    · exact ⟨h, hlocks⟩

/-- In every run with names of less than `LOCK_NAME_LEN` characters, the detector
    returns 0 exactly if the wait-for graph has no cycle, and a transaction on a
    cycle otherwise. -/
theorem deadlock_victim_iff (ops : List WaitOp) (hops : ∀ op ∈ ops, op.fits) :
    let s := ops.foldl wait_step lock_init
    (lock_deadlock_victim s = 0 ↔ ∀ t, ¬TransGen (WaitsFor s) t t) ∧
      (lock_deadlock_victim s ≠ 0 →
        TransGen (WaitsFor s) (lock_deadlock_victim s) (lock_deadlock_victim s)) := by
  intro s
  have hinv : WaitInv s ∧ LockInv s.entries :=
    List.foldlRecOn (motive := fun s => WaitInv s ∧ LockInv s.entries) ops wait_step
      ⟨⟨Nat.zero_le _, .nil, Nat.zero_le _, nofun⟩, ⟨nofun, .nil, Nat.zero_le _⟩⟩
      fun _ h op hop => h.1.step h.2 (hops op hop)
  have hsound : lock_deadlock_victim s ≠ 0 →
      TransGen (WaitsFor s) (lock_deadlock_victim s) (lock_deadlock_victim s) := by
    intro hv
    obtain ⟨w, -, heq⟩ := mem_map.mp (first_victim_mem hv)
    unfold lock_deadlock_victim at hv ⊢
    rw [← heq] at hv ⊢
    exact dfs_cycle_sound hinv.1 _ (isChain_singleton _) hv
  refine ⟨⟨fun hzero t ht => ?_, fun hno => not_not.mp fun hv => hno _ (hsound hv)⟩, hsound⟩
  obtain ⟨u, htu, -⟩ := TransGen.head'_iff.mp ht
  obtain ⟨w, hw, rfl, -⟩ := htu
  exact dfs_cycle_complete hinv.1 _ ht .nil (nil_subset _) (Nat.zero_add _)
    (first_victim_eq_zero.mp hzero _ (mem_map_of_mem hw))

/-- Two transactions wait for each other's table. -/
def crossed_waits : List WaitOp :=
  [.lock (.acquire 1 "a" 0 .LOCK_X), .lock (.acquire 2 "b" 0 .LOCK_X), .wait_add 1 "b" 0 .LOCK_X,
    .wait_add 2 "a" 0 .LOCK_X]

theorem deadlock_victim_crossed :
    let s := crossed_waits.foldl wait_step lock_init
    lock_deadlock_victim s = 1 ∧ TransGen (WaitsFor s) 1 1 := by
  have hone : lock_deadlock_victim (crossed_waits.foldl wait_step lock_init) = 1 := by decide +kernel
  have hcycle := (deadlock_victim_iff crossed_waits (by
    simp [crossed_waits, WaitOp.fits, LockOp.fits]; decide)).2 (by rw [hone]; decide)
  rw [hone] at hcycle
  exact ⟨hone, hcycle⟩

/-- A name of `n` characters. -/
def long_name (n : Nat) : String := String.ofList (replicate n 'a')

/-- Transaction 2 asks for an object of 64 characters that nobody holds; the
    table of waits keeps 63 of them, which is the object of transaction 1. -/
def long_waits : List WaitOp :=
  [.lock (.acquire 1 (long_name 63) 0 .LOCK_X), .lock (.acquire 2 "c" 0 .LOCK_X),
    .wait_add 1 "c" 0 .LOCK_X, .wait_add 2 (long_name 64) 0 .LOCK_X]

def long_tables : LockTables :=
  ⟨[⟨1, long_name 63, 0, .LOCK_X⟩, ⟨2, "c", 0, .LOCK_X⟩],
    [⟨1, "c", 0, .LOCK_X, "c"⟩, ⟨2, long_name 63, 0, .LOCK_X, long_name 64⟩]⟩

/-- A cycle is reported where there is none. -/
theorem long_name_reports_cycle :
    ¬∀ ops : List WaitOp, let s := ops.foldl wait_step lock_init
      lock_deadlock_victim s = 0 ↔ ∀ t, ¬TransGen (WaitsFor s) t t := by
  intro hall
  have hrun : long_waits.foldl wait_step lock_init = long_tables := by decide +kernel
  have h := hall long_waits
  rw [hrun] at h
  -- the only edge leads from 1 to 2
  have hedge : ∀ w ∈ long_tables.waits, ∀ e ∈ long_tables.entries,
      blocks w w.request e = true → w.txn = 1 ∧ e.txn = 2 := by decide +kernel
  refine absurd (h.mpr fun t ht => ?_) (by decide +kernel)
  obtain ⟨u, ⟨w, hw, hwt, e, he, hb, -⟩, -⟩ := TransGen.head'_iff.mp ht
  obtain ⟨v, -, ⟨w', hw', -, e', he', hb', het⟩⟩ := TransGen.tail'_iff.mp ht
  have h₁ := (hedge w hw e he hb).1
  have h₂ := (hedge w' hw' e' he' hb').2
  omega

end MiniDb
