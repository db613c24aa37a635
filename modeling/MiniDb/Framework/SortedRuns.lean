import Mathlib.Data.List.Sort

/-! # Sorted runs

  A run is a list whose entries ascend strictly in a key.  Three things are
  done with runs: one is searched by bisection and changed at the place found,
  several are layered so that the newest entry of a key hides the older ones,
  and layers are merged by sorting all their entries on the key, newest first,
  and keeping the first of each group.

  `mem_heads_iff` and `merge_layers` say that the merge picks the entries the
  layered lookup finds. -/

namespace Framework

open List

/-- What follows the first entry that fails a test fails it too, if the test
    holds up to some place of the order. -/
theorem of_mem_dropWhile {α : Type*} {r : α → α → Prop} {p : α → Bool} {l : List α} {e : α}
    (hr : ∀ {x y}, r x y → p x = false → p y = false) (h : l.Pairwise r) (he : e ∈ l.dropWhile p) :
    p e = false := by
  induction l with
  | nil => cases he
  | cons x xs ih =>
    cases hp : p x with
    | true => exact ih h.of_cons (by rwa [dropWhile_cons_of_pos hp] at he)
    | false =>
      rw [dropWhile_cons_of_neg (by simp [hp])] at he
      rcases mem_cons.mp he with rfl | he
      · exact hp
      · exact hr (rel_of_pairwise_cons h he) hp

/-! ### Bisection -/

/-- Bisection of `[lo, hi)`: `probe` picks the next place, `cmp` says where
    that place lies relative to what is searched.  The answer is a place and
    whether it is a hit. -/
def bisect (probe : Nat → Nat → Nat) (cmp : Nat → Ordering) : Nat → Nat → Nat → Nat × Bool
  | 0, lo, _ => (lo, false)
  | fuel + 1, lo, hi =>
    if lo < hi then
      match cmp (probe lo hi) with
      | .lt => bisect probe cmp fuel (probe lo hi + 1) hi
      | .gt => bisect probe cmp fuel lo (probe lo hi)
      | .eq => (probe lo hi, true)
    else (lo, false)

/-- The place `p` cuts `[0, n)` into what is below and what is above. -/
structure Cut (cmp : Nat → Ordering) (n : Nat) (r : Nat × Bool) : Prop where
  le : r.1 ≤ n
  below : ∀ i < r.1, cmp i = .lt
  hit : r.2 = true → r.1 < n ∧ cmp r.1 = .eq
  above : r.2 = false → ∀ i, r.1 ≤ i → i < n → cmp i = .gt

variable {cmp : Nat → Ordering} {probe : Nat → Nat → Nat}

/-- On places in strictly ascending order bisection finds the cut, with fuel
    for the length of the interval. -/
theorem bisect_cut {n : Nat}
    (hprobe : ∀ lo hi, lo < hi → lo ≤ probe lo hi ∧ probe lo hi < hi)
    (hasc : ∀ i j, i < j → j < n → cmp i = .lt ∨ cmp j = .gt) {fuel lo hi : Nat}
    (hfuel : hi - lo ≤ fuel) (hle : lo ≤ hi) (hn : hi ≤ n) (hlow : ∀ i < lo, cmp i = .lt)
    (hhigh : ∀ i, hi ≤ i → i < n → cmp i = .gt) : Cut cmp n (bisect probe cmp fuel lo hi) := by
  induction fuel generalizing lo hi with
  | zero =>
    have : lo = hi := by omega
    subst this
    exact ⟨hn, hlow, nofun, fun _ => hhigh⟩
  | succ fuel ih =>
    rw [bisect]
    split
    case isFalse h =>
      have : lo = hi := by omega
      subst this
      exact ⟨hn, hlow, nofun, fun _ => hhigh⟩
    case isTrue h =>
      obtain ⟨hp, hp'⟩ := hprobe lo hi h
      -- what lies before a place that is not above, and after one that is not below
      have hbefore : cmp (probe lo hi) ≠ .gt → ∀ i < probe lo hi, cmp i = .lt :=
        fun hc i hi' => (hasc i _ hi' (by omega)).resolve_right hc
      have hafter : cmp (probe lo hi) ≠ .lt → ∀ i, probe lo hi < i → i < n → cmp i = .gt :=
        fun hc i hi' hin => (hasc _ i hi' hin).resolve_left hc
      rcases hc : cmp (probe lo hi) with _ | _ | _
      · refine ih (by omega) (by omega) hn (fun i hi' => ?_) hhigh
        rcases lt_or_ge i (probe lo hi) with h' | h'
        · exact hbefore (by simp [hc]) i h'
        · have : i = probe lo hi := by omega
          rw [this, hc]
      · exact ⟨hp'.le.trans hn, hbefore (by simp [hc]), fun _ => ⟨hp'.trans_le hn, hc⟩, nofun⟩
      · refine ih (by omega) (by omega) (by omega) hlow (fun i hi' hin => ?_)
        rcases Nat.eq_or_lt_of_le hi' with h' | h'
        · rw [← h', hc]
        · exact hafter (by simp [hc]) i h' hin

/-! ### One run -/

variable {α κ π : Type*} [LinearOrder κ] [LinearOrder π] (key : α → κ)

/-- The entries ascend strictly in their key. -/
def Asc (xs : List α) : Prop := xs.Pairwise fun a b => key a < key b

/-- The entry of a key in one run. -/
def run_find (xs : List α) (g : κ) : Option α := xs.find? fun e => key e = g

variable {key} {xs : List α} {g : κ} {e : α} {pre post : List α}

theorem run_find_eq_some (h : Asc key xs) :
    run_find key xs g = some e ↔ e ∈ xs ∧ key e = g := by
  constructor
  · intro hf
    exact ⟨mem_of_find?_eq_some hf, by simpa using find?_some hf⟩
  · rintro ⟨hmem, rfl⟩
    rw [run_find]
    induction xs with
    | nil => cases hmem
    | cons x xs ih =>
      obtain ⟨hx, hxs⟩ := pairwise_cons.1 h
      rcases mem_cons.1 hmem with rfl | hmem
      · simp
      · rw [find?_cons_of_neg (by simpa using (hx e hmem).ne)]
        exact ih hxs hmem

theorem run_find_eq_none :
    run_find key xs g = none ↔ ∀ e ∈ xs, key e ≠ g := by
  simp [run_find, find?_eq_none]

/-- A run with the entry `e` between what is below it and what is above. -/
theorem Asc.place (hpre : Asc key pre) (hpost : Asc key post)
    (hlow : ∀ x ∈ pre, key x < key e) (hhigh : ∀ x ∈ post, key e < key x) :
    Asc key (pre ++ e :: post) := by
  refine pairwise_append.2 ⟨hpre, pairwise_cons.2 ⟨hhigh, hpost⟩, ?_⟩
  intro a ha b hb
  rcases mem_cons.1 hb with rfl | hb
  · exact hlow a ha
  · exact (hlow a ha).trans (hhigh b hb)

theorem run_find_place (hlow : ∀ x ∈ pre, key x < key e) :
    run_find key (pre ++ e :: post) g =
      if g = key e then some e else run_find key (pre ++ post) g := by
  unfold run_find
  split
  case isTrue h =>
    subst h
    rw [find?_append, find?_eq_none.2 (fun x hx => by simpa using (hlow x hx).ne)]
    simp
  case isFalse h =>
    rw [find?_append, find?_append, find?_cons_of_neg (by simpa using Ne.symm h)]

variable (key)

/-- The place cuts the run at the key `g`: it is where `g` stands, or where it
    would be inserted. -/
structure CutsAt (xs : List α) (g : κ) (r : Nat × Bool) : Prop where
  low : ∀ x ∈ xs.take r.1, key x < g
  hit : r.2 = true → ∃ h : r.1 < xs.length, key xs[r.1] = g
  high : r.2 = false → ∀ x ∈ xs.drop r.1, g < key x

variable {key} {r : Nat × Bool}

theorem Cut.cutsAt
    (hcmp : ∀ i (h : i < xs.length), cmp i = compare (key xs[i]) g) (hr : Cut cmp xs.length r) :
    CutsAt key xs g r where
  low x hx := by
    obtain ⟨i, hi, rfl⟩ := mem_iff_getElem.1 hx
    simp only [length_take] at hi
    have := hr.below i (by omega)
    rw [hcmp i (by omega)] at this
    simpa using compare_lt_iff_lt.1 this
  hit h := by
    obtain ⟨hlt, heq⟩ := hr.hit h
    exact ⟨hlt, compare_eq_iff_eq.1 (hcmp _ hlt ▸ heq)⟩
  high h x hx := by
    obtain ⟨i, hi, rfl⟩ := mem_iff_getElem.1 hx
    simp only [length_drop] at hi
    have := hr.above h (r.1 + i) (by omega) (by omega)
    rw [hcmp _ (by omega)] at this
    simpa using compare_gt_iff_gt.1 this

/-- The cut decides whether the run has an entry of the key. -/
theorem CutsAt.run_find (hasc : Asc key xs)
    (hr : CutsAt key xs g r) : run_find key xs g = if r.2 then xs[r.1]? else none := by
  rcases h : r.2
  · refine run_find_eq_none.2 fun e he => ?_
    rw [← take_append_drop r.1 xs] at he
    rcases mem_append.1 he with he | he
    · exact (hr.low e he).ne
    · exact (hr.high h e he).ne'
  · obtain ⟨hlt, hkey⟩ := hr.hit h
    rw [if_pos rfl, getElem?_eq_getElem hlt]
    exact (run_find_eq_some hasc).2 ⟨getElem_mem hlt, hkey⟩

/-- The comparisons along a run are ascending. -/
theorem Asc.compare (h : Asc key xs)
    (hcmp : ∀ i (h : i < xs.length), cmp i = compare (key xs[i]) g) (i j : Nat) (hij : i < j)
    (hj : j < xs.length) : cmp i = .lt ∨ cmp j = .gt := by
  rw [hcmp i (hij.trans hj), hcmp j hj]
  have hlt := pairwise_iff_getElem.1 h i j (hij.trans hj) hj hij
  rcases lt_or_ge (key xs[i]) g with h' | h'
  · exact .inl (compare_lt_iff_lt.2 h')
  · exact .inr (compare_gt_iff_gt.2 (h'.trans_lt hlt))

/-- Bisection of a whole run finds the cut. -/
theorem bisect_run (hasc : Asc key xs)
    (hprobe : ∀ lo hi, lo < hi → lo ≤ probe lo hi ∧ probe lo hi < hi)
    (hcmp : ∀ i (h : i < xs.length), cmp i = compare (key xs[i]) g) :
    CutsAt key xs g (bisect probe cmp xs.length 0 xs.length) :=
  (bisect_cut hprobe (hasc.compare hcmp) (by omega) (by omega) le_rfl (by simp)
    (fun i h h' => absurd h' (by omega))).cutsAt hcmp

/-! ### Layers -/

variable (key)

/-- The entry of a key in layered runs, newest run first: the first run that
    has one decides. -/
def top (runs : List (List α)) (g : κ) : Option α := runs.findSome? fun xs => run_find key xs g

variable {key}

@[simp] theorem top_nil (g : κ) : top key [] g = none := rfl

theorem top_cons (xs : List α) (runs : List (List α)) (g : κ) :
    top key (xs :: runs) g = (run_find key xs g).or (top key runs g) := by
  rw [top, findSome?_cons]
  cases run_find key xs g <;> rfl

theorem top_append (rs rs' : List (List α)) (g : κ) :
    top key (rs ++ rs') g = (top key rs g).or (top key rs' g) := findSome?_append

theorem top_mem {runs : List (List α)} (h : top key runs g = some e) :
    key e = g := by
  obtain ⟨xs, _, hf⟩ := exists_of_findSome?_eq_some h
  simpa using find?_some hf

/-! ### Groups of a sorted list -/

section Heads

variable {β : Type*} (same : β → β → Bool)

/-- The first of every group after the group of `cur`. -/
def heads_after (cur : β) : List β → List β
  | [] => []
  | y :: ys => if same y cur then heads_after cur ys else y :: heads_after y ys

/-- The first of every group of neighbours. -/
def heads : List β → List β
  | [] => []
  | x :: xs => x :: heads_after same x xs

end Heads

/-- `a` stands before `b`: its key is smaller, or it is the newer of the two. -/
def Before (key : α → κ) (a b : α × π) : Prop :=
  key a.1 < key b.1 ∨ key a.1 = key b.1 ∧ b.2 < a.2

theorem Before.le {a b : α × π} (h : Before key a b) : key a.1 ≤ key b.1 :=
  h.elim le_of_lt fun h => h.1.le

section Merge

variable {same : α × π → α × π → Bool} (hsame : ∀ a b, same a b = true ↔ key a.1 = key b.1)
  {xs : List (α × π)}
include hsame

/-- The head of a group and the heads after it are the newest entries of their
    groups. -/
theorem mem_heads_after_iff {cur y : α × π}
    (h : (cur :: xs).Pairwise (Before key)) :
    y ∈ cur :: heads_after same cur xs ↔
      y ∈ cur :: xs ∧ ∀ z ∈ cur :: xs, key z.1 = key y.1 → z.2 ≤ y.2 := by
  induction xs generalizing cur with
  | nil => simp +contextual [heads_after]
  | cons x xs ih =>
    obtain ⟨hcur, hxs⟩ := pairwise_cons.1 h
    have hcx := hcur x (by simp)
    rw [heads_after]
    split
    case isTrue hs =>
      -- `x` is an older entry of the group of `cur`: it is never the newest
      rw [hsame] at hs
      have hold : x.2 < cur.2 := hcx.elim (fun h => absurd hs h.ne') And.right
      rw [ih (pairwise_cons.2
        ⟨fun z hz => hcur z (by simp [hz]), (pairwise_cons.1 hxs).2⟩)]
      constructor
      · rintro ⟨hy, hmax⟩
        refine ⟨by rcases mem_cons.1 hy with rfl | hy <;> simp [*], fun z hz hzy => ?_⟩
        rcases mem_cons.1 hz with rfl | hz
        · exact hmax z (by simp) hzy
        rcases mem_cons.1 hz with rfl | hz
        · exact hold.le.trans (hmax cur (by simp) (hs.symm.trans hzy))
        · exact hmax z (by simp [hz]) hzy
      · rintro ⟨hy, hmax⟩
        have hne : y ≠ x := by
          rintro rfl
          exact absurd (hmax cur (by simp) hs.symm) (not_le.2 hold)
        refine ⟨by simpa [hne] using hy, fun z hz => hmax z ?_⟩
        rcases mem_cons.1 hz with rfl | hz <;> simp [*]
    case isFalse hs =>
      -- `x` opens the next group, so every later key is above that of `cur`
      have hlt : key cur.1 < key x.1 :=
        lt_of_le_of_ne hcx.le fun h => hs ((hsame _ _).2 h.symm)
      have hlater : ∀ z ∈ x :: xs, key cur.1 < key z.1 := by
        intro z hz
        rcases mem_cons.1 hz with rfl | hz
        · exact hlt
        · exact hlt.trans_le ((pairwise_cons.1 hxs).1 z hz).le
      rw [mem_cons, ih hxs]
      constructor
      · rintro (rfl | ⟨hy, hmax⟩)
        · refine ⟨by simp, fun z hz hzy => ?_⟩
          rcases mem_cons.1 hz with rfl | hz
          · exact le_rfl
          · exact absurd hzy (hlater z hz).ne'
        · refine ⟨mem_cons_of_mem _ hy, fun z hz hzy => ?_⟩
          rcases mem_cons.1 hz with rfl | hz
          · exact absurd hzy (hlater y hy).ne
          · exact hmax z hz hzy
      · rintro ⟨hy, hmax⟩
        rcases mem_cons.1 hy with rfl | hy
        · exact .inl rfl
        · exact .inr ⟨hy, fun z hz => hmax z (mem_cons_of_mem _ hz)⟩

/-- The heads of a sorted list are the newest entries of their groups. -/
theorem mem_heads_iff {y : α × π} (h : xs.Pairwise (Before key)) :
    y ∈ heads same xs ↔ y ∈ xs ∧ ∀ z ∈ xs, key z.1 = key y.1 → z.2 ≤ y.2 := by
  cases xs with
  | nil => simp [heads]
  | cons x xs => exact mem_heads_after_iff hsame h

theorem heads_after_asc {cur : α × π} (h : (cur :: xs).Pairwise (Before key)) :
    Asc key ((cur :: heads_after same cur xs).map Prod.fst) := by
  induction xs generalizing cur with
  | nil => simp [Asc, heads_after]
  | cons x xs ih =>
    obtain ⟨hcur, hxs⟩ := pairwise_cons.1 h
    rw [heads_after]
    split
    case isTrue _ =>
      exact ih (pairwise_cons.2
        ⟨fun z hz => hcur z (by simp [hz]), (pairwise_cons.1 hxs).2⟩)
    case isFalse hs =>
      have hlt : key cur.1 < key x.1 :=
        lt_of_le_of_ne (hcur x (by simp)).le fun h => hs ((hsame _ _).2 h.symm)
      refine pairwise_cons.2 ⟨fun a ha => ?_, ih hxs⟩
      rcases mem_cons.1 ha with rfl | ha
      · exact hlt
      · exact hlt.trans ((pairwise_cons.1 (ih hxs)).1 a ha)

theorem heads_asc (h : xs.Pairwise (Before key)) :
    Asc key ((heads same xs).map Prod.fst) := by
  cases xs with
  | nil => simp [heads, Asc]
  | cons x xs => exact heads_after_asc hsame h

end Merge

/-! ### Merging layers -/

/-- The order in which entries are sorted for a merge. -/
def Ranked (key : α → κ) (a b : α × π) : Prop :=
  key a.1 < key b.1 ∨ key a.1 = key b.1 ∧ b.2 ≤ a.2

instance : DecidableRel (Ranked key : α × π → α × π → Prop) :=
  fun a b => inferInstanceAs (Decidable (key a.1 < key b.1 ∨ key a.1 = key b.1 ∧ b.2 ≤ a.2))

instance : Std.Total (Ranked key : α × π → α × π → Prop) where
  total a b := by
    unfold Ranked
    rcases lt_trichotomy (key a.1) (key b.1) with h | h | h
    · exact .inl (.inl h)
    · exact (le_total b.2 a.2).imp (fun h' => .inr ⟨h, h'⟩) fun h' => .inr ⟨h.symm, h'⟩
    · exact .inr (.inl h)

instance : IsTrans (α × π) (Ranked key) where
  trans a b c := by
    rintro (h | ⟨h, h'⟩) (k | ⟨k, k'⟩)
    · exact .inl (h.trans k)
    · exact .inl (k ▸ h)
    · exact .inl (h ▸ k)
    · exact .inr ⟨h.trans k, k'.trans h'⟩

/-- All entries of the runs, each with the age of its run. -/
def entries (tagged : List (List α × π)) : List (α × π) :=
  tagged.flatMap fun t => t.1.map fun e => (e, t.2)

variable {tagged : List (List α × π)} {e : α} {arr : List (α × π)}

omit [LinearOrder π] in
theorem mem_entries {p : π} :
    (e, p) ∈ entries tagged ↔ ∃ xs, (xs, p) ∈ tagged ∧ e ∈ xs := by
  simp only [entries, mem_flatMap, mem_map, Prod.mk.injEq]
  constructor
  · rintro ⟨⟨xs, q⟩, ht, e', he', rfl, rfl⟩
    exact ⟨xs, ht, he'⟩
  · rintro ⟨xs, ht, he⟩
    exact ⟨(xs, p), ht, e, he, rfl, rfl⟩

/-- Runs of different ages, each of them ascending. -/
structure Layered (key : α → κ) (tagged : List (List α × π)) : Prop where
  asc : ∀ t ∈ tagged, Asc key t.1
  newer : tagged.Pairwise fun a b => b.2 < a.2

theorem Layered.tail {t : List α × π}
    (h : Layered key (t :: tagged)) : Layered key tagged :=
  ⟨fun s hs => h.asc s (by simp [hs]), (pairwise_cons.1 h.newer).2⟩

variable (h : Layered key tagged)

include h

/-- No two entries have the same key and the same age. -/
theorem Layered.distinct :
    (entries tagged).Pairwise fun a b => ¬ (key a.1 = key b.1 ∧ a.2 = b.2) := by
  induction tagged with
  | nil => exact .nil
  | cons t tagged ih =>
    refine pairwise_append.2 ⟨?_, ih h.tail, ?_⟩
    · exact pairwise_map.2 ((h.asc t (by simp)).imp fun hlt heq => hlt.ne heq.1)
    · rintro ⟨a, p⟩ ha ⟨b, q⟩ hb ⟨-, hpq⟩
      obtain ⟨e, -, he⟩ := mem_map.1 ha
      obtain ⟨xs, hxs, -⟩ := mem_entries.1 hb
      have := (pairwise_cons.1 h.newer).1 _ hxs
      simp only [Prod.mk.injEq] at he
      exact this.ne (he.2.trans hpq).symm

/-- Sorting the entries of layered runs gives the order of the merge. -/
theorem Layered.sorted (harr : arr.Perm (entries tagged)) :
    (arr.insertionSort (Ranked key)).Pairwise (Before key) := by
  have hperm := (perm_insertionSort (Ranked key) arr).trans harr
  have hdist : (arr.insertionSort (Ranked key)).Pairwise
      fun a b => ¬ (key a.1 = key b.1 ∧ a.2 = b.2) :=
    hperm.symm.pairwise h.distinct fun {a b} hab hba => hab ⟨hba.1.symm, hba.2.symm⟩
  refine ((pairwise_insertionSort (Ranked key) arr).and hdist).imp ?_
  rintro a b ⟨h | ⟨h, h'⟩, hne⟩
  · exact .inl h
  · exact .inr ⟨h, lt_of_le_of_ne h' fun heq => hne ⟨h, heq.symm⟩⟩

/-- The newest entry of a key is the one the layered lookup finds. -/
theorem Layered.top_of_newest
    {p : π} (hmem : (e, p) ∈ entries tagged)
    (hmax : ∀ z ∈ entries tagged, key z.1 = key e → z.2 ≤ p) :
    top key (tagged.map Prod.fst) (key e) = some e := by
  induction tagged with
  | nil => simp [entries] at hmem
  | cons t tagged ih =>
    rw [map_cons, top_cons]
    rcases hf : run_find key t.1 (key e) with _ | e'
    · -- the newest run has no entry of this key
      have hnone := run_find_eq_none.1 hf
      have hmem' : (e, p) ∈ entries tagged := by
        obtain ⟨xs, hxs, he⟩ := mem_entries.1 hmem
        rcases mem_cons.1 hxs with rfl | hxs
        · exact absurd rfl (hnone e he)
        · exact mem_entries.2 ⟨xs, hxs, he⟩
      exact ih h.tail hmem' fun z hz => hmax z (mem_append_right _ hz)
    · obtain ⟨he', hkey⟩ := (run_find_eq_some (h.asc t (by simp))).1 hf
      have hle := hmax (e', t.2) (mem_entries.2 ⟨t.1, by simp, he'⟩) hkey
      obtain ⟨xs, hxs, he⟩ := mem_entries.1 hmem
      rcases mem_cons.1 hxs with rfl | hxs
      · rw [(run_find_eq_some (h.asc _ (by simp))).2 ⟨he, rfl⟩] at hf
        exact hf ▸ rfl
      · exact absurd ((pairwise_cons.1 h.newer).1 _ hxs) (not_lt.2 hle)

theorem Layered.newest_of_top
    (htop : top key (tagged.map Prod.fst) (key e) = some e) :
    ∃ p, (e, p) ∈ entries tagged ∧ ∀ z ∈ entries tagged, key z.1 = key e → z.2 ≤ p := by
  induction tagged with
  | nil => cases htop
  | cons t tagged ih =>
    rw [map_cons, top_cons] at htop
    rcases hf : run_find key t.1 (key e) with _ | e'
    · rw [hf, Option.none_or] at htop
      obtain ⟨p, hmem, hmax⟩ := ih h.tail htop
      refine ⟨p, mem_append_right _ hmem, ?_⟩
      rintro ⟨z, q⟩ hz hkey
      obtain ⟨xs, hxs, hzx⟩ := mem_entries.1 hz
      rcases mem_cons.1 hxs with rfl | hxs
      · exact absurd hkey (run_find_eq_none.1 hf z hzx)
      · exact hmax _ (mem_entries.2 ⟨xs, hxs, hzx⟩) hkey
    · rw [hf, Option.some_or, Option.some.injEq] at htop
      subst htop
      refine ⟨t.2, mem_entries.2 ⟨t.1, by simp, (run_find_eq_some (h.asc t (by simp))).1 hf |>.1⟩, ?_⟩
      rintro ⟨z, q⟩ hz -
      obtain ⟨xs, hxs, -⟩ := mem_entries.1 hz
      rcases mem_cons.1 hxs with rfl | hxs
      · exact le_rfl
      · exact ((pairwise_cons.1 h.newer).1 _ hxs).le

/-- The merge of layered runs is the ascending run of the entries the layered
    lookup finds. -/
theorem Layered.merge
    {same : α × π → α × π → Bool} (hsame : ∀ a b, same a b = true ↔ key a.1 = key b.1)
    (harr : arr.Perm (entries tagged)) :
    Asc key ((heads same (arr.insertionSort (Ranked key))).map Prod.fst) ∧
      ∀ e, e ∈ (heads same (arr.insertionSort (Ranked key))).map Prod.fst ↔
        top key (tagged.map Prod.fst) (key e) = some e := by
  have hsorted := h.sorted harr
  have hmem : ∀ z, z ∈ arr.insertionSort (Ranked key) ↔ z ∈ entries tagged :=
    fun z => ((perm_insertionSort (Ranked key) arr).trans harr).mem_iff
  refine ⟨heads_asc hsame hsorted, fun e => ?_⟩
  simp only [mem_map, Prod.exists, exists_and_right, exists_eq_right]
  simp only [mem_heads_iff hsame hsorted, hmem]
  exact ⟨fun ⟨p, hp, hmax⟩ => h.top_of_newest hp hmax, h.newest_of_top⟩

end Framework
