import MiniDb.Storage.HeapFile

/-! # Compaction of a slotted page (page.c)

  `slotpage_compact` copies the live records, in slot order, to the end of a
  buffer on the stack, points every slot to where its record will be, and
  copies the end of the buffer back.  Slots are overwritten while later records
  are still to be read: the loop rests on records that lie behind the slot
  array and on a buffer that fills downwards.

  `Layout.compact` says what becomes of the records of a page in order, and
  every page that the operations make of a fresh one is in order. -/

namespace MiniDb.SlotPage

open Framework List HeapFile

/-- One slot: its record goes to the buffer and it points to the new place. -/
def compact_slot (i : Nat) (st : Page × Page × Nat) : Option (Page × Page × Nat) := do
  let (page, tmp, new_end) := st
  let s ← slot_at page i
  if s.offset = 0 then some (page, tmp, new_end)
  else
    let new_end := sub16 new_end s.length
    let bs ← peek page s.offset s.length
    let tmp ← poke tmp new_end bs
    let page ← poke page (slot_off i) (le_bytes 2 new_end)
    some (page, tmp, new_end)

/-- The loop from slot `i` on, for `n` slots. -/
def compact_loop : Nat → Nat → Page × Page × Nat → Option (Page × Page × Nat)
  | 0, _, st => some st
  | n + 1, i, st => (compact_slot i st).bind (compact_loop n (i + 1))

/-- `tmp` is the buffer with what the stack had there. -/
def slotpage_compact (tmp page : Page) : Option Page := do
  let (page, tmp, new_end) ← compact_loop (slotpage_num_slots page) 0 (page, tmp, PAGE_SIZE)
  let bs ← peek tmp new_end (PAGE_SIZE - new_end)
  let page ← poke page new_end bs
  poke page 2 (le_bytes 2 new_end)

/-! ### Packed records -/

/-- The records one below the other from `e` down, in slot order. -/
def packed : Nat → List (Option Placed) → List (Option Placed)
  | _, [] => []
  | e, l :: ls => (l.map fun x => (e - x.2.length, x.2)) :: packed (e - (entry l).length) ls

section Packed

variable {e : Nat} {ls : List (Option Placed)}

theorem used_cons (l : Option Placed) (ls : List (Option Placed)) :
    used (l :: ls) = (entry l).length + used ls := sum_cons

/-- The records move and do not change. -/
theorem packed_records (e : Nat) (ls : List (Option Placed)) :
    (packed e ls).map (Option.map Prod.snd) = ls.map (Option.map Prod.snd) := by
  induction ls generalizing e with
  | nil => rfl
  | cons l ls ih => cases l <;> simp [packed, ih]

@[simp] theorem length_packed (e : Nat) (ls : List (Option Placed)) :
    (packed e ls).length = ls.length := by
  simpa using congrArg length (packed_records e ls)

theorem used_packed (e : Nat) (ls : List (Option Placed)) : used (packed e ls) = used ls := by
  induction ls generalizing e with
  | nil => rfl
  | cons l ls ih => cases l <;> simp [packed, used_cons, entry, ih]

theorem packed_place (hroom : used ls ≤ e) (y : Placed) (hy : some y ∈ packed e ls) :
    e - used ls ≤ y.1 ∧ y.1 + y.2.length ≤ e := by
  induction ls generalizing e with
  | nil => cases hy
  | cons l ls ih =>
    rw [used_cons] at hroom ⊢
    rcases mem_cons.1 hy with hy | hy
    · obtain ⟨x, rfl, rfl⟩ := Option.map_eq_some_iff.1 hy.symm
      simp only [entry] at hroom ⊢
      omega
    · have := ih (e := e - (entry l).length) (by omega) hy
      omega

theorem packed_apart (hroom : used ls ≤ e) (i j : Nat) (x y : Placed) (hij : i ≠ j)
    (hx : (packed e ls)[i]? = some (some x)) (hy : (packed e ls)[j]? = some (some y)) :
    Apart x y := by
  induction ls generalizing e i j with
  | nil => cases hx
  | cons l ls ih =>
    rw [used_cons] at hroom
    have hroom' : used ls ≤ e - (entry l).length := by omega
    -- what follows a record lies below it
    have hbelow : ∀ {k : Nat} {z w : Placed}, (packed e (l :: ls))[0]? = some (some z) →
        (packed e (l :: ls))[k + 1]? = some (some w) → w.1 + w.2.length ≤ z.1 := by
      intro k z w hz hw
      obtain ⟨v, rfl, rfl⟩ := Option.map_eq_some_iff.1 (Option.some.inj hz)
      exact (packed_place hroom' w (mem_of_getElem? hw)).2
    cases i with
    | zero =>
      cases j with
      | zero => exact absurd rfl hij
      | succ j => exact .inr (hbelow hx hy)
    | succ i =>
      cases j with
      | zero => exact .inl (hbelow hy hx)
      | succ j => exact ih hroom' i j (by omega) hx hy

/-- Between the last record and `e` there is no gap. -/
theorem packed_covers (hroom : used ls ≤ e) {b : Nat} (hlow : e - used ls ≤ b) (hhigh : b < e) :
    ∃ (i : Nat) (x : Placed), (packed e ls)[i]? = some (some x) ∧ x.1 ≤ b ∧ b < x.1 + x.2.length := by
  induction ls generalizing e with
  | nil =>
    simp only [used, map_nil, sum_nil] at hlow
    omega
  | cons l ls ih =>
    rw [used_cons] at hroom hlow
    rcases lt_or_ge b (e - (entry l).length) with hb | hb
    · obtain ⟨i, x, hx, hin⟩ := ih (e := e - (entry l).length) (by omega) (by omega) hb
      exact ⟨i + 1, x, hx, hin⟩
    · cases l with
      | none =>
        simp only [entry] at hb
        omega
      | some x =>
        simp only [entry] at hb hroom
        exact ⟨0, (e - x.2.length, x.2), rfl, hb, by dsimp only; omega⟩

end Packed

/-! ### The loop -/

/-- A slot as two numbers. -/
theorem slot_at_eq (page : Page) {i : Nat} (hi : slot_off i + 4 ≤ PAGE_SIZE) :
    slot_at page i = some ⟨le_nat (slice page.bytes (slot_off i) 2),
      le_nat (slice page.bytes (slot_off i + 2) 2)⟩ := by
  have htake : (slice page.bytes (slot_off i) 4).take 2 = slice page.bytes (slot_off i) 2 := by
    simp [slice, take_take]
  have hdrop : (slice page.bytes (slot_off i) 4).drop 2 = slice page.bytes (slot_off i + 2) 2 := by
    simp [slice, drop_take, drop_drop]
  rw [slot_at, peek, if_pos (show slot_off i + SLOT_SIZE ≤ PAGE_SIZE from hi), Option.map_some]
  simp only [SLOT_SIZE, htake, hdrop]

/-- The slots from `i` on have been passed: they point to the packed places,
    where the buffer has the records, and nothing else has changed. -/
structure Moved (pg pg' tmp tmp' : Page) (i e : Nat) (ls : List (Option Placed)) : Prop where
  slots : ∀ j l, (packed e ls)[j]? = some l → slot_at pg' (i + j) = some (entry l)
  frame : ∀ o m, o + m ≤ slot_off i ∨ slot_off (i + ls.length) ≤ o →
    slice pg'.bytes o m = slice pg.bytes o m
  buffer : ∀ x, some x ∈ packed e ls → slice tmp'.bytes x.1 x.2.length = x.2
  above : ∀ o m, e ≤ o → slice tmp'.bytes o m = slice tmp.bytes o m

variable {pg pg₁ pg' tmp tmp₁ tmp' : Page} {i e : Nat} {l : Option Placed} {ls : List (Option Placed)}

theorem Moved.slot_at (h : Moved pg pg' tmp tmp' i e ls) {k : Nat} (hk : slot_off k + 4 ≤ PAGE_SIZE)
    (ho : k < i ∨ i + ls.length ≤ k) : SlotPage.slot_at pg' k = SlotPage.slot_at pg k := by
  rw [slot_at_eq pg' hk, slot_at_eq pg hk, h.frame _ _ (by simp only [slot_off_eq]; omega),
    h.frame _ _ (by simp only [slot_off_eq]; omega)]

/-- Slot after slot. -/
theorem Moved.cons (hi : slot_off i + 4 ≤ PAGE_SIZE) (h : Moved pg pg₁ tmp tmp₁ i e [l])
    (hs : Moved pg₁ pg' tmp₁ tmp' (i + 1) (e - (entry l).length) ls) :
    Moved pg pg' tmp tmp' i e (l :: ls) where
  slots := by
    intro j l' hj
    cases j with
    | zero =>
      rw [Nat.add_zero, hs.slot_at hi (by omega)]
      exact h.slots 0 l' hj
    | succ j =>
      rw [← Nat.add_assoc, Nat.add_right_comm]
      exact hs.slots j l' hj
  frame := by
    intro o m ho
    simp only [length_cons, slot_off_eq] at ho
    rw [hs.frame o m (by simp only [slot_off_eq]; omega),
      h.frame o m (by simp only [slot_off_eq, length_singleton]; omega)]
  buffer := by
    intro x hx
    rcases mem_cons.1 hx with hx | hx
    · obtain ⟨y, rfl, rfl⟩ := Option.map_eq_some_iff.1 hx.symm
      exact (hs.above _ _ le_rfl).trans (h.buffer _ (mem_singleton.2 rfl))
    · exact hs.buffer x hx
  above := fun o m ho => by rw [hs.above o m (by omega), h.above o m ho]

theorem compact_slot_moved (tmp : Page) (hroom : (entry l).length ≤ e) (he : e ≤ PAGE_SIZE)
    (hi : slot_off i + 4 ≤ PAGE_SIZE) (hslot : slot_at pg i = some (entry l))
    (hplace : ∀ x, some x = l → slot_off (i + 1) ≤ x.1 ∧ x.1 + x.2.length ≤ PAGE_SIZE ∧
      slice pg.bytes x.1 x.2.length = x.2) :
    ∃ pg' tmp', compact_slot i (pg, tmp, e) = some (pg', tmp', e - (entry l).length) ∧
      Moved pg pg' tmp tmp' i e [l] := by
  cases l with
  | none =>
    refine ⟨pg, tmp, by simp [compact_slot, hslot, entry], fun j l hj => ?_, fun _ _ _ => rfl,
      fun x hx => by simp [packed] at hx, fun _ _ _ => rfl⟩
    obtain ⟨rfl, rfl⟩ : j = 0 ∧ none = l := by simpa [packed, getElem?_singleton] using hj
    exact hslot
  | some x =>
    obtain ⟨hlow, hhigh, hbytes⟩ := hplace x rfl
    simp only [slot_off_eq, page_size_eq, entry] at hlow he hi hroom ⊢
    have hl₂ : (le_bytes 2 (e - x.2.length)).length = 2 := le_bytes_length _ _
    obtain ⟨t₁, ht₁, wt⟩ := poke_wrote tmp (e - x.2.length) x.2 (by rw [page_size_eq]; omega)
    obtain ⟨p₁, hp₁, wp⟩ := poke_wrote pg (slot_off i) (le_bytes 2 (e - x.2.length))
      (by rw [page_size_eq, slot_off_eq, hl₂]; omega)
    have hne : x.1 ≠ 0 := by omega
    have hend : sub16 e x.2.length = e - x.2.length := by
      simp only [sub16, u16]
      omega
    have hpeek : peek pg x.1 x.2.length = some x.2 := by rw [peek, if_pos hhigh, hbytes]
    refine ⟨p₁, t₁, by simp [compact_slot, hslot, entry, hne, hend, hpeek, ht₁, hp₁],
      fun j l hj => ?_, fun o m ho => wp.other ?_, fun y hy => ?_, fun o m ho => wt.other (by omega)⟩
    · obtain ⟨rfl, rfl⟩ : j = 0 ∧ some (e - x.2.length, x.2) = l := by
        simpa [packed, getElem?_singleton] using hj
      -- only the offset of the slot was written
      have hi' : slot_off i + 4 ≤ PAGE_SIZE := by rw [slot_off_eq, page_size_eq]; omega
      have hlen : le_nat (slice pg.bytes (slot_off i + 2) 2) = x.2.length := by
        rw [slot_at_eq pg hi'] at hslot
        exact congrArg Slot.length (Option.some.inj hslot)
      rw [Nat.add_zero, slot_at_eq p₁ hi', wp.self hl₂, wp.other (by omega), hlen,
        le_nat_le_bytes (by omega)]
      rfl
    · simp only [slot_off_eq, length_singleton] at ho ⊢
      omega
    · obtain rfl : y = (e - x.2.length, x.2) := by simpa [packed] using hy
      exact wt.self rfl

theorem compact_loop_moved (ls : List (Option Placed)) (pg tmp : Page) (i : Nat) {e : Nat}
    (hroom : used ls ≤ e) (he : e ≤ PAGE_SIZE)
    (hslots : ∀ j l, ls[j]? = some l → slot_at pg (i + j) = some (entry l))
    (hplace : ∀ x, some x ∈ ls → slot_off (i + ls.length) ≤ x.1 ∧ x.1 + x.2.length ≤ PAGE_SIZE ∧
      slice pg.bytes x.1 x.2.length = x.2)
    (harray : slot_off (i + ls.length) ≤ PAGE_SIZE) :
    ∃ pg' tmp', compact_loop ls.length i (pg, tmp, e) = some (pg', tmp', e - used ls) ∧
      Moved pg pg' tmp tmp' i e ls := by
  induction ls generalizing pg tmp i e with
  | nil =>
    exact ⟨pg, tmp, rfl, by simp [packed], fun _ _ _ => rfl, by simp [packed], fun _ _ _ => rfl⟩
  | cons l ls ih =>
    have hnext : i + (l :: ls).length = i + 1 + ls.length := by simp only [length_cons]; omega
    rw [used_cons] at hroom ⊢
    rw [hnext] at hplace harray
    have hi : slot_off i + 4 ≤ PAGE_SIZE := by
      rw [slot_off_eq] at harray ⊢
      omega
    obtain ⟨p₁, t₁, hstep, hm₁⟩ := compact_slot_moved (l := l) tmp (by omega) he hi
      (hslots 0 l rfl) (fun x hx => by
        obtain ⟨hlow, hrest⟩ := hplace x (hx ▸ mem_cons_self)
        refine ⟨?_, hrest⟩
        rw [slot_off_eq] at hlow ⊢
        omega)
    obtain ⟨pg', tmp', hrun, hm⟩ := ih p₁ t₁ (i + 1) (e := e - (entry l).length) (by omega) (by omega)
      (fun j l hj => by
        have hj' : slot_off (i + 1 + j) + 4 ≤ PAGE_SIZE := by
          have := (List.getElem?_eq_some_iff.1 hj).1
          rw [slot_off_eq] at harray ⊢
          omega
        rw [hm₁.slot_at hj' (by simp only [length_singleton]; omega), Nat.add_right_comm]
        exact hslots (j + 1) l hj)
      (fun y hy => by
        obtain ⟨hlow, hhigh, hbytes⟩ := hplace y (mem_cons_of_mem _ hy)
        refine ⟨hlow, hhigh, ?_⟩
        rw [hm₁.frame _ _ (by simp only [slot_off_eq, length_singleton] at hlow ⊢; omega), hbytes])
      harray
    refine ⟨pg', tmp', ?_, hm₁.cons hi hm⟩
    rw [length_cons, compact_loop, hstep, Option.bind_some, hrun, Nat.sub_sub]

/-- Compaction packs the records at the end of the page; slot numbers stay. -/
theorem Layout.compact {page : Page} {fe : Nat} (h : Layout page ls fe) (tmp : Page) :
    ∃ page', slotpage_compact tmp page = some page' ∧
      Layout page' (packed PAGE_SIZE ls) (PAGE_SIZE - used ls) := by
  have harray := h.array
  have hbound := h.bound
  have hroom := h.room
  obtain ⟨pg, tmp', hrun, hm⟩ := compact_loop_moved ls page tmp 0
    (e := PAGE_SIZE) (by omega) le_rfl
    (fun j l hj => by rw [Nat.zero_add]; exact h.slot j l hj)
    (fun x hx => by
      obtain ⟨hlow, hrest⟩ := h.place x hx
      exact ⟨by rw [Nat.zero_add]; exact harray.trans hlow, hrest⟩)
    (by rw [Nat.zero_add]; exact harray.trans hbound)
  -- from here on `e` is the new end of the free space
  obtain ⟨e, he⟩ : ∃ e, e = PAGE_SIZE - used ls := ⟨_, rfl⟩
  rw [← he] at hrun ⊢
  rw [slot_off_eq] at harray
  rw [page_size_eq] at hbound hroom he
  have hlen : (slice tmp'.bytes e (PAGE_SIZE - e)).length = PAGE_SIZE - e := by
    refine length_slice ?_
    rw [tmp'.size, page_size_eq]
    omega
  obtain ⟨p₁, hp₁, w₁⟩ := poke_wrote pg e (slice tmp'.bytes e (PAGE_SIZE - e))
    (by rw [hlen, page_size_eq]; omega)
  obtain ⟨p₂, hp₂, w₂⟩ := poke_wrote p₁ 2 (le_bytes 2 e) (by rw [page_size_eq]; simp)
  have hl₂ : (le_bytes 2 e).length = 2 := le_bytes_length _ _
  have hpeek : peek tmp' e (PAGE_SIZE - e) = some (slice tmp'.bytes e (PAGE_SIZE - e)) :=
    if_pos (by rw [page_size_eq]; omega)
  have hroom' : used ls ≤ PAGE_SIZE := by
    rw [page_size_eq]
    omega
  refine ⟨p₂, by simp [slotpage_compact, h.count, hrun, hpeek, hp₁, hp₂], ?_, ?_, ?_, ?_, ?_, ?_,
    packed_apart hroom', ?_⟩
  · rw [slotpage_num_slots, w₂.other (by omega), w₁.other (by omega),
      hm.frame _ _ (by simp only [slot_off_eq]; omega), length_packed]
    exact h.count
  · rw [free_end, w₂.self hl₂, le_nat_le_bytes (by omega)]
  · rw [length_packed, slot_off_eq]
    omega
  · rw [page_size_eq]
    omega
  · intro j l hj
    have hjlt := (List.getElem?_eq_some_iff.1 hj).1
    rw [length_packed] at hjlt
    rw [w₂.slot_at (by rw [slot_off_eq]; omega), w₁.slot_at (by rw [slot_off_eq]; omega),
      ← Nat.zero_add j]
    exact hm.slots j l hj
  · intro y hy
    obtain ⟨hlow, hhigh⟩ := packed_place hroom' y hy
    rw [page_size_eq] at hlow hhigh
    refine ⟨by omega, by rw [page_size_eq]; omega, ?_⟩
    -- the record is a part of what was copied back
    have hpart : slice (slice p₁.bytes e (PAGE_SIZE - e)) (y.1 - e) y.2.length =
      slice p₁.bytes (e + (y.1 - e)) y.2.length := slice_slice (by rw [page_size_eq]; omega)
    rw [w₁.self hlen, slice_slice (by rw [page_size_eq]; omega),
      Nat.add_sub_cancel' (by omega)] at hpart
    rw [w₂.other (by omega), ← hpart, hm.buffer y hy]
  · rw [used_packed, page_size_eq]
    omega

/-! ### Pages made by the operations -/

/-- The total length of the live records. -/
def live_length (page : Page) : Nat :=
  ((range (slotpage_num_slots page)).map fun i =>
    match get_record page i with
    | some (some rec) => rec.length
    | _ => 0).sum

/-- The calls; a record is no longer than a page. -/
inductive PageOp where
  | insert (rec : List UInt8) (hlen : rec.length ≤ PAGE_SIZE)
  | delete (slot : Nat)
  | overwrite (slot : Nat) (rec : List UInt8) (hlen : rec.length ≤ PAGE_SIZE)
  | compact (tmp : Page)

def PageOp.step (page : Page) : PageOp → Option Page
  | .insert rec _ => (slotpage_insert page rec).map Prod.fst
  | .delete slot => (slotpage_delete page slot).map Prod.fst
  | .overwrite slot rec _ => (slotpage_overwrite page slot rec).map Prod.fst
  | .compact tmp => slotpage_compact tmp page

namespace Layout

variable {page : Page} {fe : Nat}

variable (h : Layout page ls fe)

include h

theorem step (op : PageOp) :
    ∃ page', op.step page = some page' ∧ ∃ ls' fe', Layout page' ls' fe' := by
  -- a call that leaves the page as it is, and one that makes another of it
  have hkeep : ∀ {α : Type} {r : Option (Page × α)} {a : α}, r = some (page, a) →
      ∃ page', r.map Prod.fst = some page' ∧ ∃ ls' fe', Layout page' ls' fe' :=
    fun hr => ⟨page, by rw [hr]; rfl, ls, fe, h⟩
  have hmake : ∀ {α : Type} {r : Option (Page × α)} {a : α} {ls' fe'},
      (∃ page', r = some (page', a) ∧ Layout page' ls' fe') →
      ∃ page', r.map Prod.fst = some page' ∧ ∃ ls' fe', Layout page' ls' fe' :=
    fun ⟨page', hr, h'⟩ => ⟨page', by rw [hr]; rfl, _, _, h'⟩
  cases op with
  | insert rec hlen =>
    rw [page_size_eq] at hlen
    have hins := h.insert (show rec.length + 4 < 65536 by omega)
    split at hins
    · exact hmake hins
    · exact hkeep hins
  | delete slot =>
    rcases lt_or_ge slot ls.length with hi | hi
    · exact hmake (h.delete hi)
    · exact hkeep (by rw [slotpage_delete, h.count, if_pos hi])
  | overwrite slot rec hlen =>
    by_cases hex : ∃ x, ls[slot]? = some (some x) ∧ rec.length = x.2.length
    · obtain ⟨x, hx, hlen⟩ := hex
      exact hmake (h.overwrite hx hlen)
    · exact hkeep (h.overwrite_refused fun x hx hlen => hex ⟨x, hx, hlen.symm⟩)
  | compact tmp =>
    obtain ⟨page', hcall, h'⟩ := h.compact tmp
    exact ⟨page', hcall, _, _, h'⟩

theorem run (ops : List PageOp) :
    ∃ page', Framework.run PageOp.step page ops = some page' ∧ ∃ ls' fe', Layout page' ls' fe' := by
  induction ops generalizing page ls fe with
  | nil => exact ⟨page, rfl, ls, fe, h⟩
  | cons op ops ih =>
    obtain ⟨page₁, hstep, ls₁, fe₁, h₁⟩ := h.step op
    obtain ⟨page', hrun, h'⟩ := ih h₁
    exact ⟨page', by rw [Framework.run, hstep]; exact hrun, h'⟩

theorem live_length : SlotPage.live_length page = used ls := by
  rw [SlotPage.live_length, used, h.count]
  congr 1
  apply ext_getElem (by simp)
  intro i hi hi'
  simp only [getElem_map, getElem_range, get_record_layout h]
  rw [length_map] at hi'
  rw [getElem?_eq_getElem hi']
  cases ls[i] <;> rfl

/-- A page and the same page compacted. -/
theorem compacted {page' : Page}
    (h' : Layout page' (packed PAGE_SIZE ls) (PAGE_SIZE - used ls)) :
    slotpage_num_slots page' = slotpage_num_slots page ∧
      (∀ slot, get_record page' slot = get_record page slot) ∧
      slotpage_free_space page' =
        PAGE_SIZE - HEADER_SIZE - slotpage_num_slots page * SLOT_SIZE - SlotPage.live_length page := by
  refine ⟨by rw [h'.count, h.count, length_packed], fun slot => ?_, ?_⟩
  · rw [get_record_layout h', get_record_layout h, ← Option.join_map_eq_map_join, ← getElem?_map,
      packed_records, getElem?_map, Option.join_map_eq_map_join]
  · rw [h'.free_space, h.count, h.live_length, length_packed, slot_off]
    omega

end Layout

/-- On every page that the operations make of a fresh one, compaction keeps
    the slots and their records, leaves no gap between the records and the end
    of the page, and makes free all that the header, the slots and the live
    records do not need; a second one finds nothing more to free. -/
theorem slotpage_compact_exact (page₀ tmp tmp' : Page) (ops : List PageOp) :
    ∃ page page' page'', (slotpage_init page₀).bind (run PageOp.step · ops) = some page ∧
      slotpage_compact tmp page = some page' ∧ slotpage_compact tmp' page' = some page'' ∧
      slotpage_num_slots page' = slotpage_num_slots page ∧
      (∀ slot, (get_record page slot).isSome ∧ get_record page' slot = get_record page slot) ∧
      (∀ b, (free_end page' ≤ b ∧ b < PAGE_SIZE) ↔ ∃ slot s,
        slotpage_get page' slot = some (some s) ∧ s.offset ≤ b ∧ b < s.offset + s.length) ∧
      HEADER_SIZE + slotpage_num_slots page * SLOT_SIZE + live_length page ≤ PAGE_SIZE ∧
      slotpage_free_space page' =
        PAGE_SIZE - HEADER_SIZE - slotpage_num_slots page * SLOT_SIZE - live_length page ∧
      slotpage_num_slots page'' = slotpage_num_slots page' ∧
      (∀ slot, get_record page'' slot = get_record page' slot) ∧
      slotpage_free_space page'' = slotpage_free_space page' := by
  obtain ⟨p₀, hinit, h₀⟩ := Layout.init page₀
  obtain ⟨page, hrun, ls, fe, h⟩ := h₀.run ops
  obtain ⟨page', hcall, h'⟩ := h.compact tmp
  obtain ⟨page'', hcall', h''⟩ := h'.compact tmp'
  obtain ⟨hnum, hrec, hfree⟩ := h.compacted h'
  obtain ⟨hnum', hrec', hfree'⟩ := h'.compacted h''
  have hroom : used ls ≤ PAGE_SIZE := h.room.trans (Nat.sub_le _ _)
  refine ⟨page, page', page'', by rw [hinit]; exact hrun, hcall, hcall', hnum,
    fun slot => ⟨by rw [get_record_layout h]; rfl, hrec slot⟩, fun b => ⟨?_, ?_⟩, ?_, hfree, hnum', hrec', ?_⟩
  · rintro ⟨hlow, hhigh⟩
    rw [h'.top] at hlow
    obtain ⟨slot, x, hx, hin⟩ := packed_covers hroom hlow hhigh
    exact ⟨slot, _, by rw [h'.get, hx]; rfl, hin⟩
  · rintro ⟨slot, s, hget, hlow, hhigh⟩
    rw [h'.get] at hget
    obtain ⟨x, hx, rfl⟩ := Option.map_eq_some_iff.1 (Option.some.inj hget)
    have hin := packed_place hroom x (mem_of_getElem? (Option.join_eq_some_iff.1 hx))
    rw [h'.top]
    dsimp only at hlow hhigh
    omega
  · have harray := h'.array
    rw [length_packed, slot_off] at harray
    rw [h.count, h.live_length]
    have := h.bound
    omega
  · rw [hfree', hfree, hnum, h.live_length, h'.live_length, used_packed]

end MiniDb.SlotPage
