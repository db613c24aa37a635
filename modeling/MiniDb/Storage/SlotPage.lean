import MiniDb.Framework.Buffer
import MiniDb.Framework.Bytes
import MiniDb.Storage.Pager

/-! # Slotted pages (page.c)

  The bytes of a heap page: a header of two 16-bit numbers, the slot array
  that grows up from it, and the records that grow down from the end.  The
  source computes offsets in 16 bits and reads and writes through raw
  pointers; here a read or write that leaves the page is `none`, and sums wrap
  as `uint16_t` does.

  `Layout` says what a well-formed page holds.  On such a page every operation
  stays inside and does to the records what its name says. -/

namespace MiniDb.SlotPage

open Framework List Option

def HEADER_SIZE : Nat := 4
def SLOT_SIZE : Nat := 4

/-- The value a `uint16_t` keeps. -/
def u16 (n : Nat) : Nat := n % 65536

/-- Difference of two `uint16_t`. -/
def sub16 (a b : Nat) : Nat := u16 (a + 65536 - b)

/-! ### Access to the page -/

/-- Read `n` bytes; `none` when the range leaves the page. -/
def peek (page : Page) (off n : Nat) : Option (List UInt8) :=
  if off + n ≤ PAGE_SIZE then some (slice page.bytes off n) else none

/-- Write bytes; `none` when the range leaves the page. -/
def poke (page : Page) (off : Nat) (bs : List UInt8) : Option Page :=
  if h : off + bs.length ≤ PAGE_SIZE then
    some ⟨splice page.bytes off bs, by rw [length_splice (by rw [page.size]; exact h), page.size]⟩
  else none

/-- `offset` 0 is a deleted slot. -/
structure Slot where
  offset : Nat
  length : Nat
  deriving DecidableEq

def slotpage_num_slots (page : Page) : Nat := le_nat (slice page.bytes 0 2)

def free_end (page : Page) : Nat := le_nat (slice page.bytes 2 2)

def slot_off (i : Nat) : Nat := HEADER_SIZE + i * SLOT_SIZE

def slot_at (page : Page) (i : Nat) : Option Slot :=
  (peek page (slot_off i) SLOT_SIZE).map fun bs => ⟨le_nat (bs.take 2), le_nat (bs.drop 2)⟩

/-! ### Operations -/

def free_start (page : Page) : Nat := u16 (HEADER_SIZE + slotpage_num_slots page * SLOT_SIZE)

/-- The header of an empty page; the bytes behind it stay. -/
def slotpage_init (page : Page) : Option Page :=
  poke page 0 (le_bytes 2 0 ++ le_bytes 2 PAGE_SIZE)

def slotpage_free_space (page : Page) : Nat := sub16 (free_end page) (free_start page)

/-- The inner result is the slot, `none` for no room. -/
def slotpage_insert (page : Page) (rec : List UInt8) : Option (Page × Option Nat) :=
  if slotpage_free_space page < u16 (rec.length + SLOT_SIZE) then some (page, none)
  else do
    let rec_off := sub16 (free_end page) rec.length
    let page ← poke page rec_off rec
    let page ← poke page 2 (le_bytes 2 rec_off)
    let idx := slotpage_num_slots page
    let page ← poke page (slot_off idx) (le_bytes 2 rec_off ++ le_bytes 2 rec.length)
    let page ← poke page 0 (le_bytes 2 (idx + 1))
    some (page, some idx)

/-- Where a record is; the inner `none` is a slot that does not exist or is deleted. -/
def slotpage_get (page : Page) (slot : Nat) : Option (Option Slot) :=
  if slotpage_num_slots page ≤ slot then some none
  else (slot_at page slot).map fun s => if s.offset = 0 then none else some s

/-- The flag is the return code: the slot exists. -/
def slotpage_delete (page : Page) (slot : Nat) : Option (Page × Bool) :=
  if slotpage_num_slots page ≤ slot then some (page, false)
  else (poke page (slot_off slot) (le_bytes 2 0 ++ le_bytes 2 0)).map (·, true)

/-- Only a live record of the same length is overwritten. -/
def slotpage_overwrite (page : Page) (slot : Nat) (rec : List UInt8) : Option (Page × Bool) :=
  if slotpage_num_slots page ≤ slot then some (page, false)
  else do
    let s ← slot_at page slot
    if s.offset = 0 ∨ s.length ≠ rec.length then some (page, false)
    else (poke page s.offset rec).map (·, true)

/-! ### Well-formed pages -/

/-- A record and its place. -/
abbrev Placed := Nat × List UInt8

/-- What a slot says of its record. -/
def entry : Option Placed → Slot
  | none => ⟨0, 0⟩
  | some x => ⟨x.1, x.2.length⟩

/-- The bytes in use. -/
def used (ls : List (Option Placed)) : Nat := (ls.map fun l => (entry l).length).sum

def Apart (x y : Placed) : Prop := x.1 + x.2.length ≤ y.1 ∨ y.1 + y.2.length ≤ x.1

/-- The page holds the records `ls`, in slot order, each in its place between
    `fe` and the end of the page. -/
structure Layout (page : Page) (ls : List (Option Placed)) (fe : Nat) : Prop where
  count : slotpage_num_slots page = ls.length
  top : free_end page = fe
  array : slot_off ls.length ≤ fe
  bound : fe ≤ PAGE_SIZE
  slot : ∀ i l, ls[i]? = some l → slot_at page i = some (entry l)
  place : ∀ x, some x ∈ ls → fe ≤ x.1 ∧ x.1 + x.2.length ≤ PAGE_SIZE ∧
    slice page.bytes x.1 x.2.length = x.2
  apart : ∀ (i j : Nat) x y, i ≠ j → ls[i]? = some (some x) → ls[j]? = some (some y) → Apart x y
  room : used ls ≤ PAGE_SIZE - fe

/-! ### Reading after a write -/

theorem slot_off_eq (i : Nat) : slot_off i = 4 + i * 4 := rfl

theorem page_size_eq : PAGE_SIZE = 4096 := rfl

/-- `page'` is `page` with `bs` written at `off`. -/
structure Wrote (page page' : Page) (off : Nat) (bs : List UInt8) : Prop where
  fits : off + bs.length ≤ PAGE_SIZE
  bytes : page'.bytes = splice page.bytes off bs

theorem poke_wrote (page : Page) (off : Nat) (bs : List UInt8) (h : off + bs.length ≤ PAGE_SIZE) :
    ∃ page', poke page off bs = some page' ∧ Wrote page page' off bs :=
  ⟨_, dif_pos h, h, rfl⟩

namespace Wrote

variable {page page' : Page} {off : Nat} {bs : List UInt8}

variable (h : Wrote page page' off bs)

include h

theorem inside : off + bs.length ≤ page.bytes.length := by
  rw [page.size]
  exact h.fits

theorem self {n : Nat} (hn : bs.length = n) : slice page'.bytes off n = bs := by
  subst hn
  rw [h.bytes, slice_splice_self h.inside]

theorem other {o m : Nat} (ho : o + m ≤ off ∨ off + bs.length ≤ o) :
    slice page'.bytes o m = slice page.bytes o m := by
  rw [h.bytes, slice_splice_other h.inside ho]

/-- A slot beside the write. -/
theorem slot_at {i : Nat} (ho : slot_off i + 4 ≤ off ∨ off + bs.length ≤ slot_off i) :
    SlotPage.slot_at page' i = SlotPage.slot_at page i := by
  rw [SlotPage.slot_at, SlotPage.slot_at, peek, peek, show SLOT_SIZE = 4 from rfl, h.other ho]

end Wrote

/-- A slot as its four bytes say. -/
theorem slot_at_of_slice {page : Page} {i o l : Nat} (hi : slot_off i + 4 ≤ PAGE_SIZE)
    (ho : o < 65536) (hl : l < 65536)
    (h : slice page.bytes (slot_off i) 4 = le_bytes 2 o ++ le_bytes 2 l) :
    slot_at page i = some ⟨o, l⟩ := by
  have htake : (le_bytes 2 o ++ le_bytes 2 l).take 2 = le_bytes 2 o :=
    take_left' (le_bytes_length 2 o)
  have hdrop : (le_bytes 2 o ++ le_bytes 2 l).drop 2 = le_bytes 2 l :=
    drop_left' (le_bytes_length 2 o)
  simp only [slot_at, peek, SLOT_SIZE, if_pos hi, h, map_some, htake, hdrop,
    le_nat_le_bytes (w := 2) ho, le_nat_le_bytes (w := 2) hl]

/-! ### The operations on a well-formed page -/

namespace Layout

variable {page page' : Page} {ls : List (Option Placed)} {fe : Nat}

theorem init (page : Page) : ∃ page', slotpage_init page = some page' ∧ Layout page' [] PAGE_SIZE := by
  obtain ⟨page', hpoke, hw⟩ := poke_wrote page 0
    (le_bytes 2 0 ++ le_bytes 2 PAGE_SIZE) (by simp [page_size_eq])
  have hall := hw.self (n := 4) (by simp)
  have hnum : slice page'.bytes 0 2 = le_bytes 2 0 := by
    have hpart : slice (slice page'.bytes 0 4) 0 2 = slice page'.bytes 0 2 := slice_slice (by omega)
    rw [← hpart, hall]
    rfl
  have hend : slice page'.bytes 2 2 = le_bytes 2 PAGE_SIZE := by
    have hpart : slice (slice page'.bytes 0 4) 2 2 = slice page'.bytes 2 2 := slice_slice (by omega)
    rw [← hpart, hall]
    rfl
  refine ⟨page', hpoke, ?_, ?_, by decide, le_rfl, by simp, by simp, by simp, by simp [used]⟩
  · rw [slotpage_num_slots, hnum]
    rfl
  · rw [free_end, hend]
    rfl

variable (h : Layout page ls fe)

include h

/-- The free space of a page that is in order does not wrap. -/
theorem free_space : slotpage_free_space page = fe - slot_off ls.length := by
  have harray := h.array
  have hbound := h.bound
  rw [slot_off_eq] at harray
  rw [page_size_eq] at hbound
  simp only [slotpage_free_space, free_start, h.count, h.top, sub16, u16, slot_off, HEADER_SIZE,
    SLOT_SIZE]
  omega

variable {rec : List UInt8} {x : Placed} {i : Nat}

/-- The record goes below the others and its slot behind the others. -/
theorem insert (hlen : rec.length + 4 < 65536) :
    if slot_off ls.length + (rec.length + 4) ≤ fe then
      ∃ page', slotpage_insert page rec = some (page', some ls.length) ∧
        Layout page' (ls ++ [some (fe - rec.length, rec)]) (fe - rec.length)
    else slotpage_insert page rec = some (page, none) := by
  have harray := h.array
  have hbound := h.bound
  rw [slot_off_eq] at harray
  rw [page_size_eq] at hbound
  have hneed : u16 (rec.length + SLOT_SIZE) = rec.length + 4 := Nat.mod_eq_of_lt hlen
  rw [slotpage_insert, h.free_space, hneed]
  rw [slot_off_eq]
  split
  · next hfits =>
    rw [if_neg (by omega)]
    have hoff : sub16 (free_end page) rec.length = fe - rec.length := by
      rw [h.top, sub16, u16]
      omega
    rw [hoff]
    -- the four writes
    obtain ⟨p₁, hp₁, w₁⟩ := poke_wrote page (fe - rec.length) rec
      (by rw [page_size_eq]; omega)
    obtain ⟨p₂, hp₂, w₂⟩ := poke_wrote p₁ 2
      (le_bytes 2 (fe - rec.length)) (by rw [page_size_eq]; simp)
    have hidx : slotpage_num_slots p₂ = ls.length := by
      rw [slotpage_num_slots, w₂.other (by omega), w₁.other (by omega)]
      exact h.count
    obtain ⟨p₃, hp₃, w₃⟩ := poke_wrote p₂ (slot_off ls.length)
      (le_bytes 2 (fe - rec.length) ++ le_bytes 2 rec.length)
      (by rw [page_size_eq, slot_off_eq]; simp; omega)
    obtain ⟨p₄, hp₄, w₄⟩ := poke_wrote p₃ 0
      (le_bytes 2 (ls.length + 1)) (by rw [page_size_eq]; simp)
    have hl₂ : (le_bytes 2 (fe - rec.length)).length = 2 := le_bytes_length _ _
    have hl₃ : (le_bytes 2 (fe - rec.length) ++ le_bytes 2 rec.length).length = 4 := by simp
    have hl₄ : (le_bytes 2 (ls.length + 1)).length = 2 := le_bytes_length _ _
    refine ⟨p₄, by simp [hp₁, hp₂, hidx, hp₃, hp₄], ?_⟩
    have hnew : slice p₄.bytes (fe - rec.length) rec.length = rec := by
      rw [w₄.other (by omega), w₃.other (by rw [slot_off_eq]; omega), w₂.other (by omega),
        w₁.self rfl]
    have hold : ∀ x, some x ∈ ls → slice p₄.bytes x.1 x.2.length = x.2 := by
      intro x hx
      obtain ⟨hlow, -, hbytes⟩ := h.place x hx
      rw [w₄.other (by omega), w₃.other (by rw [slot_off_eq]; omega), w₂.other (by omega),
        w₁.other (by omega), hbytes]
    refine ⟨?_, ?_, by simp [slot_off_eq]; omega, by rw [page_size_eq]; omega, ?_, ?_, ?_, ?_⟩
    · rw [slotpage_num_slots, w₄.self hl₄, le_nat_le_bytes (by omega)]
      simp
    · rw [free_end, w₄.other (by omega), w₃.other (by rw [slot_off_eq]; omega), w₂.self hl₂,
        le_nat_le_bytes (by omega)]
    · intro i l hl
      rcases lt_or_ge i ls.length with hi | hi
      · rw [List.getElem?_append_left hi] at hl
        rw [w₄.slot_at (by rw [slot_off_eq]; omega), w₃.slot_at (by simp only [slot_off_eq]; omega),
          w₂.slot_at (by rw [slot_off_eq]; omega), w₁.slot_at (by rw [slot_off_eq]; omega)]
        exact h.slot i l hl
      · have hi' : i = ls.length := by
          have := (List.getElem?_eq_some_iff.1 hl).1
          simp at this
          omega
        subst hi'
        simp at hl
        subst hl
        refine slot_at_of_slice (by rw [slot_off_eq, page_size_eq]; omega) (by omega)
          (by dsimp only; omega) ?_
        rw [w₄.other (by rw [slot_off_eq]; omega), w₃.self hl₃]
    · intro x hx
      rcases mem_append.1 hx with hx | hx
      · obtain ⟨hlow, hhigh, -⟩ := h.place x hx
        exact ⟨by omega, hhigh, hold x hx⟩
      · simp at hx
        subst hx
        exact ⟨le_rfl, by dsimp only; rw [page_size_eq]; omega, hnew⟩
    · -- the new record lies below every old one
      have hlast : ∀ k z, (ls ++ [some (fe - rec.length, rec)])[k]? = some (some z) →
          ls[k]? = some (some z) ∨ k = ls.length ∧ z = (fe - rec.length, rec) := by
        intro k z hk
        rcases lt_or_ge k ls.length with hlt | hge
        · exact .inl (by rwa [List.getElem?_append_left hlt] at hk)
        · rw [List.getElem?_append_right hge, List.getElem?_singleton] at hk
          split at hk
          · next hz =>
            simp at hk
            exact .inr ⟨by omega, hk.symm⟩
          · cases hk
      have hbelow : ∀ (k : Nat) (z : Placed), ls[k]? = some (some z) → fe - rec.length + rec.length ≤ z.1 := by
        intro k z hk
        have := (h.place z (mem_of_getElem? hk)).1
        omega
      intro i j x y hij hx hy
      rcases hlast i x hx with hx | ⟨hi, rfl⟩ <;> rcases hlast j y hy with hy | ⟨hj, rfl⟩
      · exact h.apart i j x y hij hx hy
      · exact .inr (hbelow i x hx)
      · exact .inl (hbelow j y hy)
      · omega
    · have hroom := h.room
      rw [page_size_eq] at hroom ⊢
      simp [used, entry] at hroom ⊢
      omega
  · next hfull =>
    rw [if_pos (by omega)]

/-- Where a record is. -/
theorem get (i : Nat) :
    slotpage_get page i = some ((ls[i]?.join).map fun x => ⟨x.1, x.2.length⟩) := by
  rw [slotpage_get, h.count]
  split
  · next hi => rw [getElem?_eq_none hi]; rfl
  · next hi =>
    obtain ⟨l, hl⟩ : ∃ l, ls[i]? = some l := ⟨_, getElem?_eq_getElem (not_le.1 hi)⟩
    rw [h.slot i l hl, hl]
    cases l with
    | none => rfl
    | some x =>
      have hlow := (h.place x (mem_of_getElem? hl)).1
      have harray := h.array
      rw [slot_off_eq] at harray
      have hne : x.1 ≠ 0 := by omega
      simp [hne, entry]

/-- A record is read whole. -/
theorem peek_record (hx : some x ∈ ls) : peek page x.1 x.2.length = some x.2 := by
  obtain ⟨-, hhigh, hbytes⟩ := h.place x hx
  rw [peek, if_pos hhigh, hbytes]

omit h in
theorem used_set_none (ls : List (Option Placed)) (i : Nat) : used (ls.set i none) ≤ used ls := by
  induction ls generalizing i with
  | nil => simp
  | cons l ls ih =>
    cases i with
    | zero => simp [used, entry]
    | succ i =>
      have := ih i
      simp only [used, set_cons_succ, map_cons, sum_cons] at this ⊢
      omega

/-- A deleted slot keeps its number. -/
theorem delete (hi : i < ls.length) :
    ∃ page', slotpage_delete page i = some (page', true) ∧ Layout page' (ls.set i none) fe := by
  have harray := h.array
  have hbound := h.bound
  rw [slot_off_eq] at harray
  rw [page_size_eq] at hbound
  obtain ⟨page', hpoke, hw⟩ := poke_wrote page (slot_off i)
    (le_bytes 2 0 ++ le_bytes 2 0) (by rw [page_size_eq, slot_off_eq]; simp; omega)
  have hl : (le_bytes 2 0 ++ le_bytes 2 0).length = 4 := rfl
  refine ⟨page', by rw [slotpage_delete, h.count, if_neg (not_le.2 hi), hpoke]; rfl, ?_⟩
  refine ⟨?_, ?_, by simpa [slot_off_eq] using harray, h.bound, ?_, ?_, ?_, ?_⟩
  · rw [slotpage_num_slots, hw.other (by rw [slot_off_eq]; omega), length_set]
    exact h.count
  · rw [free_end, hw.other (by rw [slot_off_eq]; omega)]
    exact h.top
  · intro j l hj
    rcases eq_or_ne i j with rfl | hij
    · rw [List.getElem?_set_self hi] at hj
      cases hj
      refine slot_at_of_slice (by rw [slot_off_eq, page_size_eq]; omega) (by decide) (by decide) ?_
      exact hw.self hl
    · rw [List.getElem?_set_ne hij] at hj
      have hjlt := (List.getElem?_eq_some_iff.1 hj).1
      rw [hw.slot_at (by simp only [slot_off_eq]; omega)]
      exact h.slot j l hj
  · intro x hx
    rcases mem_or_eq_of_mem_set hx with hx | hx
    · obtain ⟨hlow, hhigh, hbytes⟩ := h.place x hx
      refine ⟨hlow, hhigh, ?_⟩
      rw [hw.other (by rw [slot_off_eq]; omega), hbytes]
    · cases hx
  · intro j k x y hjk hx hy
    have hkeep : ∀ (m : Nat) (z : Placed), (ls.set i none)[m]? = some (some z) → ls[m]? = some (some z) := by
      intro m z hm
      rcases eq_or_ne i m with rfl | him
      · rw [List.getElem?_set_self hi] at hm
        cases hm
      · rwa [List.getElem?_set_ne him] at hm
    exact h.apart j k x y hjk (hkeep j x hx) (hkeep k y hy)
  · exact (used_set_none ls i).trans h.room

omit h in
theorem used_set {ls : List (Option Placed)} (hi : ls[i]? = some (some x))
    (hlen : rec.length = x.2.length) : used (ls.set i (some (x.1, rec))) = used ls := by
  induction ls generalizing i with
  | nil => simp at hi
  | cons l ls ih =>
    cases i with
    | zero =>
      cases (some.inj hi)
      simp [used, entry, hlen]
    | succ i =>
      have := ih (i := i) hi
      simp only [used, set_cons_succ, map_cons, sum_cons] at this ⊢
      omega

/-- A record of the same length takes the place of the old one. -/
theorem overwrite (hi : ls[i]? = some (some x)) (hlen : rec.length = x.2.length) :
    ∃ page', slotpage_overwrite page i rec = some (page', true) ∧
      Layout page' (ls.set i (some (x.1, rec))) fe := by
  have harray := h.array
  rw [slot_off_eq] at harray
  obtain ⟨hlow, hhigh, -⟩ := h.place x (mem_of_getElem? hi)
  have hilt := (List.getElem?_eq_some_iff.1 hi).1
  obtain ⟨page', hpoke, hw⟩ := poke_wrote page x.1 rec
    (by rw [hlen]; exact hhigh)
  have hcall : slotpage_overwrite page i rec = some (page', true) := by
    rw [slotpage_overwrite, h.count, if_neg (not_le.2 hilt), h.slot i _ hi]
    have hoff : ¬ ((entry (some x)).offset = 0 ∨ (entry (some x)).length ≠ rec.length) := by
      simp [entry, hlen]
      omega
    simp only [bind_eq_bind, bind_some, if_neg hoff]
    rw [entry, hpoke]
    rfl
  -- the place and length of every slot stay
  have hset : ∀ (m : Nat) (z : Placed), (ls.set i (some (x.1, rec)))[m]? = some (some z) →
      ∃ z', ls[m]? = some (some z') ∧ z'.1 = z.1 ∧ z'.2.length = z.2.length ∧ (m ≠ i → z' = z) := by
    intro m z hm
    rcases eq_or_ne i m with rfl | him
    · rw [List.getElem?_set_self hilt] at hm
      simp at hm
      exact ⟨x, hi, by simp [← hm, hlen]⟩
    · rw [List.getElem?_set_ne him] at hm
      exact ⟨z, hm, rfl, rfl, fun _ => rfl⟩
  refine ⟨page', hcall, ?_, ?_, by simpa [slot_off_eq] using harray, h.bound, ?_, ?_, ?_, ?_⟩
  · rw [slotpage_num_slots, hw.other (by omega), length_set]
    exact h.count
  · rw [free_end, hw.other (by omega)]
    exact h.top
  · intro j l hj
    have hjlt := (List.getElem?_eq_some_iff.1 hj).1
    rw [length_set] at hjlt
    rw [hw.slot_at (by rw [slot_off_eq]; omega)]
    rcases eq_or_ne i j with rfl | hij
    · rw [List.getElem?_set_self hilt] at hj
      cases hj
      rw [h.slot i _ hi]
      simp [entry, hlen]
    · rw [List.getElem?_set_ne hij] at hj
      exact h.slot j l hj
  · intro z hz
    obtain ⟨m, hm⟩ := mem_iff_getElem?.1 hz
    obtain ⟨z', hz', hpos, hl, hsame⟩ := hset m z hm
    obtain ⟨hlow', hhigh', hbytes⟩ := h.place z' (mem_of_getElem? hz')
    refine ⟨hpos ▸ hlow', by rw [← hpos, ← hl]; exact hhigh', ?_⟩
    rcases eq_or_ne m i with rfl | hmi
    · rw [List.getElem?_set_self hilt] at hm
      simp at hm
      subst hm
      exact hw.self rfl
    · obtain rfl := hsame hmi
      have hap := h.apart m i z' x hmi hz' hi
      rw [hw.other (by unfold Apart at hap; omega), hbytes]
  · intro j k y z hjk hy hz
    obtain ⟨y', hy', hypos, hyl, -⟩ := hset j y hy
    obtain ⟨z', hz', hzpos, hzl, -⟩ := hset k z hz
    have hap := h.apart j k y' z' hjk hy' hz'
    unfold Apart at hap ⊢
    omega
  · rw [used_set hi hlen]
    exact h.room

/-- Nothing else is overwritten. -/
theorem overwrite_refused (hno : ∀ x, ls[i]? = some (some x) → x.2.length ≠ rec.length) :
    slotpage_overwrite page i rec = some (page, false) := by
  rw [slotpage_overwrite, h.count]
  split
  · rfl
  · next hi =>
    obtain ⟨l, hl⟩ : ∃ l, ls[i]? = some l := ⟨_, getElem?_eq_getElem (not_le.1 hi)⟩
    have hbad : (entry l).offset = 0 ∨ (entry l).length ≠ rec.length := by
      cases l with
      | none => exact .inl rfl
      | some x => exact .inr (hno x hl)
    rw [h.slot i l hl]
    simp only [bind_eq_bind, bind_some, if_pos hbad]

/-- A length that wraps with its slot leaves the page. -/
theorem insert_outside (hlen : 65532 ≤ rec.length) (hmax : rec.length < 65536) :
    slotpage_insert page rec = none ∨ slotpage_insert page rec = some (page, none) ∧
      fe - slot_off ls.length < 4 := by
  have hbound := h.bound
  rw [page_size_eq] at hbound
  rw [slotpage_insert, h.free_space]
  split
  · next hsmall =>
    refine .inr ⟨rfl, ?_⟩
    simp only [u16, SLOT_SIZE] at hsmall
    omega
  · left
    -- the record is copied to an offset behind which it has no room
    have hpoke : poke page (sub16 (free_end page) rec.length) rec = none := by
      rw [poke, dif_neg]
      rw [page_size_eq]
      omega
    simp only [hpoke, bind_eq_bind, bind_none]

end Layout

end MiniDb.SlotPage
