import Mathlib.Data.List.TakeWhile
import MiniDb.Storage.Pager
import MiniDb.Db.Sql

/-! # The heap of a table

  A heap is a list of slotted pages.  A slot keeps its number for good, so a
  row version is addressed by its `Rid`; a deleted slot is `none`.  What a page
  has room for depends on the record lengths, which are kept beside the
  decoded record.

  The specification of a heap is its scan, the list of versions in page and
  slot order: an insertion appends to it, a stamp changes one entry. -/

namespace MiniDb

open List

/-- A row version: the MVCC header, the values, and the length of the record
    in bytes. -/
structure Version where
  xmin : Nat
  xmax : Nat
  row : Row
  len : Nat
  deriving DecidableEq

structure Rid where
  page_id : Nat
  slot : Nat
  deriving DecidableEq

def HEADER_SIZE : Nat := 4
def SLOT_SIZE : Nat := 4

/-- `free_end` is the offset where the record area starts. -/
structure HeapPage where
  slots : List (Option Version)
  free_end : Nat
  deriving DecidableEq

abbrev Heap := List HeapPage

/-! ### Slotted pages -/

def slotpage_init : HeapPage := ⟨[], PAGE_SIZE⟩

def slotpage_free_space (p : HeapPage) : Nat :=
  p.free_end - (HEADER_SIZE + p.slots.length * SLOT_SIZE)

/-- The new record always takes a new slot. -/
def slotpage_insert (p : HeapPage) (rec : Version) : Option HeapPage :=
  if slotpage_free_space p < rec.len + SLOT_SIZE then none
  else some ⟨p.slots ++ [some rec], p.free_end - rec.len⟩

def slotpage_delete (p : HeapPage) (slot : Nat) : HeapPage := { p with slots := p.slots.set slot none }

/-- Live records are packed again; slot numbers stay. -/
def slotpage_compact (p : HeapPage) : HeapPage :=
  { p with free_end := PAGE_SIZE - (p.slots.map fun s => (s.map Version.len).getD 0).sum }

def page_is_empty (p : HeapPage) : Bool := p.slots.all Option.isNone

/-! ### The heap -/

/-- A record that fits no page still leaves the new, empty page behind. -/
def heap_insert_new (h : Heap) (rec : Version) : Heap × Option Rid :=
  match slotpage_insert slotpage_init rec with
  | some p => (h ++ [p], some ⟨h.length, 0⟩)
  | none => (h ++ [slotpage_init], none)

/-- The last page is tried first, then a new one. -/
def heap_insert (h : Heap) (rec : Version) : Heap × Option Rid :=
  match h.getLast? with
  | none => heap_insert_new h rec
  | some p =>
    match slotpage_insert p rec with
    | some p' => (h.dropLast ++ [p'], some ⟨h.length - 1, p.slots.length⟩)
    | none => heap_insert_new h rec

def heap_get (h : Heap) (rid : Rid) : Option Version :=
  (h[rid.page_id]?).bind fun p => (p.slots[rid.slot]?).join

/-- In place, for a live record of the same length. -/
def heap_overwrite (h : Heap) (rid : Rid) (rec : Version) : Heap :=
  match heap_get h rid with
  | some old =>
    if old.len = rec.len then
      h.modify rid.page_id fun p => { p with slots := p.slots.set rid.slot (some rec) }
    else h
  | none => h

def heap_delete (h : Heap) (rid : Rid) : Heap := h.modify rid.page_id (slotpage_delete · rid.slot)

/-- Marks the version as deleted or replaced by `xmax`, whatever it held before. -/
def stamp_xmax (h : Heap) (rid : Rid) (xmax : Nat) : Heap :=
  match heap_get h rid with
  | some rec => heap_overwrite h rid { rec with xmax := xmax }
  | none => h

def scan_slots (page_id : Nat) : Nat → List (Option Version) → List (Rid × Version)
  | _, [] => []
  | i, none :: ss => scan_slots page_id (i + 1) ss
  | i, some rec :: ss => (⟨page_id, i⟩, rec) :: scan_slots page_id (i + 1) ss

def scan_pages : Nat → List HeapPage → List (Rid × Version)
  | _, [] => []
  | k, p :: ps => scan_slots k 0 p.slots ++ scan_pages (k + 1) ps

/-- The live records, in page and slot order. -/
def heap_scan (h : Heap) : List (Rid × Version) := scan_pages 0 h

/-! ### What a scan finds -/

variable {ss : List (Option Version)}

theorem mem_scan_slots {pid i : Nat} {x : Rid × Version} :
    x ∈ scan_slots pid i ss ↔ ∃ j, x.1 = ⟨pid, i + j⟩ ∧ ss[j]? = some (some x.2) := by
  induction ss generalizing i with
  | nil => simp [scan_slots]
  | cons s ss ih =>
    have hshift : (x ∈ scan_slots pid (i + 1) ss) ↔
        ∃ j, x.1 = ⟨pid, i + (j + 1)⟩ ∧ (s :: ss)[j + 1]? = some (some x.2) := by
      rw [ih]
      simp only [getElem?_cons_succ, Nat.add_assoc, Nat.add_comm 1]
    constructor
    · intro hx
      cases s with
      | none =>
        obtain ⟨j, hj⟩ := hshift.mp hx
        exact ⟨j + 1, hj⟩
      | some rec =>
        rcases mem_cons.mp hx with rfl | hx
        · exact ⟨0, rfl, rfl⟩
        · obtain ⟨j, hj⟩ := hshift.mp hx
          exact ⟨j + 1, hj⟩
    · rintro ⟨j, hrid, hget⟩
      cases j with
      | zero =>
        simp only [getElem?_cons_zero, Option.some.injEq] at hget
        rw [hget]
        exact mem_cons.mpr (Or.inl (Prod.ext hrid rfl))
      | succ j =>
        have hx := hshift.mpr ⟨j, hrid, hget⟩
        cases s with
        | none => exact hx
        | some rec => exact mem_cons_of_mem _ hx

theorem mem_scan_pages {k : Nat} {h : List HeapPage} {x : Rid × Version} :
    x ∈ scan_pages k h ↔
      ∃ j p, x.1.page_id = k + j ∧ h[j]? = some p ∧ p.slots[x.1.slot]? = some (some x.2) := by
  induction h generalizing k with
  | nil => simp [scan_pages]
  | cons p ps ih =>
    have hhead : x ∈ scan_slots k 0 p.slots ↔
        x.1.page_id = k ∧ p.slots[x.1.slot]? = some (some x.2) := by
      rw [mem_scan_slots]
      constructor
      · rintro ⟨j, hrid, hget⟩
        rw [Nat.zero_add] at hrid
        rw [hrid]
        exact ⟨rfl, hget⟩
      · rintro ⟨hpid, hget⟩
        refine ⟨x.1.slot, ?_, hget⟩
        rw [Nat.zero_add, ← hpid]
    rw [scan_pages, mem_append, hhead, ih]
    constructor
    · rintro (⟨hpid, hget⟩ | ⟨j, q, hpid, hq, hget⟩)
      · exact ⟨0, p, hpid, rfl, hget⟩
      · exact ⟨j + 1, q, by omega, hq, hget⟩
    · rintro ⟨j, q, hpid, hq, hget⟩
      cases j with
      | zero =>
        cases Option.some.inj hq
        exact Or.inl ⟨hpid, hget⟩
      | succ j => exact Or.inr ⟨j, q, by omega, hq, hget⟩

variable {h : Heap} {rid : Rid} {rec : Version} {l : List (Rid × Version)} (pid i : Nat)
  {old : Version}

theorem mem_heap_scan : (rid, rec) ∈ heap_scan h ↔ heap_get h rid = some rec := by
  unfold heap_scan heap_get
  rw [mem_scan_pages]
  constructor
  · rintro ⟨j, p, hpid, hp, hget⟩
    have hj : rid.page_id = j := by simpa using hpid
    rw [hj, hp, Option.bind_some, hget]
    rfl
  · intro hget
    obtain ⟨p, hp, hslot⟩ := Option.bind_eq_some_iff.mp hget
    exact ⟨rid.page_id, p, (Nat.zero_add _).symm, hp, Option.join_eq_some_iff.mp hslot⟩

/-! ### Insertion appends to the scan -/

theorem scan_slots_append (ss ts : List (Option Version)) :
    scan_slots pid i (ss ++ ts) = scan_slots pid i ss ++ scan_slots pid (i + ss.length) ts := by
  induction ss generalizing i with
  | nil => rfl
  | cons s ss ih =>
    have hlen : i + 1 + ss.length = i + (s :: ss).length := by simp; omega
    cases s with
    | none => simp only [cons_append, scan_slots, ih, hlen]
    | some rec => simp only [cons_append, scan_slots, ih, hlen]

theorem scan_pages_append (k : Nat) (ps qs : List HeapPage) :
    scan_pages k (ps ++ qs) = scan_pages k ps ++ scan_pages (k + ps.length) qs := by
  induction ps generalizing k with
  | nil => rfl
  | cons p ps ih =>
    have hlen : k + 1 + ps.length = k + (p :: ps).length := by simp; omega
    simp only [cons_append, scan_pages, ih, hlen, append_assoc]

theorem heap_scan_concat (h : Heap) (p : HeapPage) :
    heap_scan (h ++ [p]) = heap_scan h ++ scan_slots h.length 0 p.slots := by
  unfold heap_scan
  rw [scan_pages_append, Nat.zero_add]
  simp [scan_pages]

/-- The effect of an insertion: the new version comes last in the scan, and a
    version that does not fit leaves the scan as it was. -/
def Inserted (h : Heap) (rec : Version) (r : Heap × Option Rid) : Prop :=
  match r.2 with
  | some rid => heap_scan r.1 = heap_scan h ++ [(rid, rec)]
  | none => heap_scan r.1 = heap_scan h

theorem heap_insert_new_scan (h : Heap) (rec : Version) :
    Inserted h rec (heap_insert_new h rec) := by
  unfold heap_insert_new slotpage_insert Inserted
  by_cases hfit : slotpage_free_space slotpage_init < rec.len + SLOT_SIZE
  · rw [if_pos hfit]
    simp [heap_scan_concat, slotpage_init, scan_slots]
  · rw [if_neg hfit]
    simp [heap_scan_concat, slotpage_init, scan_slots]

theorem heap_insert_scan (h : Heap) (rec : Version) : Inserted h rec (heap_insert h rec) := by
  unfold heap_insert
  cases hlast : h.getLast? with
  | none => exact heap_insert_new_scan h rec
  | some p =>
    dsimp only
    obtain ⟨ps, rfl⟩ := getLast?_eq_some_iff.mp hlast
    unfold slotpage_insert
    by_cases hfit : slotpage_free_space p < rec.len + SLOT_SIZE
    · rw [if_pos hfit]
      exact heap_insert_new_scan _ rec
    · rw [if_neg hfit]
      show heap_scan _ = _
      rw [dropLast_concat, heap_scan_concat, heap_scan_concat, scan_slots_append]
      simp [scan_slots]

/-! ### A stamp changes one entry of the scan -/

/-- Replace the entry at `rid`. -/
def put_at (rid : Rid) (rec : Version) (x : Rid × Version) : Rid × Version :=
  if x.1 = rid then (x.1, rec) else x

theorem map_put_at_of_not_mem (h : ∀ x ∈ l, x.1 ≠ rid) :
    l.map (put_at rid rec) = l := by
  conv_rhs => rw [← map_id l]
  apply map_congr_left
  intro x hx
  exact if_neg (h x hx)

theorem scan_slots_above (ss : List (Option Version)) :
    ∀ x ∈ scan_slots pid (i + 1) ss, x.1 ≠ ⟨pid, i⟩ := by
  intro x hx heq
  obtain ⟨k, hrid, -⟩ := mem_scan_slots.mp hx
  rw [heq, Rid.mk.injEq] at hrid
  omega

theorem scan_slots_set {pid : Nat} (ss : List (Option Version)) (i j : Nat)
    (hold : ss[j]? = some (some old)) :
    scan_slots pid i (ss.set j (some rec)) =
      (scan_slots pid i ss).map (put_at ⟨pid, i + j⟩ rec) := by
  induction ss generalizing i j with
  | nil => simp at hold
  | cons s ss ih =>
    have hrest := scan_slots_above pid i ss
    cases j with
    | zero =>
      simp only [getElem?_cons_zero, Option.some.injEq] at hold
      subst hold
      simp only [set_cons_zero, scan_slots, map_cons, Nat.add_zero,
        map_put_at_of_not_mem hrest]
      rw [put_at, if_pos rfl]
    | succ j =>
      have hidx : i + 1 + j = i + (j + 1) := by omega
      rw [getElem?_cons_succ] at hold
      cases s with
      | none =>
        rw [set_cons_succ, scan_slots, scan_slots, ih (i + 1) j hold, hidx]
      | some s =>
        rw [set_cons_succ, scan_slots, scan_slots, map_cons, ih (i + 1) j hold, hidx]
        congr 1
        exact (if_neg (by simp)).symm

theorem scan_pages_modify (rec : Version) (ps : List HeapPage) (k i j : Nat)
    (p : HeapPage) (hp : ps[i]? = some p) (hold : p.slots[j]? = some (some old)) :
    scan_pages k (ps.modify i fun p => { p with slots := p.slots.set j (some rec) }) =
      (scan_pages k ps).map (put_at ⟨k + i, j⟩ rec) := by
  induction ps generalizing k i with
  | nil => simp at hp
  | cons q ps ih =>
    cases i with
    | zero =>
      cases Option.some.inj hp
      rw [modify_zero_cons, scan_pages, scan_pages, map_append,
        scan_slots_set _ 0 j hold, Nat.zero_add, Nat.add_zero]
      congr 1
      refine (map_put_at_of_not_mem fun x hx heq => ?_).symm
      obtain ⟨n, -, hpid, -⟩ := mem_scan_pages.mp hx
      rw [heq] at hpid
      simp only at hpid
      omega
    | succ i =>
      rw [getElem?_cons_succ] at hp
      rw [modify_succ_cons, scan_pages, scan_pages, map_append, ih (k + 1) i hp]
      have hidx : k + 1 + i = k + (i + 1) := by omega
      rw [hidx]
      congr 1
      refine (map_put_at_of_not_mem fun x hx heq => ?_).symm
      obtain ⟨n, hrid, -⟩ := mem_scan_slots.mp hx
      rw [heq, Rid.mk.injEq] at hrid
      omega

theorem heap_scan_stamp (hget : heap_get h rid = some rec) (xmax : Nat) :
    heap_scan (stamp_xmax h rid xmax) =
      (heap_scan h).map (put_at rid { rec with xmax := xmax }) := by
  unfold stamp_xmax heap_overwrite
  simp only [hget, if_true]
  unfold heap_get at hget
  obtain ⟨p, hp, hslot⟩ := Option.bind_eq_some_iff.mp hget
  have hscan := scan_pages_modify { rec with xmax := xmax } h 0 rid.page_id rid.slot p hp
    (Option.join_eq_some_iff.mp hslot)
  rwa [Nat.zero_add] at hscan

/-! ### Addresses are unique -/

theorem scan_slots_nodup (ss : List (Option Version)) :
    ((scan_slots pid i ss).map Prod.fst).Nodup := by
  induction ss generalizing i with
  | nil => exact nodup_nil
  | cons s ss ih =>
    cases s with
    | none => exact ih (i + 1)
    | some rec =>
      refine nodup_cons.mpr ⟨?_, ih (i + 1)⟩
      intro hmem
      obtain ⟨x, hx, heq⟩ := mem_map.mp hmem
      obtain ⟨j, hrid, -⟩ := mem_scan_slots.mp hx
      rw [heq, Rid.mk.injEq] at hrid
      omega

theorem scan_pages_nodup (k : Nat) (ps : List HeapPage) :
    ((scan_pages k ps).map Prod.fst).Nodup := by
  induction ps generalizing k with
  | nil => exact nodup_nil
  | cons p ps ih =>
    rw [scan_pages, map_append]
    refine nodup_append.mpr ⟨scan_slots_nodup k 0 _, ih (k + 1), ?_⟩
    intro rid hleft rid' hright heq
    obtain ⟨x, hx, rfl⟩ := mem_map.mp hleft
    obtain ⟨y, hy, rfl⟩ := mem_map.mp hright
    obtain ⟨j, hrid, -⟩ := mem_scan_slots.mp hx
    obtain ⟨m, -, hpid, -⟩ := mem_scan_pages.mp hy
    rw [← heq, hrid] at hpid
    simp only at hpid
    omega

theorem heap_scan_nodup (h : Heap) : ((heap_scan h).map Prod.fst).Nodup := scan_pages_nodup 0 h

/-! ### What VACUUM does to a heap -/

/-- Everything but the entry at `rid`. -/
def not_at (rid : Rid) (x : Rid × Version) : Bool := x.1 ≠ rid

theorem filter_not_at (h : ∀ x ∈ l, x.1 ≠ rid) :
    l.filter (not_at rid) = l :=
  filter_eq_self.mpr fun x hx => decide_eq_true (h x hx)

theorem scan_slots_clear (pid i j : Nat) (ss : List (Option Version)) :
    scan_slots pid i (ss.set j none) = (scan_slots pid i ss).filter (not_at ⟨pid, i + j⟩) := by
  induction ss generalizing i j with
  | nil => rfl
  | cons s ss ih =>
    have hrest := scan_slots_above pid i ss
    cases j with
    | zero =>
      cases s with
      | none => simp only [set_cons_zero, scan_slots, Nat.add_zero, filter_not_at hrest]
      | some rec =>
        have hgone : not_at ⟨pid, i⟩ (⟨pid, i⟩, rec) = false := by simp [not_at]
        simp [scan_slots, hgone, filter_not_at hrest]
    | succ j =>
      have hidx : i + 1 + j = i + (j + 1) := by omega
      cases s with
      | none => rw [set_cons_succ, scan_slots, scan_slots, ih (i + 1) j, hidx]
      | some rec =>
        have hstay : not_at ⟨pid, i + (j + 1)⟩ (⟨pid, i⟩, rec) = true := by simp [not_at]
        rw [set_cons_succ, scan_slots, scan_slots, ih (i + 1) j, hidx,
          filter_cons_of_pos hstay]

theorem scan_pages_clear (k i j : Nat) (ps : List HeapPage) :
    scan_pages k (ps.modify i (slotpage_delete · j)) =
      (scan_pages k ps).filter (not_at ⟨k + i, j⟩) := by
  induction ps generalizing k i with
  | nil => simp [scan_pages]
  | cons q ps ih =>
    rw [scan_pages, filter_append]
    cases i with
    | zero =>
      rw [modify_zero_cons, scan_pages, slotpage_delete, scan_slots_clear, Nat.zero_add,
        Nat.add_zero]
      congr 1
      refine (filter_not_at fun x hx heq => ?_).symm
      obtain ⟨n, -, hpid, -⟩ := mem_scan_pages.mp hx
      rw [heq] at hpid
      simp only at hpid
      omega
    | succ i =>
      have hidx : k + 1 + i = k + (i + 1) := by omega
      rw [modify_succ_cons, scan_pages, ih (k + 1) i, hidx]
      congr 1
      refine (filter_not_at fun x hx heq => ?_).symm
      obtain ⟨n, hrid, -⟩ := mem_scan_slots.mp hx
      rw [heq, Rid.mk.injEq] at hrid
      omega

theorem heap_scan_delete (h : Heap) (rid : Rid) :
    heap_scan (heap_delete h rid) = (heap_scan h).filter (not_at rid) := by
  have hscan := scan_pages_clear 0 rid.page_id rid.slot h
  rwa [Nat.zero_add] at hscan

theorem heap_scan_delete_all (h : Heap) (rids : List Rid) :
    heap_scan (rids.foldl heap_delete h) = (heap_scan h).filter fun x => !rids.contains x.1 := by
  induction rids generalizing h with
  | nil => simp
  | cons rid rids ih =>
    rw [foldl_cons, ih, heap_scan_delete, filter_filter]
    apply filter_congr
    intro x _
    by_cases hx : x.1 = rid
    · simp [hx, not_at]
    · simp [hx, not_at]

/-- Only the slots of a page matter to the scan. -/
theorem scan_pages_congr {k : Nat} {ps qs : List HeapPage}
    (h : ps.map HeapPage.slots = qs.map HeapPage.slots) : scan_pages k ps = scan_pages k qs := by
  induction ps generalizing k qs with
  | nil =>
    cases qs with
    | nil => rfl
    | cons q qs => simp at h
  | cons p ps ih =>
    cases qs with
    | nil => simp at h
    | cons q qs =>
      simp only [map_cons, List.cons.injEq] at h
      rw [scan_pages, scan_pages, h.1, ih h.2]

theorem scan_slots_empty {pid i : Nat}
    (h : ss.all Option.isNone = true) : scan_slots pid i ss = [] := by
  induction ss generalizing i with
  | nil => rfl
  | cons s ss ih =>
    rw [all_cons, Bool.and_eq_true] at h
    cases s with
    | none => exact ih h.2
    | some rec => cases h.1

theorem heap_scan_compact (h : Heap) (page_ids : List Nat) :
    heap_scan (page_ids.foldl (fun h p => h.modify p slotpage_compact) h) = heap_scan h := by
  induction page_ids generalizing h with
  | nil => rfl
  | cons p page_ids ih =>
    rw [foldl_cons, ih]
    refine scan_pages_congr ?_
    apply ext_getElem?
    intro i
    rw [getElem?_map, getElem?_map, getElem?_modify]
    cases h[i]? with
    | none => rfl
    | some q =>
      by_cases hi : p = i
      · simp [hi, slotpage_compact]
      · simp [hi]

/-- Cut the empty pages at the end of the file. -/
def truncate_tail (h : Heap) : Heap := (h.reverse.dropWhile page_is_empty).reverse

theorem truncate_tail_isPrefix (h : Heap) :
    ∃ tail, h = truncate_tail h ++ tail ∧ ∀ p ∈ tail, page_is_empty p = true := by
  refine ⟨(h.reverse.takeWhile page_is_empty).reverse, ?_, ?_⟩
  · unfold truncate_tail
    rw [← reverse_append, takeWhile_append_dropWhile, reverse_reverse]
  · intro p hp
    exact mem_takeWhile_imp (mem_reverse.mp hp)

theorem scan_pages_empty {k : Nat} {ps : List HeapPage} (h : ∀ p ∈ ps, page_is_empty p = true) :
    scan_pages k ps = [] := by
  induction ps generalizing k with
  | nil => rfl
  | cons p ps ih =>
    rw [scan_pages, scan_slots_empty (h p mem_cons_self),
      ih fun q hq => h q (mem_cons_of_mem p hq)]
    rfl

theorem heap_scan_truncate (h : Heap) : heap_scan (truncate_tail h) = heap_scan h := by
  obtain ⟨tail, heq, hempty⟩ := truncate_tail_isPrefix h
  conv_rhs => rw [heq]
  unfold heap_scan
  rw [scan_pages_append, scan_pages_empty hempty, append_nil]

/-! ### Room on pages -/

/-- The bytes of the live records. -/
def live_len (slots : List (Option Version)) : Nat := (slots.map fun s => (s.map Version.len).getD 0).sum

/-- Slots and records do not overlap. -/
def HeapPage.Ok (p : HeapPage) : Prop :=
  HEADER_SIZE + p.slots.length * SLOT_SIZE ≤ p.free_end ∧ live_len p.slots + p.free_end ≤ PAGE_SIZE

def Heap.Ok (h : Heap) : Prop := ∀ p ∈ h, p.Ok

theorem HeapPage.Ok.insert {p p' : HeapPage} (h : p.Ok) (hins : slotpage_insert p rec = some p') :
    p'.Ok := by
  obtain ⟨hroom, hp'⟩ := Option.ite_none_left_eq_some.mp hins
  obtain rfl := Option.some.inj hp'
  unfold slotpage_free_space at hroom
  obtain ⟨h1, h2⟩ := h
  unfold HeapPage.Ok live_len at *
  simp only [length_append, length_singleton, map_append, sum_append,
    map_cons, map_nil, sum_cons, sum_nil, Option.map_some, Option.getD_some]
  unfold HEADER_SIZE SLOT_SIZE at *
  omega

theorem slotpage_init_ok : slotpage_init.Ok := by
  unfold HeapPage.Ok slotpage_init live_len
  simp only [length_nil, map_nil, sum_nil]
  decide

variable (hh : Heap.Ok h)

include hh

theorem Heap.Ok.concat {p : HeapPage} (hp : p.Ok) : Heap.Ok (h ++ [p]) := by
  exact forall_mem_append.mpr ⟨hh, forall_mem_singleton.mpr hp⟩

theorem Heap.Ok.insert (rec : Version) : Heap.Ok (heap_insert h rec).1 := by
  have hnew : Heap.Ok (heap_insert_new h rec).1 := by
    unfold heap_insert_new
    split
    · next p hp => exact hh.concat (slotpage_init_ok.insert hp)
    · exact hh.concat slotpage_init_ok
  unfold heap_insert
  split
  · exact hnew
  · next p hlast =>
    split
    · next p' hp' =>
      have hmem : p ∈ h := mem_of_getLast? hlast
      exact Heap.Ok.concat (fun q hq => hh q (dropLast_subset h hq)) ((hh p hmem).insert hp')
    · exact hnew

theorem Heap.Ok.modify (i : Nat) {f : HeapPage → HeapPage} (hf : ∀ p, p ∈ h[i]? → p.Ok → (f p).Ok) :
    Heap.Ok (h.modify i f) := by
  intro q hq
  obtain ⟨j, hj⟩ := mem_iff_getElem?.mp hq
  rw [getElem?_modify] at hj
  obtain ⟨p, hp, rfl⟩ := Option.map_eq_some_iff.mp hj
  have hok := hh p (mem_of_getElem? hp)
  by_cases hij : i = j
  · rw [if_pos hij]
    exact hf p (hij ▸ hp) hok
  · rw [if_neg hij]
    exact hok

theorem Heap.Ok.stamp (rid : Rid) (xmax : Nat) : Heap.Ok (stamp_xmax h rid xmax) := by
  unfold stamp_xmax heap_overwrite
  split
  swap
  · exact hh
  next rec hget =>
  simp only [if_true]
  refine hh.modify _ fun p hp hok => ?_
  unfold heap_get at hget
  rw [hp, Option.bind_some] at hget
  have hslot := Option.join_eq_some_iff.mp hget
  have hsame : live_len (p.slots.set rid.slot (some { rec with xmax := xmax })) = live_len p.slots := by
    unfold live_len
    rw [map_set]
    congr 1
    apply ext_getElem?
    intro i
    rw [List.getElem?_set, List.getElem?_map, length_map]
    by_cases hi : rid.slot = i
    · subst hi
      have hlt : rid.slot < p.slots.length := (List.getElem?_eq_some_iff.mp hslot).1
      rw [if_pos rfl, if_pos hlt, hslot]
      rfl
    · rw [if_neg hi]
  unfold HeapPage.Ok at *
  rw [hsame, length_set]
  exact hok

omit hh in
theorem live_len_clear_le (slots : List (Option Version)) (j : Nat) :
    live_len (slots.set j none) ≤ live_len slots := by
  unfold live_len
  induction slots generalizing j with
  | nil => exact le_rfl
  | cons s slots ih =>
    cases j with
    | zero => simp
    | succ j =>
      have := ih j
      simp only [set_cons_succ, map_cons, sum_cons]
      omega

theorem Heap.Ok.delete (rid : Rid) : Heap.Ok (heap_delete h rid) := by
  refine hh.modify _ fun p _ hok => ?_
  have hle := live_len_clear_le p.slots rid.slot
  unfold HeapPage.Ok slotpage_delete at *
  rw [length_set]
  dsimp only
  omega

theorem Heap.Ok.compact (page_id : Nat) : Heap.Ok (h.modify page_id slotpage_compact) := by
  refine hh.modify _ fun p _ hok => ?_
  obtain ⟨h1, h2⟩ := hok
  show HEADER_SIZE + p.slots.length * SLOT_SIZE ≤ PAGE_SIZE - live_len p.slots ∧
    live_len p.slots + (PAGE_SIZE - live_len p.slots) ≤ PAGE_SIZE
  omega

theorem Heap.Ok.truncate : Heap.Ok (truncate_tail h) := by
  obtain ⟨tail, heq, -⟩ := truncate_tail_isPrefix h
  intro p hp
  refine hh p ?_
  rw [heq]
  exact mem_append_left tail hp

/-- A page has room for few slots. -/
theorem Heap.Ok.slot_lt (hget : heap_get h rid = some rec) : rid.slot < 65536 := by
  unfold heap_get at hget
  obtain ⟨p, hp, hslot⟩ := Option.bind_eq_some_iff.mp hget
  have hlt := (List.getElem?_eq_some_iff.mp (Option.join_eq_some_iff.mp hslot)).1
  have hok := hh p (mem_of_getElem? hp)
  unfold HeapPage.Ok HEADER_SIZE SLOT_SIZE PAGE_SIZE at hok
  omega

end MiniDb
