import Mathlib.Data.List.Nodup
import Mathlib.Data.List.Perm.Basic
import MiniDb.Db.Moves

/-! # The rows of a heap and what an index of them holds

  A version's row never changes after it was written, only its `xmax` does.
  So an index is about `stored_rows`, which stamping leaves alone, and
  `col_entries` lists what a complete index of a column holds: one entry per
  version with an integer there. -/

namespace MiniDb

open List

/-! ### Stored values -/

def Int32 (v : Int) : Prop := -2 ^ 31 ≤ v ∧ v < 2 ^ 31

instance (v : Int) : Decidable (Int32 v) := inferInstanceAs (Decidable (_ ∧ _))

theorem int32_cast_fits (v : Int) : Int32 (int32_cast v) := by
  unfold Int32 int32_cast
  omega

theorem int32_cast_of_fits {v : Int} (h : Int32 v) : int32_cast v = v := by
  unfold Int32 at h
  unfold int32_cast
  omega

/-- What the heap keeps of a value. -/
def Value.stored : Value → Value
  | .int v => .int (int32_cast v)
  | v => v

def Value.Fits : Value → Prop
  | .int v => Int32 v
  | _ => True

instance : ∀ v : Value, Decidable v.Fits
  | .int v => inferInstanceAs (Decidable (Int32 v))
  | .null => inferInstanceAs (Decidable True)
  | .text _ => inferInstanceAs (Decidable True)

theorem Value.stored_fits (v : Value) : v.stored.Fits := by
  cases v with
  | int v => exact int32_cast_fits v
  | null => trivial
  | text s => trivial

theorem Value.Fits.stored {v : Value} (h : v.Fits) : v.stored = v := by
  cases v with
  | int v => exact congrArg Value.int (int32_cast_of_fits h)
  | null => rfl
  | text s => rfl

variable {vals : List Value} {rec : Version} {rid : Rid} (h : Heap)

theorem encode_values_row {cs : List ColumnDef} {r : Row × Nat} (h : encode_values cs vals = some r)
    : r.1 = vals.map Value.stored := by
  induction cs generalizing vals r with
  | nil =>
    cases vals with
    | nil =>
      cases h
      rfl
    | cons v vs => cases h
  | cons c cs ih =>
    cases vals with
    | nil => cases h
    | cons v vs =>
      cases v with
      | null =>
        obtain ⟨r, hr, rfl⟩ := Option.map_eq_some_iff.mp h
        exact congrArg _ (ih hr)
      | int v =>
        obtain ⟨-, h⟩ := Option.ite_none_right_eq_some.mp h
        obtain ⟨r, hr, rfl⟩ := Option.map_eq_some_iff.mp h
        exact congrArg _ (ih hr)
      | text s =>
        obtain ⟨-, h⟩ := Option.ite_none_right_eq_some.mp h
        obtain ⟨r, hr, rfl⟩ := Option.map_eq_some_iff.mp h
        exact congrArg _ (ih hr)

theorem encode_row_row {schema : CreateStmt} {xmin xmax : Nat}
    (h : encode_row schema vals xmin xmax = some rec) : rec.row = vals.map Value.stored := by
  obtain ⟨r, hr, rfl⟩ := Option.map_eq_some_iff.mp h
  exact encode_values_row hr

theorem fits_of_stored {row : List Value} (h : row = vals.map Value.stored) :
    ∀ v ∈ row, v.Fits := by
  intro v hv
  rw [h] at hv
  obtain ⟨w, -, rfl⟩ := mem_map.mp hv
  exact w.stored_fits

/-! ### Rows under their addresses -/

def stored_rows (h : Heap) : List (Rid × Row) := (heap_scan h).map fun x => (x.1, x.2.row)

theorem mem_stored_rows {h : Heap} {row : Row} :
    (rid, row) ∈ stored_rows h ↔ ∃ rec, heap_get h rid = some rec ∧ rec.row = row := by
  unfold stored_rows
  constructor
  · intro hmem
    obtain ⟨⟨rid', rec⟩, hx, heq⟩ := mem_map.mp hmem
    obtain ⟨rfl, rfl⟩ := Prod.mk.inj heq
    exact ⟨rec, mem_heap_scan.mp hx, rfl⟩
  · rintro ⟨rec, hget, rfl⟩
    exact mem_map.mpr ⟨(rid, rec), mem_heap_scan.mpr hget, rfl⟩

theorem stored_rows_nodup : ((stored_rows h).map Prod.fst).Nodup := by
  unfold stored_rows
  rw [map_map]
  exact heap_scan_nodup h

theorem stored_rows_insert {h h' : Heap} (hins : heap_insert h rec = (h', some rid)) :
    stored_rows h' = stored_rows h ++ [(rid, rec.row)] := by
  have hscan := heap_insert_scan h rec
  rw [hins] at hscan
  unfold stored_rows
  rw [show heap_scan h' = heap_scan h ++ [(rid, rec)] from hscan, map_append]
  rfl

theorem stored_rows_insert_none {h h' : Heap} (hins : heap_insert h rec = (h', none)) :
    stored_rows h' = stored_rows h := by
  have hscan := heap_insert_scan h rec
  rw [hins] at hscan
  exact congrArg (List.map _) hscan

theorem stored_rows_stamp (rid : Rid) (xmax : Nat) :
    stored_rows (stamp_xmax h rid xmax) = stored_rows h := by
  cases hget : heap_get h rid with
  | none =>
    unfold stamp_xmax
    rw [hget]
  | some rec =>
    unfold stored_rows
    rw [heap_scan_stamp hget, map_map]
    apply map_congr_left
    intro x hx
    by_cases hrid : x.1 = rid
    · have hrec : x.2 = rec := by
        have hmem := mem_heap_scan.mp hx
        rw [hrid, hget] at hmem
        exact (Option.some.inj hmem).symm
      simp [put_at, hrid, hrec]
    · simp [put_at, hrid]

theorem heap_scan_vacuum (dead : List (Rid × Version)) :
    heap_scan (vacuum_heap h dead) =
      (heap_scan h).filter fun x => !(dead.map Prod.fst).contains x.1 := by
  unfold vacuum_heap
  dsimp only
  rw [heap_scan_truncate]
  have hcompact := heap_scan_compact ((dead.map Prod.fst).foldl heap_delete h)
    (dead.map fun x => x.1.page_id)
  rw [hcompact, heap_scan_delete_all]

/-- Exactly the dead versions go, where they are all that fail a test. -/
theorem heap_scan_vacuum_filter (p : Rid × Version → Bool) :
    heap_scan (vacuum_heap h ((heap_scan h).filter p)) = (heap_scan h).filter fun x => !p x := by
  rw [heap_scan_vacuum]
  apply filter_congr
  intro x hx
  congr 1
  rw [Bool.eq_iff_iff, contains_iff_mem]
  constructor
  · intro hmem
    obtain ⟨y, hy, heq⟩ := mem_map.mp hmem
    obtain ⟨hy, hpy⟩ := mem_filter.mp hy
    have hxy : y = x := inj_on_of_nodup_map (heap_scan_nodup h) hy hx heq
    exact hxy ▸ hpy
  · intro hp
    exact mem_map_of_mem (mem_filter.mpr ⟨hx, hp⟩)

/-! ### Heaps that statements build -/

structure HeapOk (h : Heap) : Prop where
  pages : Heap.Ok h
  fits : ∀ x ∈ stored_rows h, ∀ v ∈ x.2, v.Fits

theorem heapOk_nil : HeapOk [] := ⟨nofun, nofun⟩

section HeapOk

variable {h h' : Heap}

theorem HeapOk.insert (hh : HeapOk h) {rec : Version} {o : Option Rid}
    (hfit : ∀ v ∈ rec.row, v.Fits) (hins : heap_insert h rec = (h', o)) : HeapOk h' := by
  have hpages := hh.pages.insert rec
  rw [hins] at hpages
  refine ⟨hpages, ?_⟩
  cases o with
  | none =>
    rw [stored_rows_insert_none hins]
    exact hh.fits
  | some rid =>
    rw [stored_rows_insert hins]
    exact forall_mem_append.mpr ⟨hh.fits, forall_mem_singleton.mpr hfit⟩

theorem HeapOk.stamp (hh : HeapOk h) (rid : Rid) (xmax : Nat) : HeapOk (stamp_xmax h rid xmax) := by
  refine ⟨hh.pages.stamp rid xmax, ?_⟩
  rw [stored_rows_stamp]
  exact hh.fits

theorem HeapOk.vacuum (hh : HeapOk h) (dead : List (Rid × Version)) : HeapOk (vacuum_heap h dead) := by
  constructor
  · unfold vacuum_heap
    dsimp only
    refine Heap.Ok.truncate ?_
    refine List.foldlRecOn _ _ ?_ fun h hh page_id _ => hh.compact page_id
    exact List.foldlRecOn _ _ hh.pages fun h hh rid _ => hh.delete rid
  · intro x hx
    unfold stored_rows at hx
    rw [heap_scan_vacuum] at hx
    obtain ⟨y, hy, rfl⟩ := mem_map.mp hx
    exact hh.fits _ (mem_map_of_mem (mem_filter.mp hy).1)

end HeapOk

/-! ### Index entries -/

theorem rid_decode_encode (h : rid.slot < 65536) : rid_decode (rid_encode rid) = rid := by
  obtain ⟨page_id, slot⟩ := rid
  unfold rid_decode rid_encode
  simp only [Rid.mk.injEq]
  dsimp only at h
  omega

/-- The entry of a version in an index of the column. -/
def index_entry (col : Nat) (x : Rid × Row) : Option (Int × Int) :=
  match row_at x.2 col with
  | .int v => some (v, rid_encode x.1)
  | _ => none

theorem index_entry_eq_some {col : Nat} {x : Rid × Row} {e : Int × Int} :
    index_entry col x = some e ↔ row_at x.2 col = .int e.1 ∧ rid_encode x.1 = e.2 := by
  unfold index_entry
  cases row_at x.2 col with
  | int v =>
    simp only [Option.some.injEq, Value.int.injEq]
    exact Prod.ext_iff
  | null => simp
  | text s => simp

def version_entry (col : Nat) (x : Rid × Version) : Option (Int × Int) :=
  index_entry col (x.1, x.2.row)

theorem version_entry_of_head {x : Rid × Version} {v : Int} (h : x.2.row.head? = some (.int v)) :
    version_entry 0 x = some (v, rid_encode x.1) := by
  rw [List.head?_eq_getElem?] at h
  unfold version_entry index_entry row_at
  rw [h]
  rfl

theorem version_entry_of_head_ne {x : Rid × Version} (h : ∀ v, x.2.row.head? ≠ some (.int v)) :
    version_entry 0 x = none := by
  rw [List.head?_eq_getElem?] at h
  unfold version_entry index_entry row_at
  cases hv : x.2.row[0]? with
  | none => rfl
  | some v =>
    cases v with
    | int v => exact absurd hv (h v)
    | null => rfl
    | text s => rfl

def col_entries (h : Heap) (col : Nat) : List (Int × Int) :=
  (stored_rows h).filterMap (index_entry col)

theorem col_entries_eq (h : Heap) (col : Nat) :
    col_entries h col = (heap_scan h).filterMap (version_entry col) := by
  unfold col_entries stored_rows
  rw [filterMap_map]
  rfl

/-- Entries lead to different versions. -/
theorem HeapOk.entries_nodup {h : Heap} (hh : HeapOk h) (col : Nat) :
    ((col_entries h col).map Prod.snd).Nodup := by
  have hslot : ∀ x ∈ stored_rows h, x.1.slot < 65536 := by
    intro x hx
    obtain ⟨rec, hget, -⟩ := mem_stored_rows.mp hx
    exact hh.pages.slot_lt hget
  have hnodup := stored_rows_nodup h
  unfold col_entries
  generalize stored_rows h = rows at hslot hnodup
  induction rows with
  | nil => exact nodup_nil
  | cons x xs ih =>
    obtain ⟨hnot, hnodup⟩ := nodup_cons.mp hnodup
    have hrest := ih (fun y hy => hslot y (mem_cons_of_mem x hy)) hnodup
    rw [filterMap_cons]
    cases he : index_entry col x with
    | none => exact hrest
    | some e =>
      refine nodup_cons.mpr ⟨fun hmem => hnot ?_, hrest⟩
      obtain ⟨e', he', heq⟩ := mem_map.mp hmem
      obtain ⟨y, hy, hye⟩ := mem_filterMap.mp he'
      have henc : rid_encode y.1 = rid_encode x.1 := by
        rw [(index_entry_eq_some.mp hye).2, (index_entry_eq_some.mp he).2, heq]
      have hrid : y.1 = x.1 := by
        rw [← rid_decode_encode (hslot y (mem_cons_of_mem x hy)), henc,
          rid_decode_encode (hslot x mem_cons_self)]
      exact hrid ▸ mem_map_of_mem hy

end MiniDb
