import MiniDb.Db.PartialAggregate
import MiniDb.Db.PkPath

/-! # Parallel scans

  The pages of a heap are cut into blocks of one size, rounded up, and every
  worker scans one block.  The last blocks may be cut off at the end of the
  file or be empty.  Merged in the order of the workers the blocks are the
  whole heap. -/

namespace MiniDb

open Framework List

/-- The pages of a worker, from `lo` up to `hi`. -/
def worker_range (np first nworkers i : Nat) : Nat × Nat :=
  let chunk := (np - first + nworkers - 1) / nworkers
  let hi := min (first + (i + 1) * chunk) np
  (min (first + i * chunk) hi, hi)

/-- The live records of the pages from `lo` up to `hi`. -/
def scan_range (h : Heap) (lo hi : Nat) : List (Rid × Version) := scan_pages lo ((h.take hi).drop lo)

/-- What a scan visits and a predicate accepts. -/
def accepted (pred : Rid → Version → Bool) (xs : List (Rid × Version)) : List Rid :=
  (xs.filter fun x => pred x.1 x.2).map Prod.fst

def worker_main (h : Heap) (pred : Rid → Version → Bool) (range : Nat × Nat) : List Rid :=
  accepted pred (scan_range h range.1 range.2)

/-- The heap begins at page `first`; there are never more workers than pages. -/
def parscan_collect (h : Heap) (first : Nat) (nworkers : Int) (pred : Rid → Version → Bool) : List Rid :=
  let n := min (max 1 nworkers).toNat (h.length - first)
  (List.range n).flatMap fun i => worker_main h pred (worker_range h.length first n i)

def parsel_pred (d : TxnState) (t : Table) (tname : String) (w : Where) (_ : Rid) (rec : Version) : Bool :=
  rec_visible d rec && where_matches t.schema tname w rec.row

/-- The rows that are printed, unless the table is left to the serial scan. -/
def parallel_fullscan (d : TxnState) (t : Table) (tname : String) (w : Where) (nworkers : Int) :
    Option (List Row) :=
  if t.heap.length < PARSCAN_MIN_PAGES then none
  else if where_has_subquery w then none
  else some ((parscan_collect t.heap 0 nworkers (parsel_pred d t tname w)).filterMap fun rid =>
    (heap_get t.heap rid).map Version.row)

section Ranges

variable {h : Heap} {lo mid hi : Nat}

theorem scan_range_append (hlo : lo ≤ mid) (hmid : mid ≤ hi) (hhi : hi ≤ h.length) :
    scan_range h lo mid ++ scan_range h mid hi = scan_range h lo hi := by
  have hsplit : (h.take hi).drop lo = (h.take mid).drop lo ++ (h.take hi).drop mid := by
    conv_lhs => rw [← take_append_drop mid (h.take hi), take_take, min_eq_left hmid]
    exact drop_append_of_le_length (by simp; omega)
  have hlen : lo + ((h.take mid).drop lo).length = mid := by simp; omega
  unfold scan_range
  rw [hsplit, scan_pages_append, hlen]

/-- The first workers have the pages up to where the last of them stops. -/
theorem accepted_ranges (pred : Rid → Version → Bool) {first : Nat} (hfirst : first ≤ h.length)
    (n k : Nat) :
    (List.range k).flatMap (fun i => worker_main h pred (worker_range h.length first n i)) =
      accepted pred (scan_range h first
        (min (first + k * ((h.length - first + n - 1) / n)) h.length)) := by
  induction k with
  | zero => simp [scan_range, accepted, hfirst, scan_pages]
  | succ k ih =>
    generalize hchunk : (h.length - first + n - 1) / n = chunk at ih ⊢
    have hstep : k * chunk ≤ (k + 1) * chunk := Nat.mul_le_mul_right _ (Nat.le_succ k)
    have hlo : (worker_range h.length first n k).1 = min (first + k * chunk) h.length := by
      simp only [worker_range, hchunk]
      omega
    rw [range_succ, flatMap_append, ih, flatMap_singleton]
    unfold worker_main accepted
    rw [← map_append, ← filter_append, hlo]
    simp only [worker_range, hchunk]
    rw [scan_range_append (by omega) (by omega) (Nat.min_le_right ..)]

end Ranges

/-- A parallel scan finds what a serial one finds, in the same order, for every
    number of workers; so a SELECT prints the same rows. -/
theorem parscan_is_scan (h : Heap) (first : Nat) (nworkers : Int) (pred : Rid → Version → Bool)
    (d : TxnState) (t : Table) (tname : String) (w : Where) :
    parscan_collect h first nworkers pred = accepted pred (scan_pages first (h.drop first)) ∧
      parscan_collect h 0 nworkers pred = accepted pred (heap_scan h) ∧
      (parscan_collect h 0 nworkers pred).Nodup ∧
      parallel_fullscan d t tname w nworkers =
        if t.heap.length < PARSCAN_MIN_PAGES ∨ where_has_subquery w = true then none
        else some (scan_rows d t tname w).found := by
  have hall : ∀ (h : Heap) (first : Nat) (pred : Rid → Version → Bool),
      parscan_collect h first nworkers pred = accepted pred (scan_pages first (h.drop first)) := by
    intro h first pred
    by_cases hfirst : first < h.length
    · have hend : h.length - first ≤ _ :=
        le_mul_chunk (n := min (max 1 nworkers).toNat (h.length - first)) (by omega)
      unfold parscan_collect
      dsimp only
      rw [accepted_ranges pred (le_of_lt hfirst), Nat.min_eq_right (by omega)]
      unfold scan_range
      rw [take_length]
    · have hnone : h.length - first = 0 := by omega
      simp [parscan_collect, hnone, drop_of_length_le (Nat.le_of_not_lt hfirst), accepted, scan_pages]
  have hzero : ∀ (h : Heap) (pred : Rid → Version → Bool),
      parscan_collect h 0 nworkers pred = accepted pred (heap_scan h) := fun h pred => hall h 0 pred
  refine ⟨hall h first pred, hzero h pred, ?_, ?_⟩
  · rw [hzero]
    exact (heap_scan_nodup h).sublist (filter_sublist.map _)
  · -- the records are read again where the workers have seen them
    have hrows : ((parscan_collect t.heap 0 nworkers (parsel_pred d t tname w)).filterMap fun rid =>
        (heap_get t.heap rid).map Version.row) = (scan_rows d t tname w).found := by
      rw [hzero]
      unfold accepted scan_rows scan_read
      rw [filterMap_map, ← filterMap_eq_filter, filterMap_filterMap]
      refine filterMap_congr fun x hx => ?_
      have hget := mem_heap_scan.mp hx
      simp only [parsel_pred]
      cases hvis : rec_visible d x.2 <;> cases hmatch : where_matches t.schema tname w x.2.row <;>
        simp [hvis, hmatch, hget]
    unfold parallel_fullscan
    rw [hrows]
    split <;> split <;> simp_all

/-- Whatever the number of workers, the cells made of their parts are those of
    all matching rows; the quotient of an average is taken of the same sum and
    count. -/
theorem partial_cells_eq (E : Env) (d : TxnState) {t : Table} {tname : String} {sel : SelectStmt}
    (nworkers : Nat) (ht : IntsTyped t) (happ : partial_applies sel (table_cols t tname) = true) :
    let rows := (scan_rows d t tname sel.filter).found
    ∀ it ∈ sel.items,
      agg_cell E it (merged_part d t tname sel.filter nworkers it) =
          compute_cell E it (item_ci (table_cols t tname) it) rows ∧
        (it.agg = .AGG_AVG →
          (merged_part d t tname sel.filter nworkers it).sum =
              (ints (item_ci (table_cols t tname) it) rows).sum ∧
            (merged_part d t tname sel.filter nworkers it).cnt =
              (known (item_ci (table_cols t tname) it) rows).length) := by
  intro rows it hit
  obtain ⟨hagg, -, htyped⟩ := partial_item d ht happ hit
  have hpart : PartOf it _ rows _ := merged_part_of d sel.filter nworkers it
  refine ⟨hpart.cell E hagg htyped, fun havg => ?_⟩
  have hcol := hpart.column (by simp [SelectItem.counts, havg])
  exact ⟨hcol.sum, hcol.cnt.trans (length_map _)⟩

/-- `SELECT COUNT(*), MIN(a), AVG(a) FROM t` -/
def select_totals : SelectStmt :=
  { select_col "t" "a" [] with
    items := [⟨.AGG_COUNT, true, "", ""⟩, ⟨.AGG_MIN, false, "", "a"⟩, ⟨.AGG_AVG, false, "", "a"⟩]
    has_aggregate := true }

/-- A table with the rows of these keys on a page each. -/
def paged_keys (pages : List (List Int)) : Table :=
  { table_new one_column with
    heap := pages.map fun keys =>
      keys.foldl (fun p k => (slotpage_insert p ⟨1, 0, [.int k], 28⟩).getD p) slotpage_init }

/-- One row for the first of two workers, two for the second. -/
theorem partial_cells_eq_two_pages :
    let d : TxnState := { db_new.toTxnState with committed_below := 2 }
    let t := paged_keys [[3], [1, 2]]
    (worker_pages 2 t.heap).map (page_rows d t "t" []) = [[[.int 3]], [[.int 1], [.int 2]]] ∧
      agg_cell exact_env ⟨.AGG_AVG, false, "", "a"⟩ (merged_part d t "t" [] 2 ⟨.AGG_AVG, false, "", "a"⟩) =
        compute_cell exact_env ⟨.AGG_AVG, false, "", "a"⟩ (item_ci (table_cols t "t") ⟨.AGG_AVG, false, "", "a"⟩)
          (scan_rows d t "t" []).found := by
  intro d t
  have hints : ∀ y ∈ heap_scan t.heap, y.2.row ∈ [3, 1, 2].map fun k => [Value.int k] := by
    decide +kernel
  refine ⟨by decide +kernel, (partial_cells_eq exact_env d 2 (fun y hy i c _ _ s hs => ?_)
    (by decide +kernel) _ (show _ ∈ select_totals.items by simp [select_totals])).1⟩
  obtain ⟨k, -, hk⟩ := mem_map.mp (hints y hy)
  rw [← hk] at hs
  cases i <;> cases hs

end MiniDb
