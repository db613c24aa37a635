import Mathlib.Order.Bounds.Basic
import MiniDb.Db.Cells

/-! # Partial aggregation

  The workers of a parallel aggregation add up the rows of their pages, and
  the parts are merged.  A row alone makes a part too, so merging is all there
  is to it; `PartOf` says what the part of some rows holds, and the cells made
  of it are those of `compute_cell`. -/

namespace MiniDb

open Framework List

/-- What a worker accumulates for one item. -/
structure AggPart where
  total : Nat
  cnt : Nat
  sum : Int
  minv : Int
  maxv : Int
  seen : Bool

def agg_part : AggPart := ⟨0, 0, 0, 0, 0, false⟩

def agg_worker_visit (it : SelectItem) (ci : Nat) (p : AggPart) (row : Row) : AggPart :=
  let p := { p with total := p.total + 1 }
  if it.agg = .AGG_COUNT && it.star then p
  else
    match row_at row ci with
    | .null => p
    | v =>
      let iv := int_val v
      let p := { p with cnt := p.cnt + 1, sum := p.sum + iv }
      if !p.seen then { p with minv := iv, maxv := iv, seen := true }
      else { p with
        minv := if iv < p.minv then iv else p.minv
        maxv := if p.maxv < iv then iv else p.maxv }

/-- The parts of two workers together. -/
def agg_merge (a p : AggPart) : AggPart :=
  let s := { a with total := a.total + p.total, cnt := a.cnt + p.cnt, sum := a.sum + p.sum }
  if !p.seen then s
  else if !a.seen then { s with minv := p.minv, maxv := p.maxv, seen := true }
  else { s with
    minv := if p.minv < a.minv then p.minv else a.minv
    maxv := if a.maxv < p.maxv then p.maxv else a.maxv }

def agg_cell (E : Env) (it : SelectItem) (p : AggPart) : OutCell :=
  match it.agg with
  | .AGG_COUNT => .num (E.to_double (if it.star then p.total else p.cnt))
  | .AGG_SUM => if p.seen then .num (E.to_double p.sum) else .null
  | .AGG_AVG => if p.seen then .num (E.quotient p.sum p.cnt) else .null
  | .AGG_MIN => if p.seen then .num (E.to_double p.minv) else .null
  | _ => if p.seen then .num (E.to_double p.maxv) else .null

/-- The pages of the workers, one block after another. -/
def worker_pages {α : Type} (nworkers : Nat) (pages : List α) : List (List α) :=
  let n := min (max 1 nworkers) pages.length
  let chunk := (pages.length + n - 1) / n
  (List.range n).map fun i => (pages.drop (i * chunk)).take chunk

/-- Aggregates of integer columns over the whole table. -/
def partial_applies (sel : SelectStmt) (cols : List ColRef) : Bool :=
  sel.has_aggregate && sel.group_col = "" && sel.having_agg.isNone && !sel.distinct &&
    sel.items.all fun it => it.agg ≠ .AGG_NONE && (it.agg = .AGG_COUNT && it.star ||
      ((find_col cols it.tbl it.col).bind (cols[·]?)).any ColRef.is_int)

/-- The matching rows of a list of pages. -/
def page_rows (d : TxnState) (t : Table) (tname : String) (w : Where) (pages : List HeapPage) : List Row :=
  (scan_rows d { t with heap := pages } tname w).found

section Parts

variable {it : SelectItem} {ci : Nat} {rows rows' : List Row} {p q : AggPart}

/-- The integers of a column. -/
def ints (ci : Nat) (rows : List Row) : List Int := (known ci rows).map int_val

theorem ints_append (ci : Nat) (rows rows' : List Row) :
    ints ci (rows ++ rows') = ints ci rows ++ ints ci rows' := by
  simp [ints, known]

/-- `COUNT(*)` looks at no column. -/
def SelectItem.counts (it : SelectItem) : Bool := it.agg = .AGG_COUNT && it.star

/-- What the part of an item holds of a column. -/
structure ColumnPart (vals : List Int) (p : AggPart) : Prop where
  cnt : p.cnt = vals.length
  sum : p.sum = vals.sum
  seen : p.seen = true ↔ vals ≠ []
  least : p.seen = true → IsLeast {v | v ∈ vals} p.minv
  greatest : p.seen = true → IsGreatest {v | v ∈ vals} p.maxv

structure PartOf (it : SelectItem) (ci : Nat) (rows : List Row) (p : AggPart) : Prop where
  total : p.total = rows.length
  column : it.counts = false → ColumnPart (ints ci rows) p

theorem PartOf.nil : PartOf it ci [] agg_part :=
  ⟨rfl, fun _ => ⟨rfl, rfl, by simp [agg_part, ints, known], nofun, nofun⟩⟩

theorem ColumnPart.merge {vals vals' : List Int} (h : ColumnPart vals p) (h' : ColumnPart vals' q) :
    ColumnPart (vals ++ vals') (agg_merge p q) := by
  have hunion : {v | v ∈ vals ++ vals'} = {v | v ∈ vals} ∪ {v | v ∈ vals'} := by
    ext v
    simp
  unfold agg_merge
  dsimp only
  cases hq : q.seen with
  | false =>
    have hnil : vals' = [] := not_not.mp fun hne => by simp [h'.seen.mpr hne] at hq
    subst hnil
    rw [if_pos (by simp), append_nil]
    have hcnt := h'.cnt
    have hsum := h'.sum
    exact ⟨by simp_all [h.cnt], by simp_all [h.sum], h.seen, h.least, h.greatest⟩
  | true =>
    have hne := h'.seen.mp hq
    have hcnt : p.cnt + q.cnt = (vals ++ vals').length := by simp [h.cnt, h'.cnt]
    have hsum : p.sum + q.sum = (vals ++ vals').sum := by simp [h.sum, h'.sum]
    rw [if_neg (by simp)]
    cases hp : p.seen with
    | false =>
      have hnil : vals = [] := not_not.mp fun hne => by simp [h.seen.mpr hne] at hp
      subst hnil
      exact ⟨hcnt, hsum, by simp [hne], fun _ => h'.least hq, fun _ => h'.greatest hq⟩
    | true =>
      refine ⟨hcnt, hsum, by simp [hne], fun _ => ?_, fun _ => ?_⟩
      · rw [hunion]
        show IsLeast _ (if q.minv < p.minv then q.minv else p.minv)
        rw [← min_def_lt, min_comm]
        exact (h.least hp).union (h'.least hq)
      · rw [hunion]
        show IsGreatest _ (if p.maxv < q.maxv then q.maxv else p.maxv)
        rw [← max_def_lt]
        exact (h.greatest hp).union (h'.greatest hq)

theorem PartOf.merge (h : PartOf it ci rows p) (h' : PartOf it ci rows' q) :
    PartOf it ci (rows ++ rows') (agg_merge p q) where
  total := by
    have htotal : (agg_merge p q).total = p.total + q.total := by
      unfold agg_merge
      dsimp only
      split
      · rfl
      · split <;> rfl
    rw [htotal, h.total, h'.total, length_append]
  column hc := ints_append ci rows rows' ▸ (h.column hc).merge (h'.column hc)

/-- A visit merges the part of one row. -/
theorem agg_worker_visit_eq (it : SelectItem) (ci : Nat) (p : AggPart) (row : Row) :
    agg_worker_visit it ci p row = agg_merge p (agg_worker_visit it ci agg_part row) := by
  unfold agg_worker_visit
  dsimp only
  split
  · simp [agg_merge, agg_part]
  · split
    · simp [agg_merge, agg_part]
    · cases hp : p.seen <;> simp [agg_merge, agg_part, hp]

theorem PartOf.single (row : Row) : PartOf it ci [row] (agg_worker_visit it ci agg_part row) := by
  unfold agg_worker_visit
  dsimp only
  split
  · next hcounts => exact ⟨rfl, fun hc => by simp [SelectItem.counts, hcounts] at hc⟩
  · split
    · next hnull =>
      have hints : ints ci [row] = [] := by simp [ints, known, hnull]
      refine ⟨rfl, fun _ => hints ▸ ⟨rfl, rfl, by simp [agg_part], nofun, nofun⟩⟩
    · next hnull =>
      have hne : row_at row ci ≠ .null := hnull
      have hints : ints ci [row] = [int_val (row_at row ci)] := by simp [ints, known, hne]
      rw [if_pos (by simp [agg_part])]
      refine ⟨rfl, fun _ => hints ▸ ⟨rfl, by simp [agg_part], by simp, fun _ => ?_, fun _ => ?_⟩⟩
      · simp [IsLeast, lowerBounds]
      · simp [IsGreatest, upperBounds]

/-- What a worker has added up after its rows. -/
theorem PartOf.visit_all (h : PartOf it ci rows p) (more : List Row) :
    PartOf it ci (rows ++ more) (more.foldl (agg_worker_visit it ci) p) := by
  induction more generalizing rows p with
  | nil => rwa [append_nil]
  | cons row more ih =>
    rw [foldl_cons, agg_worker_visit_eq, ← singleton_append, ← append_assoc]
    exact ih (h.merge (.single row))

/-- The merged parts of the workers are the part of all their rows. -/
theorem PartOf.merge_all (h : PartOf it ci rows p) (workers : List (List Row)) :
    PartOf it ci (rows ++ workers.flatten)
      ((workers.map fun more => more.foldl (agg_worker_visit it ci) agg_part).foldl agg_merge p) := by
  induction workers generalizing rows p with
  | nil =>
    rw [flatten_nil, append_nil]
    exact h
  | cons more workers ih =>
    rw [map_cons, foldl_cons, flatten_cons, ← append_assoc]
    have hmore : PartOf it ci more (more.foldl (agg_worker_visit it ci) agg_part) := PartOf.nil.visit_all more
    exact ih (h.merge hmore)

/-- The best of some integers, by an operation that picks the better of two. -/
theorem best_of_ints {beats : Value → Value → Bool} {f : Int → Int → Int}
    (hf : ∀ a v, f a v = if beats (.int v) (.int a) then v else a) (a : Int) (l : List Int) :
    best_of beats ((a :: l).map Value.int) = some (.int (l.foldl f a)) := by
  show (l.map Value.int).foldl _ (some (Value.int a)) = _
  induction l generalizing a with
  | nil => rfl
  | cons v l ih =>
    rw [map_cons, foldl_cons, foldl_cons, ← ih, hf]
    dsimp only
    split <;> rfl

theorem known_eq_ints (htyped : ∀ row ∈ rows, ∀ s, row_at row ci ≠ .text s) :
    known ci rows = (ints ci rows).map .int := by
  unfold ints
  rw [map_map]
  refine (map_id _).symm.trans (map_congr_left fun v hv => ?_)
  obtain ⟨hv, hnull⟩ := mem_filter.mp hv
  obtain ⟨row, hrow, rfl⟩ := mem_map.mp hv
  have htext := htyped row hrow
  cases h : row_at row ci with
  | int a => rfl
  | text s => exact absurd h (htext s)
  | null => simp [h] at hnull

/-- The cell made of the parts is the one made of the rows. -/
theorem PartOf.cell (E : Env) (h : PartOf it ci rows p) (hagg : it.agg ≠ .AGG_NONE)
    (htyped : it.counts = false → ∀ row ∈ rows, ∀ s, row_at row ci ≠ .text s) :
    agg_cell E it p = compute_cell E it ci rows := by
  cases hc : it.counts with
  | true =>
    obtain ⟨hcount, hstar⟩ := Bool.and_eq_true_iff.mp hc
    unfold agg_cell compute_cell
    rw [of_decide_eq_true hcount, hstar, h.total]
    rfl
  | false =>
    obtain ⟨hcnt, hsum, hseen, hleast, hgreatest⟩ := h.column hc
    have hknown := known_eq_ints (htyped hc)
    unfold agg_cell compute_cell
    dsimp only
    rw [hknown, hcnt, hsum]
    generalize ints ci rows = vals at *
    have hints : (vals.map Value.int).map int_val = vals := by
      rw [map_map]
      exact map_id vals
    rw [length_map, hints]
    cases vals with
    | nil =>
      have hnot : p.seen = false := by simpa using hseen
      simp only [hnot]
      cases hit : it.agg <;> simp_all [SelectItem.counts, best_of]
    | cons a l =>
      have hyes : p.seen = true := hseen.mpr (by simp)
      have hmin := min?_eq_some_iff.mp (show (a :: l).min? = _ from min?_cons')
      have hmax := max?_eq_some_iff.mp (show (a :: l).max? = _ from max?_cons')
      have hmin : l.foldl min a = p.minv := IsLeast.unique ⟨hmin.1, fun b hb => hmin.2 b hb⟩ (hleast hyes)
      have hmax : l.foldl max a = p.maxv :=
        IsGreatest.unique ⟨hmax.1, fun b hb => hmax.2 b hb⟩ (hgreatest hyes)
      rw [best_of_ints (f := min) (fun a v => by rw [min_comm, min_def_lt]; simp [value_less]),
        best_of_ints (f := max) (fun a v => by simp [value_less, max_def_lt]), hmin, hmax]
      simp only [hyes]
      cases hit : it.agg <;> simp_all [SelectItem.counts, value_cell]

end Parts

/-! ### Pages -/

/-- Blocks rounded up reach the end. -/
theorem le_mul_chunk {n total : Nat} (hn : 0 < n) : total ≤ n * ((total + n - 1) / n) := by
  have hdiv := Nat.div_add_mod (total + n - 1) n
  have hmod := Nat.mod_lt (total + n - 1) hn
  omega

/-- The blocks of the workers are all pages. -/
theorem flatten_worker_pages {α : Type} (nworkers : Nat) (pages : List α) :
    (worker_pages nworkers pages).flatten = pages := by
  have hblocks : ∀ chunk n : Nat, ((List.range n).map fun i =>
      (pages.drop (i * chunk)).take chunk).flatten = pages.take (n * chunk) := by
    intro chunk n
    induction n with
    | zero => simp
    | succ n ih =>
      rw [range_succ, map_append, flatten_append, ih, Nat.succ_mul, take_add]
      simp
  unfold worker_pages
  dsimp only
  rw [hblocks]
  refine take_of_length_le ?_
  by_cases hlen : pages.length = 0
  · simp [hlen]
  · exact le_mul_chunk (by omega)

/-- What a scan finds by the records alone does not depend on the page numbers. -/
theorem scan_pages_filterMap {α : Type} (g : Version → Option α) (k : Nat) (pages : List HeapPage) :
    (scan_pages k pages).filterMap (fun x => g x.2) =
      pages.flatMap fun p => (p.slots.filterMap id).filterMap g := by
  have hslots : ∀ (ss : List (Option Version)) (k i : Nat),
      (scan_slots k i ss).filterMap (fun x => g x.2) = (ss.filterMap id).filterMap g := by
    intro ss
    induction ss with
    | nil => intro k i; rfl
    | cons s ss ih =>
      intro k i
      cases s with
      | none => exact ih k (i + 1)
      | some rec =>
        show (_ :: scan_slots k (i + 1) ss).filterMap _ = (rec :: ss.filterMap id).filterMap g
        rw [filterMap_cons, filterMap_cons, ih]
  induction pages generalizing k with
  | nil => rfl
  | cons p pages ih => rw [scan_pages, filterMap_append, hslots, ih, flatMap_cons]

theorem page_rows_flatten (d : TxnState) (t : Table) (tname : String) (w : Where)
    (blocks : List (List HeapPage)) :
    (blocks.map (page_rows d t tname w)).flatten = page_rows d t tname w blocks.flatten := by
  have heq : ∀ pages, page_rows d t tname w pages = pages.flatMap fun p =>
      (p.slots.filterMap id).filterMap fun rec => if rec_visible d rec then
        (if where_matches t.schema tname w rec.row then some rec.row else none) else none :=
    scan_pages_filterMap (fun rec => if rec_visible d rec then
      (if where_matches t.schema tname w rec.row then some rec.row else none) else none) 0
  induction blocks with
  | nil => rfl
  | cons pages blocks ih =>
    rw [map_cons, flatten_cons, flatten_cons, ih, heq, heq, heq, flatMap_append]

/-! ### The printed row -/

/-- A column of integers holds no text. -/
def IntsTyped (t : Table) : Prop :=
  ∀ x ∈ heap_scan t.heap, ∀ i c, t.schema.columns[i]? = some c → c.type = .COL_INT →
    ∀ s, row_at x.2.row i ≠ .text s

section Rows

variable (d : TxnState) {t : Table} {tname : String} {sel : SelectStmt}

/-- An item of a partial aggregation is `COUNT(*)` or names a column of integers. -/
theorem partial_item (ht : IntsTyped t) (happ : partial_applies sel (table_cols t tname) = true)
    {it : SelectItem} (hit : it ∈ sel.items) :
    it.agg ≠ .AGG_NONE ∧ item_ok (table_cols t tname) it = true ∧
      (it.counts = false → ∀ row ∈ (scan_rows d t tname sel.filter).found, ∀ s,
        row_at row (item_ci (table_cols t tname) it) ≠ .text s) := by
  unfold partial_applies at happ
  simp only [Bool.and_eq_true, all_eq_true, Bool.or_eq_true, decide_eq_true_eq] at happ
  obtain ⟨hagg, hcol⟩ := happ.2 it hit
  unfold item_ok item_ci SelectItem.counts
  rcases hcol with ⟨hcount, hstar⟩ | hcol
  · exact ⟨hagg, by simp [hcount, hstar], fun hc => by simp [hcount, hstar] at hc⟩
  cases hci : find_col (table_cols t tname) it.tbl it.col with
  | none => simp [hci] at hcol
  | some ci =>
    obtain ⟨c, hc, hint⟩ : ∃ c, (table_cols t tname)[ci]? = some c ∧ c.is_int = true := by
      simpa [hci, Option.any_eq_true] using hcol
    refine ⟨hagg, by simp [hc, hint], fun _ row hrow s => ?_⟩
    obtain ⟨x, hx, hrow⟩ := mem_filterMap.mp hrow
    obtain ⟨column, hcolumn, rfl⟩ : ∃ column, t.schema.columns[ci]? = some column ∧ _ = c := by
      simpa [table_cols] using hc
    have hx' : x.2.row = row := by
      split at hrow
      · simpa using (Option.ite_none_right_eq_some.mp hrow).2
      · cases hrow
    rw [← hx']
    exact ht x hx ci column hcolumn (of_decide_eq_true hint) s

/-- What the workers have added up for an item. -/
def merged_part (d : TxnState) (t : Table) (tname : String) (w : Where) (nworkers : Nat) (it : SelectItem) :
    AggPart :=
  ((worker_pages nworkers t.heap).map fun pages => (page_rows d t tname w pages).foldl
    (agg_worker_visit it (item_ci (table_cols t tname) it)) agg_part).foldl agg_merge agg_part

theorem merged_part_of (w : Where) (nworkers : Nat) (it : SelectItem) :
    PartOf it (item_ci (table_cols t tname) it) (scan_rows d t tname w).found
      (merged_part d t tname w nworkers it) := by
  have hnil : PartOf it (item_ci (table_cols t tname) it) [] agg_part := .nil
  have hpart := hnil.merge_all ((worker_pages nworkers t.heap).map (page_rows d t tname w))
  rwa [page_rows_flatten, flatten_worker_pages, map_map, nil_append] at hpart

end Rows

end MiniDb
