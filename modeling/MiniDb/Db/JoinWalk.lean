import MiniDb.Db.Join

/-! # A join walk as a list of tuples

  `mjoin_descend` works on shared slots and stops early.  As long as no ON
  clause refers to a table further down the chain, what a level reads has been
  written by the levels before it, and the walk hands a fixed list of tuples
  to `mjoin_emit` one after another (`walk`). -/

namespace MiniDb

open List Function

/-! ### Tuples -/

/-- The value that an ON clause names in a tuple. -/
def tuple_value (tuple : List Row) (ref : Nat × Nat) : Value := row_at (tuple[ref.1]?.getD []) ref.2

/-- The ON clause holds of a tuple. -/
def level_on (l : JoinLevel) (tuple : List Row) : Bool :=
  values_equal (tuple_value tuple l.on_a) (tuple_value tuple l.on_b)

/-- The visible rows of a table, in heap order. -/
def visible_rows (d : TxnState) (t : Table) : List Row :=
  ((heap_scan t.heap).filter fun x => rec_visible d x.2).map fun x => x.2.row

/-- The rows of level `k` that go with a tuple of the levels before. -/
def level_rows (d : TxnState) (p : JoinPlan) (k : Nat) (l : JoinLevel) (pre : List Row) : List Row :=
  match (if k = 0 then .JM_SCAN else p.method k), join_key k l with
  | .JM_INDEX, some (_, key) =>
    match tuple_value pre key with
    | .int v =>
      ((pk_vis_find d (fetch_all l.tab (btree_find_all l.tab.index v))).1.map Version.row).toList
    | _ => []
  | .JM_HASH, some (_, key) =>
    ((hash_bucket (p.hash k) (tuple_value pre key)).filter fun e =>
      values_equal e.1 (tuple_value pre key)).map Prod.snd
  | _, _ => (visible_rows d l.tab).filter fun row => k = 0 || level_on l (pre ++ [row])

/-- NULLs for a LEFT JOIN without a match. -/
def with_nulls (k : Nat) (l : JoinLevel) (rows : List Row) : List Row :=
  if k ≠ 0 && l.is_left && rows.isEmpty then [List.replicate l.tab.schema.columns.length .null]
  else rows

/-- The tuples that a walk from level `k` on comes to. -/
def walk (d : TxnState) (p : JoinPlan) : Nat → List JoinLevel → List Row → List (List Row)
  | _, [], pre => [pre]
  | k, l :: ls, pre =>
    (with_nulls k l (level_rows d p k l pre)).flatMap fun row => walk d p (k + 1) ls (pre ++ [row])

/-! ### Emission -/

/-- `mjoin_emit` on the rows emitted so far. -/
def emit_one (p : JoinPlan) (tuple : List Row) (es : List (List Row)) : List (List Row) × Bool :=
  if !where_matches_chain (p.levels.zip tuple) p.filter then (es, false)
  else if p.materialize then (if es.length < SELECT_MAX_ROWS then es ++ [tuple] else es, false)
  else (es ++ [tuple], decide (0 ≤ p.limit ∧ p.limit ≤ (es ++ [tuple]).length))

/-- Emit one after another until told to stop. -/
def emit_list (p : JoinPlan) : List (List Row) → List (List Row) → List (List Row) × Bool
  | [], es => (es, false)
  | tuple :: tuples, es =>
    if (emit_one p tuple es).2 then ((emit_one p tuple es).1, true)
    else emit_list p tuples (emit_one p tuple es).1

theorem emit_list_append (p : JoinPlan) (xs ys : List (List Row)) (es : List (List Row)) :
    emit_list p (xs ++ ys) es =
      if (emit_list p xs es).2 then ((emit_list p xs es).1, true)
      else emit_list p ys (emit_list p xs es).1 := by
  induction xs generalizing es with
  | nil => rfl
  | cons x xs ih =>
    rw [cons_append, emit_list, emit_list]
    by_cases hstop : (emit_one p x es).2 = true
    · simp only [if_pos hstop, if_true]
    · simp only [if_neg hstop]
      exact ih _

/-! ### Slots -/

/-- The tuple in the slots before level `k`. -/
def MJoin.tuple (m : MJoin) (k : Nat) : List Row := (List.range k).map m.rows

variable (m : MJoin)

theorem MJoin.tuple_succ (k : Nat) : m.tuple (k + 1) = m.tuple k ++ [m.rows k] := by
  unfold MJoin.tuple
  rw [range_succ, map_append]
  rfl

theorem MJoin.tuple_congr {m m' : MJoin} {k : Nat} (h : ∀ i < k, m'.rows i = m.rows i) :
    m'.tuple k = m.tuple k :=
  map_congr_left fun i hi => h i (mem_range.mp hi)

theorem MJoin.value_eq {k : Nat} {ref : Nat × Nat} (h : ref.1 < k) :
    m.value ref = tuple_value (m.tuple k) ref := by
  unfold MJoin.value tuple_value MJoin.tuple
  rw [List.getElem?_map, List.getElem?_range h]
  rfl

theorem MJoin.put_tuple (k : Nat) (row : Row) :
    (m.put k row).tuple (k + 1) = m.tuple k ++ [row] := by
  have hrow : (m.put k row).rows k = row := update_self ..
  have hpre : (m.put k row).tuple k = m.tuple k :=
    MJoin.tuple_congr fun i hi => update_of_ne (ne_of_lt hi) ..
  rw [MJoin.tuple_succ, hrow, hpre]

/-! ### What a part of the walk does -/

/-- From `m` to the outcome `r`, the tuples `ts` are emitted; slots and marks
    before level `k` stay, and `hit` says whether level `k` has matched. -/
structure Emits (p : JoinPlan) (k : Nat) (ts : List (List Row)) (hit : Bool) (m : MJoin)
    (r : MJoin × Bool) : Prop where
  emit : (r.1.emitted, r.2) = emit_list p ts m.emitted
  rows : ∀ i < k, r.1.rows i = m.rows i
  matched : ∀ i < k, r.1.matched i = m.matched i
  hit : r.2 = false → r.1.matched k = (m.matched k || hit)

/-- What the levels below `k` do with the tuple in the slots. -/
def Down (p : JoinPlan) (k : Nat) (w : List Row → List (List Row)) (down : MJoin → MJoin × Bool) :
    Prop :=
  ∀ m, ((down m).1.emitted, (down m).2) = emit_list p (w (m.tuple k)) m.emitted ∧
    (∀ i < k, (down m).1.rows i = m.rows i) ∧ ∀ i < k, (down m).1.matched i = m.matched i

section Emits

variable {p : JoinPlan} {k : Nat} {m m' : MJoin} {α : Type}

theorem Emits.none (hemit : m'.emitted = m.emitted) (hrows : ∀ i < k, m'.rows i = m.rows i)
    (hmatched : ∀ i ≤ k, m'.matched i = m.matched i) : Emits p k [] false m (m', false) where
  emit := by rw [hemit]; rfl
  rows := hrows
  matched i hi := hmatched i (le_of_lt hi)
  hit _ := by rw [hmatched k (Nat.le_refl k), Bool.or_false]

theorem Emits.visit_all {visit : α → MJoin → MJoin × Bool} {g : α → List (List Row)}
    {hit : α → Bool} (as : List α)
    (h : ∀ a ∈ as, ∀ m', (∀ i < k, m'.rows i = m.rows i) →
      Emits p k (g a) (hit a) m' (visit a m')) :
    Emits p k (as.flatMap g) (as.any hit) m (visit_all visit as m) := by
  suffices hall : ∀ m', (∀ i < k, m'.rows i = m.rows i) →
      Emits p k (as.flatMap g) (as.any hit) m' (MiniDb.visit_all visit as m') from hall m fun _ _ => rfl
  induction as with
  | nil => exact fun m' _ => Emits.none rfl (fun _ _ => rfl) fun _ _ => rfl
  | cons a as ih =>
    intro m' hm'
    have ha := h a mem_cons_self m' hm'
    have hrest := ih fun b hb => h b (mem_cons_of_mem a hb)
    rw [flatMap_cons, any_cons, MiniDb.visit_all]
    rcases hv : visit a m' with ⟨m₁, stop⟩
    rw [hv] at ha
    obtain ⟨h1, h2⟩ := Prod.mk.inj ha.emit
    cases stop with
    | true =>
      refine ⟨?_, ha.rows, ha.matched, nofun⟩
      rw [emit_list_append, if_pos h2.symm, ← h1]
    | false =>
      have hnext := hrest m₁ fun i hi => (ha.rows i hi).trans (hm' i hi)
      dsimp only
      refine ⟨?_, fun i hi => (hnext.rows i hi).trans (ha.rows i hi),
        fun i hi => (hnext.matched i hi).trans (ha.matched i hi), fun hfalse => ?_⟩
      · rw [emit_list_append, if_neg (by rw [← h2]; exact Bool.false_ne_true), ← h1]
        exact hnext.emit
      · rw [hnext.hit hfalse, ha.hit rfl, Bool.or_assoc]

/-- A row is put into its slot, the match is noted and the walk goes on. -/
theorem Down.emits {w : List Row → List (List Row)} {down : MJoin → MJoin × Bool}
    (hd : Down p (k + 1) w down) (m m' : MJoin) (hemit : m'.emitted = m.emitted)
    (hrows : ∀ i < k, m'.rows i = m.rows i) (hmatched : ∀ i < k, m'.matched i = m.matched i)
    (hit : Bool) (hhit : m'.matched k = (m.matched k || hit)) :
    Emits p k (w (m.tuple k ++ [m'.rows k])) hit m (down m') := by
  obtain ⟨h1, h2, h3⟩ := hd m'
  refine ⟨?_, fun i hi => (h2 i (by omega)).trans (hrows i hi),
    fun i hi => (h3 i (by omega)).trans (hmatched i hi), fun _ => (h3 k (by omega)).trans hhit⟩
  rw [h1, MJoin.tuple_succ, MJoin.tuple_congr hrows, hemit]

/-- A loop that passes over some of its elements. -/
theorem Emits.visit_filter {visit : α → MJoin → MJoin × Bool} {c : α → Bool} {f : α → Row}
    {w : Row → List (List Row)} {b : Bool} (as : List α)
    (hyes : ∀ a ∈ as, c a = true → ∀ m', (∀ i < k, m'.rows i = m.rows i) →
      Emits p k (w (f a)) b m' (visit a m'))
    (hno : ∀ a ∈ as, c a = false → ∀ m', (∀ i < k, m'.rows i = m.rows i) →
      Emits p k [] false m' (visit a m')) :
    Emits p k (((as.filter c).map f).flatMap w) (b && !((as.filter c).map f).isEmpty) m
      (MiniDb.visit_all visit as m) := by
  have hlist : ((as.filter c).map f).flatMap w = as.flatMap fun a => if c a then w (f a) else [] := by
    clear hyes hno
    induction as with
    | nil => rfl
    | cons a as ih => by_cases hc : c a = true <;> simp [hc, ih]
  have hhit : (b && !((as.filter c).map f).isEmpty) = as.any fun a => b && c a := by
    clear hyes hno hlist
    induction as with
    | nil => simp
    | cons a as ih =>
      cases b <;> by_cases hc : c a = true <;> simp_all
  rw [hlist, hhit]
  refine Emits.visit_all as fun a ha m' hm' => ?_
  by_cases hc : c a = true
  · rw [if_pos hc, hc, Bool.and_true]
    exact hyes a ha hc m' hm'
  · rw [if_neg hc, Bool.eq_false_iff.mpr hc, Bool.and_false]
    exact hno a ha (Bool.eq_false_iff.mpr hc) m' hm'

end Emits

/-! ### The walk -/

/-- The ON clause of level `k` refers to no later table. -/
def BackRefs (k : Nat) (l : JoinLevel) : Prop := l.on_a.1 ≤ k ∧ l.on_b.1 ≤ k

instance (k : Nat) (l : JoinLevel) : Decidable (BackRefs k l) := inferInstanceAs (Decidable (_ ∧ _))

theorem join_key_lt {k kcol : Nat} {l : JoinLevel} {key : Nat × Nat}
    (h : join_key k l = some (kcol, key)) : key.1 < k := by
  unfold join_key at h
  split at h
  · next hk =>
    cases h
    exact hk.2
  split at h
  · next hk =>
    cases h
    exact hk.2
  · cases h

section Walk

variable {d : TxnState} {p : JoinPlan} {k : Nat} {l : JoinLevel} {down : MJoin → MJoin × Bool}
  {w : List Row → List (List Row)} {x : Rid × Version}

theorem put_mark_rows (m : MJoin) (k : Nat) (row : Row) :
    ((m.put k row).mark k true).rows k = row ∧
      (∀ i < k, ((m.put k row).mark k true).rows i = m.rows i) ∧
      (∀ i < k, ((m.put k row).mark k true).matched i = m.matched i) ∧
      ((m.put k row).mark k true).matched k = true :=
  ⟨update_self .., fun _ hi => update_of_ne (ne_of_lt hi) ..,
    fun _ hi => update_of_ne (ne_of_lt hi) .., update_self ..⟩

variable (hd : Down p (k + 1) w down)

include hd

/-- A row of a level with an ON clause. -/
theorem Down.match {m m' : MJoin} (row : Row)
    (hemit : m'.emitted = m.emitted) (hrows : ∀ i < k, m'.rows i = m.rows i)
    (hmatched : m'.matched = m.matched) :
    Emits p k (w (m.tuple k ++ [row])) true m (down ((m'.put k row).mark k true)) := by
  obtain ⟨hrow, hpre, hmarks, hmark⟩ := put_mark_rows m' k row
  have hemits := hd.emits m ((m'.put k row).mark k true) hemit
    (fun i hi => (hpre i hi).trans (hrows i hi))
    (fun i hi => (hmarks i hi).trans (congrFun hmatched i)) true (by rw [hmark, Bool.or_true])
  rwa [hrow] at hemits

omit hd in
/-- The ON clause of a level reads the slots before it and its own. -/
theorem put_value (hback : BackRefs k l) (m : MJoin) (row : Row) :
    values_equal ((m.put k row).value l.on_a) ((m.put k row).value l.on_b) =
      level_on l (m.tuple k ++ [row]) := by
  unfold level_on
  rw [← MJoin.put_tuple, (m.put k row).value_eq (Nat.lt_succ_of_le hback.1),
    (m.put k row).value_eq (Nat.lt_succ_of_le hback.2)]

/-- One record of a scan. -/
def scan_visit (d : TxnState) (k : Nat) (l : JoinLevel) (down : MJoin → MJoin × Bool)
    (x : Rid × Version) (m : MJoin) : MJoin × Bool :=
  let m := { m with tests := m.tests ++ [rec_test d x.2] }
  if !rec_visible d x.2 then (m, false)
  else
    let m := m.put k x.2.row
    if k = 0 then down m
    else if values_equal (m.value l.on_a) (m.value l.on_b) then down (m.mark k true)
    else (m, false)

theorem scan_visit_yes (hback : k ≠ 0 → BackRefs k l) (m : MJoin) (hvis : rec_visible d x.2 = true)
    (hon : (k = 0 || level_on l (m.tuple k ++ [x.2.row]) : Bool) = true) :
    Emits p k (w (m.tuple k ++ [x.2.row])) (k ≠ 0) m (scan_visit d k l down x m) := by
  unfold scan_visit
  dsimp only
  rw [if_neg (by simp [hvis])]
  by_cases hk : k = 0
  · rw [if_pos hk, decide_eq_false (by simp [hk])]
    have hemits := hd.emits m (({ m with tests := m.tests ++ [rec_test d x.2] } : MJoin).put k x.2.row) rfl
      (fun i hi => absurd hi (by omega)) (fun i _ => rfl) false (by rw [Bool.or_false]; rfl)
    rwa [show (({ m with tests := m.tests ++ [rec_test d x.2] } : MJoin).put k x.2.row).rows k =
      x.2.row from update_self ..] at hemits
  · have hon : level_on l (m.tuple k ++ [x.2.row]) = true := by simpa [hk] using hon
    have htuple : ({ m with tests := m.tests ++ [rec_test d x.2] } : MJoin).tuple k = m.tuple k := rfl
    rw [if_neg hk, decide_eq_true hk, put_value (hback hk), htuple, if_pos hon]
    exact hd.match x.2.row rfl (fun _ _ => rfl) rfl

omit hd in
theorem scan_visit_no (hback : k ≠ 0 → BackRefs k l) (m : MJoin)
    (hno : (rec_visible d x.2 && (k = 0 || level_on l (m.tuple k ++ [x.2.row]))) = false) :
    Emits p k [] false m (scan_visit d k l down x m) := by
  unfold scan_visit
  dsimp only
  split
  · exact Emits.none rfl (fun _ _ => rfl) fun _ _ => rfl
  · next hvis =>
    simp only [Bool.not_eq_true', Bool.not_eq_false] at hvis
    rw [hvis, Bool.true_and, Bool.or_eq_false_iff] at hno
    have hk : k ≠ 0 := by simpa using hno.1
    have htuple : ({ m with tests := m.tests ++ [rec_test d x.2] } : MJoin).tuple k = m.tuple k := rfl
    rw [if_neg hk, put_value (hback hk), htuple, if_neg (Bool.eq_false_iff.mp hno.2)]
    exact Emits.none rfl (fun i hi => update_of_ne (ne_of_lt hi) ..) fun _ _ => rfl

theorem scan_emits (hback : k ≠ 0 → BackRefs k l) (m : MJoin) :
    Emits p k
      (((visible_rows d l.tab).filter fun row => k = 0 || level_on l (m.tuple k ++ [row])).flatMap
        fun row => w (m.tuple k ++ [row])) (k ≠ 0 && !((visible_rows d l.tab).filter fun row =>
        k = 0 || level_on l (m.tuple k ++ [row])).isEmpty) m
      (visit_all (scan_visit d k l down) (heap_scan l.tab.heap) m) := by
  have hfilter : ((visible_rows d l.tab).filter fun row => k = 0 || level_on l (m.tuple k ++ [row])) =
      ((heap_scan l.tab.heap).filter fun x => rec_visible d x.2 &&
        (k = 0 || level_on l (m.tuple k ++ [x.2.row]))).map fun x => x.2.row := by
    unfold visible_rows
    rw [filter_map, filter_filter]
    congr 1
    exact filter_congr fun x _ => Bool.and_comm ..
  rw [hfilter]
  refine Emits.visit_filter (w := fun row => w (m.tuple k ++ [row])) (heap_scan l.tab.heap)
    (fun x _ hc m' hm' => ?_) fun x _ hc m' hm' => ?_
  · obtain ⟨hvis, hon⟩ := Bool.and_eq_true_iff.mp hc
    rw [← MJoin.tuple_congr hm'] at hon ⊢
    exact scan_visit_yes hd hback m' hvis hon
  · rw [← MJoin.tuple_congr hm'] at hc
    exact scan_visit_no hback m' hc

theorem join_level_emits (hback : k ≠ 0 → BackRefs k l) (m : MJoin) :
    Emits p k ((level_rows d p k l (m.tuple k)).flatMap fun row => w (m.tuple k ++ [row]))
      (k ≠ 0 && !(level_rows d p k l (m.tuple k)).isEmpty) m (join_level d p k l down m) := by
  have hscan : Emits p k _ _ m (visit_all (scan_visit d k l down) (heap_scan l.tab.heap) m) :=
    scan_emits hd hback m
  unfold level_rows join_level
  have hmethod : (if k = 0 then JoinMethod.JM_SCAN else p.method k) ≠ .JM_SCAN → k ≠ 0 := by
    intro hne hk
    exact hne (if_pos hk)
  generalize (if k = 0 then JoinMethod.JM_SCAN else p.method k) = method at hmethod
  cases hkey : join_key k l with
  | none => cases method <;> exact hscan
  | some kk =>
    obtain ⟨kcol, key⟩ := kk
    have hlt := join_key_lt hkey
    cases method with
    | JM_SCAN => exact hscan
    | JM_INDEX =>
      have hk := hmethod nofun
      dsimp only
      rw [m.value_eq hlt, decide_eq_true hk, Bool.true_and]
      cases tuple_value (m.tuple k) key with
      | null => exact Emits.none rfl (fun _ _ => rfl) fun _ _ => rfl
      | text s => exact Emits.none rfl (fun _ _ => rfl) fun _ _ => rfl
      | int v =>
        dsimp only
        generalize pk_vis_find d (fetch_all l.tab (btree_find_all l.tab.index v)) = found
        obtain ⟨rec, tests⟩ := found
        cases rec with
        | none => exact Emits.none rfl (fun _ _ => rfl) fun _ _ => rfl
        | some rec =>
          have hemits : Emits p k (w (m.tuple k ++ [rec.row])) true m
              (down ((({ m with tests := m.tests ++ tests } : MJoin).put k rec.row).mark k true)) :=
            hd.match rec.row rfl (fun _ _ => rfl) rfl
          simpa using hemits
    | JM_HASH =>
      have hk := hmethod nofun
      dsimp only
      rw [decide_eq_true hk, m.value_eq hlt]
      refine Emits.visit_filter (w := fun row => w (m.tuple k ++ [row])) _
        (fun e _ hc m' hm' => ?_) fun e _ hc m' hm' => ?_
      · rw [m'.value_eq hlt, MJoin.tuple_congr hm', if_pos hc, ← MJoin.tuple_congr hm']
        exact hd.match e.2 rfl (fun _ _ => rfl) rfl
      · rw [m'.value_eq hlt, MJoin.tuple_congr hm', if_neg (Bool.eq_false_iff.mp hc)]
        exact Emits.none rfl (fun _ _ => rfl) fun _ _ => rfl

omit hd

theorem mjoin_emit_eq (p : JoinPlan) (m : MJoin) :
    ((mjoin_emit p m).1.emitted, (mjoin_emit p m).2) =
        emit_one p (m.tuple p.levels.length) m.emitted ∧
      (mjoin_emit p m).1.rows = m.rows ∧ (mjoin_emit p m).1.matched = m.matched := by
  unfold mjoin_emit emit_one MJoin.tuple
  dsimp only
  split
  · exact ⟨rfl, rfl, rfl⟩
  split
  · split <;> exact ⟨rfl, rfl, rfl⟩
  · exact ⟨rfl, rfl, rfl⟩

theorem emit_list_single (p : JoinPlan) (tuple : List Row) (es : List (List Row)) :
    emit_list p [tuple] es = emit_one p tuple es := by
  rw [emit_list]
  split
  · next h => exact Prod.ext rfl h.symm
  · next h => exact Prod.ext rfl (Bool.eq_false_iff.mpr h).symm

/-- The walk emits its tuples in order. -/
theorem mjoin_descend_down (d : TxnState) (p : JoinPlan) (ls : List JoinLevel) (k : Nat)
    (hlen : k + ls.length = p.levels.length)
    (hback : ∀ i l, ls[i]? = some l → k + i ≠ 0 → BackRefs (k + i) l) :
    Down p k (walk d p k ls) (mjoin_descend d p k ls) := by
  induction ls generalizing k with
  | nil =>
    intro m
    obtain ⟨hemit, hrows, hmatched⟩ := mjoin_emit_eq p m
    rw [show p.levels.length = k from hlen.symm] at hemit
    refine ⟨?_, fun i _ => congrFun hrows i, fun i _ => congrFun hmatched i⟩
    rw [walk, emit_list_single]
    exact hemit
  | cons l ls ih =>
    intro m
    have hdown : Down p (k + 1) (walk d p (k + 1) ls) (mjoin_descend d p (k + 1) ls) := by
      refine ih (k + 1) (by rw [← hlen, length_cons]; omega) fun i l' hl' _ => ?_
      have hb := hback (i + 1) l' hl' (by omega)
      rwa [show k + (i + 1) = k + 1 + i by omega] at hb
    -- the mark of this level is taken back first
    generalize hm₀ : (if k = 0 then m else m.mark k false) = m₀
    have hstart : m₀.emitted = m.emitted ∧ m₀.rows = m.rows ∧ (∀ i < k, m₀.matched i = m.matched i) ∧
        (k ≠ 0 → m₀.matched k = false) := by
      subst hm₀
      by_cases hk : k = 0
      · rw [if_pos hk]
        exact ⟨rfl, rfl, fun _ _ => rfl, fun hne => absurd hk hne⟩
      · rw [if_neg hk]
        exact ⟨rfl, rfl, fun i hi => update_of_ne (ne_of_lt hi) .., fun _ =>
          update_self ..⟩
    obtain ⟨hemit₀, hrows₀, hmatched₀, hmark₀⟩ := hstart
    have htuple : m₀.tuple k = m.tuple k := MJoin.tuple_congr fun i _ => congrFun hrows₀ i
    have hlevel := join_level_emits (d := d) hdown (fun hk => hback 0 l rfl hk) m₀
    rw [htuple] at hlevel
    rw [mjoin_descend, walk, hm₀]
    rcases hr : join_level d p k l (mjoin_descend d p (k + 1) ls) m₀ with ⟨m₁, stop⟩
    rw [hr] at hlevel
    obtain ⟨hemit, hrows₁, hmatched₁, hhit⟩ := hlevel
    dsimp only at hemit hrows₁ hmatched₁ hhit
    rw [hemit₀] at hemit
    have hrows : ∀ i < k, m₁.rows i = m.rows i := fun i hi => (hrows₁ i hi).trans (congrFun hrows₀ i)
    have hmatched : ∀ i < k, m₁.matched i = m.matched i := fun i hi =>
      (hmatched₁ i hi).trans (hmatched₀ i hi)
    generalize hlr : level_rows d p k l (m.tuple k) = rows at hemit hhit
    cases stop with
    | true =>
      -- a walk that was stopped has come to some row
      have hne : rows.isEmpty = false := by
        cases rows with
        | nil => exact absurd (congrArg Prod.snd hemit) Bool.true_eq_false.mp
        | cons _ _ => rfl
      dsimp only
      refine ⟨?_, hrows, hmatched⟩
      unfold with_nulls
      rw [hne, Bool.and_false, if_neg Bool.false_ne_true]
      exact hemit
    | false =>
      have hhit := hhit rfl
      dsimp only at hhit ⊢
      by_cases hnull : (k ≠ 0 && l.is_left && rows.isEmpty) = true
      · have hnull' := hnull
        simp only [Bool.and_eq_true, decide_eq_true_eq] at hnull'
        obtain ⟨⟨hk, hleft⟩, hempty⟩ := hnull'
        have hnone : m₁.matched k = false := by
          rw [hhit, hmark₀ hk, hempty]
          simp
        have hgo : (k ≠ 0 && l.is_left && !m₁.matched k) = true := by simp [hk, hleft, hnone]
        have hnil : rows = [] := isEmpty_iff.mp hempty
        have hemitted : m₁.emitted = m.emitted := by
          rw [hnil] at hemit
          exact (Prod.mk.inj hemit).1
        rw [if_pos hgo]
        unfold with_nulls
        rw [if_pos hnull, flatMap_singleton]
        have hput := hdown (m₁.put k (List.replicate l.tab.schema.columns.length .null))
        rw [MJoin.put_tuple, MJoin.tuple_congr hrows] at hput
        refine ⟨hput.1.trans (by rw [← hemitted]; rfl), fun i hi => ?_, fun i hi => ?_⟩
        · rw [hput.2.1 i (by omega), ← hrows i hi]
          exact update_of_ne (ne_of_lt hi) ..
        · rw [hput.2.2 i (by omega), ← hmatched i hi]
          rfl
      · have hstay : (k ≠ 0 && l.is_left && !m₁.matched k) = false := by
          by_cases hk : k = 0
          · simp [hk]
          · rw [hhit, hmark₀ hk]
            simpa [hk] using hnull
        rw [hstay, if_neg Bool.false_ne_true]
        unfold with_nulls
        rw [if_neg hnull]
        exact ⟨hemit, hrows, hmatched⟩

end Walk

/-! ### How many tuples are emitted -/

section Bound

variable {p : JoinPlan} {es : List (List Row)} (tuples : List (List Row)) {tuple : List Row}

/-- The walk goes on only up to so many tuples: the rows that are collected
    have a fixed buffer, the rows that are printed a LIMIT.  The limit is looked
    at after the first row. -/
def JoinPlan.bound (p : JoinPlan) : Option Nat :=
  if p.materialize then some SELECT_MAX_ROWS
  else if 0 ≤ p.limit then some (max 1 p.limit.toNat)
  else none

/-- The tuples that WHERE holds of. -/
def JoinPlan.keeps (p : JoinPlan) (tuples : List (List Row)) : List (List Row) :=
  tuples.filter fun tuple => where_matches_chain (p.levels.zip tuple) p.filter

theorem JoinPlan.keeps_pos
    (h : where_matches_chain (p.levels.zip tuple) p.filter = true) :
    p.keeps (tuple :: tuples) = [tuple] ++ p.keeps tuples := by
  unfold JoinPlan.keeps
  simp [h]

theorem JoinPlan.keeps_neg
    (h : ¬ where_matches_chain (p.levels.zip tuple) p.filter = true) :
    p.keeps (tuple :: tuples) = p.keeps tuples := by
  unfold JoinPlan.keeps
  simp [h]

theorem emit_list_collected (hmat : p.materialize = true) (hes : es.length ≤ SELECT_MAX_ROWS)
    (tuples : List (List Row)) :
    (emit_list p tuples es).1 = (es ++ p.keeps tuples).take SELECT_MAX_ROWS := by
  induction tuples generalizing es with
  | nil =>
    show es = (es ++ []).take _
    rw [append_nil, take_of_length_le hes]
  | cons tuple tuples ih =>
    by_cases hw : where_matches_chain (p.levels.zip tuple) p.filter = true
    · rw [JoinPlan.keeps_pos tuples hw]
      by_cases hlen : es.length < SELECT_MAX_ROWS
      · have hone : emit_one p tuple es = (es ++ [tuple], false) := by
          simp [emit_one, hw, hmat, hlen]
        rw [emit_list, hone, if_neg Bool.false_ne_true, ih (by rw [length_append]; exact hlen),
          append_assoc]
      · have hone : emit_one p tuple es = (es, false) := by simp [emit_one, hw, hmat, hlen]
        have hfull : es.length = SELECT_MAX_ROWS := Nat.le_antisymm hes (not_lt.mp hlen)
        rw [emit_list, hone, if_neg Bool.false_ne_true, ih hes, ← hfull, take_left,
          take_left]
    · have hone : emit_one p tuple es = (es, false) := by simp [emit_one, hw]
      rw [JoinPlan.keeps_neg tuples hw, emit_list, hone, if_neg Bool.false_ne_true, ih hes]

theorem emit_list_limited (hmat : p.materialize = false) (hlim : 0 ≤ p.limit)
    (hes : es.length < max 1 p.limit.toNat) (tuples : List (List Row)) :
    (emit_list p tuples es).1 = (es ++ p.keeps tuples).take (max 1 p.limit.toNat) := by
  induction tuples generalizing es with
  | nil =>
    show es = (es ++ []).take _
    rw [append_nil, take_of_length_le hes.le]
  | cons tuple tuples ih =>
    by_cases hw : where_matches_chain (p.levels.zip tuple) p.filter = true
    · have hone : emit_one p tuple es =
          (es ++ [tuple], decide (0 ≤ p.limit ∧ p.limit ≤ (es ++ [tuple]).length)) := by
        simp [emit_one, hw, hmat]
      have hlen : (es ++ [tuple]).length = es.length + 1 := by simp
      rw [JoinPlan.keeps_pos tuples hw, emit_list, hone, ← append_assoc]
      dsimp only
      by_cases hstop : 0 ≤ p.limit ∧ p.limit ≤ (es ++ [tuple]).length
      · -- the limit is reached with this tuple
        have hfull : (es ++ [tuple]).length = max 1 p.limit.toNat := by omega
        rw [if_pos (decide_eq_true hstop), ← hfull, take_left]
      · rw [if_neg (by simpa using hstop)]
        exact ih (by omega)
    · have hone : emit_one p tuple es = (es, false) := by simp [emit_one, hw]
      rw [JoinPlan.keeps_neg tuples hw, emit_list, hone, if_neg Bool.false_ne_true, ih hes]

theorem emit_list_all (hmat : p.materialize = false) (hlim : ¬ 0 ≤ p.limit)
    (tuples : List (List Row)) : (emit_list p tuples es).1 = es ++ p.keeps tuples := by
  induction tuples generalizing es with
  | nil => exact (append_nil es).symm
  | cons tuple tuples ih =>
    by_cases hw : where_matches_chain (p.levels.zip tuple) p.filter = true
    · have hone : emit_one p tuple es = (es ++ [tuple], false) := by
        simp [emit_one, hw, hmat, hlim]
      rw [JoinPlan.keeps_pos tuples hw, emit_list, hone, if_neg Bool.false_ne_true, ih,
        append_assoc]
    · have hone : emit_one p tuple es = (es, false) := by simp [emit_one, hw]
      rw [JoinPlan.keeps_neg tuples hw, emit_list, hone, if_neg Bool.false_ne_true, ih]

theorem emit_list_bound (p : JoinPlan) (tuples : List (List Row)) :
    (emit_list p tuples []).1 =
      match p.bound with
      | none => p.keeps tuples
      | some n => (p.keeps tuples).take n := by
  unfold JoinPlan.bound
  by_cases hmat : p.materialize = true
  · rw [if_pos hmat]
    exact emit_list_collected hmat (Nat.zero_le _) tuples
  have hmat := Bool.eq_false_iff.mpr hmat
  rw [hmat, if_neg Bool.false_ne_true]
  by_cases hlim : 0 ≤ p.limit
  · rw [if_pos hlim]
    exact emit_list_limited hmat hlim (lt_of_lt_of_le Nat.one_pos (Nat.le_max_left ..)) tuples
  · rw [if_neg hlim]
    exact emit_list_all hmat hlim tuples

end Bound

/-- A join emits the tuples of its walk that WHERE holds of, up to the bound. -/
theorem mjoin_emitted (d : TxnState) (p : JoinPlan)
    (hback : ∀ k l, p.levels[k]? = some l → k ≠ 0 → BackRefs k l) :
    (mjoin d p).emitted =
      match p.bound with
      | none => p.keeps (walk d p 0 p.levels [])
      | some n => (p.keeps (walk d p 0 p.levels [])).take n := by
  have hdown := mjoin_descend_down d p p.levels 0 (Nat.zero_add _) fun k l hl hk => by
    rw [Nat.zero_add] at hk ⊢
    exact hback k l hl hk
  rw [← emit_list_bound]
  exact congrArg Prod.fst (hdown mjoin_start).1

end MiniDb
