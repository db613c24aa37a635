import MiniDb.Storage.LsmFiles
import MiniDb.Db.BTree
import MiniDb.Db.StoredRows

/-! # The primary key index over whole runs

  The index has one entry for every version in the heap, under either engine,
  as long as no key outside 32 bits is written: the index keeps the literal,
  the heap what a cast leaves of it.  The versions that a condition on the key
  finds are then those of a full scan, but for the duplicates that a seek to
  the lower bound of `>=` passes over. -/

namespace MiniDb

open Framework
open List hiding beq_eq_decide

/-! ### The tree behind the list of the LSM engine -/

/-- What a call on the tree does to the list of its pairs. -/
def lsm_call (l : LSM) : Lsm.Call true → LSM
  | .put_dup key val => lsm_put_dup l key val
  | .delete_val key val => lsm_delete_val l key val
  | .clear => []
  | .flush => l
  | .compact => l

theorem lsm_put_dup_perm {l : LSM} {key val : Int} (h : (key, val) ∉ l) :
    (lsm_put_dup l key val).Perm ((key, val) :: l) := by
  unfold lsm_put_dup
  rw [if_neg (by rwa [contains_iff_mem])]
  refine perm_middle.trans (List.Perm.cons _ ?_)
  rw [takeWhile_append_dropWhile]

section Tree

variable {l : LSM} (h : l.Pairwise fun a b => toLex a < toLex b)

include h

theorem lsm_put_dup_ascending (key val : Int) :
    (lsm_put_dup l key val).Pairwise fun a b => toLex a < toLex b := by
  have hlt : (pair_lt · (key, val)) = fun e => decide (toLex e < toLex (key, val)) := by
    funext e
    simp [pair_lt, Prod.Lex.lt_iff]
  unfold lsm_put_dup
  rw [hlt]
  split
  · exact h
  · next hnot =>
    have hpair := h
    rw [← takeWhile_append_dropWhile (p := fun e => toLex e < toLex (key, val)) (l := l)] at hpair
    obtain ⟨hbefore, hafter, hcross⟩ := pairwise_append.mp hpair
    refine pairwise_append.mpr ⟨hbefore, pairwise_cons.mpr ⟨fun e he => ?_, hafter⟩, fun a ha b hb => ?_⟩
    · have hle := of_mem_dropWhile (fun hxy hx => by simp at hx ⊢; exact hx.trans hxy.le) h he
      refine lt_of_le_of_ne (by simpa using hle) fun heq => hnot ?_
      rw [contains_iff_mem, toLex.injective heq]
      exact (dropWhile_suffix _).subset he
    · rcases mem_cons.mp hb with rfl | hb
      · simpa using mem_takeWhile_imp ha
      · exact hcross a ha b hb

theorem lsm_call_ok (c : Lsm.Call true) :
    ((lsm_call l c).Pairwise fun a b => toLex a < toLex b) ∧
      { p | p ∈ lsm_call l c } = Lsm.set_call { p | p ∈ l } c := by
  cases c with
  | put_dup key val =>
    refine ⟨lsm_put_dup_ascending h key val, Set.ext fun p => ?_⟩
    by_cases hmem : (key, val) ∈ l
    · have hsame : lsm_put_dup l key val = l := if_pos (contains_iff_mem.mpr hmem)
      simp +contextual [lsm_call, Lsm.set_call, hsame, hmem]
    · simp [lsm_call, Lsm.set_call, (lsm_put_dup_perm hmem).mem_iff]
  | delete_val key val =>
    refine ⟨h.filter _, Set.ext fun p => ?_⟩
    simp [lsm_call, Lsm.set_call, lsm_delete_val]
  | clear => exact ⟨.nil, by simp [lsm_call, Lsm.set_call]⟩
  | flush => exact ⟨h, rfl⟩
  | compact => exact ⟨h, rfl⟩

theorem lsm_calls_ok (calls : List (Lsm.Call true)) :
    ((calls.foldl lsm_call l).Pairwise fun a b => toLex a < toLex b) ∧
      { p | p ∈ calls.foldl lsm_call l } = Lsm.set_after { p | p ∈ l } calls := by
  induction calls generalizing l with
  | nil => exact ⟨h, rfl⟩
  | cons c calls ih =>
    obtain ⟨hasc, hset⟩ := lsm_call_ok h c
    obtain ⟨hasc', hset'⟩ := ih hasc
    exact ⟨hasc', hset'.trans (by rw [hset]; rfl)⟩

/-- The memtable and the tables on disk are read as the list is, after any
    calls. -/
theorem lsm_reads_eq {t : Lsm.LSM} {m : Int ×ₗ Int → Option Int} (ht : t.Contains true m)
    (hm : ∀ k v, m (toLex (k, v)) = some v ↔ (k, v) ∈ l) (calls : List (Lsm.Call true)) :
    (∀ key, (Lsm.lsm_find_all (Lsm.run_calls t calls) key).map Prod.snd =
        lsm_find_all (calls.foldl lsm_call l) key) ∧
      ∀ lo hi, Lsm.lsm_scan (Lsm.run_calls t calls) lo hi =
        lsm_scan (calls.foldl lsm_call l) (some lo) (some hi) := by
  obtain ⟨hasc, hset⟩ := lsm_calls_ok h calls
  have heff := Lsm.effect_set_after (S := { p | p ∈ l }) hm calls
  rw [← hset] at heff
  refine ⟨fun key => congrArg (map Prod.snd) ?_, fun lo hi => ?_⟩
  · obtain ⟨hsorted, hmem⟩ := (ht.run calls).find_all heff key
    exact @Lsm.eq_of_ascending true _ _ hsorted (hasc.filter _) fun k v => by simp [hmem]
  · obtain ⟨hsorted, hmem⟩ := (ht.run calls).scan heff lo hi
    exact @Lsm.eq_of_ascending true _ _ hsorted (hasc.filter _) fun k v => by simp [hmem, lsm_scan]

end Tree

/-! ### What the index holds -/

def Table.pk_entries (t : Table) : List (Int × Int) :=
  if t.schema.index_kind = 1 then t.lindex else t.index.entries

/-- The index is in order and holds these entries. -/
def Tracks (t : Table) (es : List (Int × Int)) : Prop :=
  (t.schema.index_kind ≠ 1 → t.index.Valid) ∧ t.pk_entries.Perm es

section Tracks

variable {t : Table} {es : List (Int × Int)} {key : Int} {rid : Rid}

theorem Tracks.of_perm {es' : List (Int × Int)} (h : Tracks t es) (hp : es.Perm es') : Tracks t es' :=
  ⟨h.1, h.2.trans hp⟩

theorem Tracks.insert (h : Tracks t es) (hnew : (key, rid_encode rid) ∉ es) :
    Tracks (pidx_insert t key rid) ((key, rid_encode rid) :: es) := by
  have hperm := h.2
  unfold Table.pk_entries at hperm
  unfold pidx_insert
  by_cases hk : t.schema.index_kind = 1
  · rw [if_pos hk] at hperm ⊢
    refine ⟨fun hne => absurd hk hne, ?_⟩
    unfold Table.pk_entries
    rw [if_pos hk]
    exact (lsm_put_dup_perm fun hmem => hnew (hperm.subset hmem)).trans (hperm.cons _)
  · rw [if_neg hk] at hperm ⊢
    obtain ⟨hvalid, hadds⟩ := (h.1 hk).insert_dup key (rid_encode rid)
    refine ⟨fun _ => hvalid, ?_⟩
    unfold Table.pk_entries
    rw [if_neg hk]
    exact hadds.perm.trans (hperm.cons _)

theorem Tracks.delete (h : Tracks t ((key, rid_encode rid) :: es))
    (hnot : (key, rid_encode rid) ∉ es) (hnodup : es.Nodup) : Tracks (pidx_delete t key rid) es := by
  have hperm := h.2
  unfold Table.pk_entries at hperm
  unfold pidx_delete
  by_cases hk : t.schema.index_kind = 1
  · rw [if_pos hk] at hperm ⊢
    refine ⟨fun hne => absurd hk hne, ?_⟩
    unfold Table.pk_entries
    rw [if_pos hk]
    have hl : t.lindex.Nodup := hperm.nodup_iff.mpr (nodup_cons.mpr ⟨hnot, hnodup⟩)
    have herase := hperm.erase (key, rid_encode rid)
    rw [erase_cons_head, hl.erase_eq_filter] at herase
    refine List.Perm.trans (List.Perm.of_eq ?_) herase
    refine filter_congr fun e _ => ?_
    rw [bne, beq_eq_decide, decide_not]
  · rw [if_neg hk] at hperm ⊢
    obtain ⟨hvalid, herase⟩ := (h.1 hk).delete_val key (rid_encode rid)
    refine ⟨fun _ => hvalid, ?_⟩
    unfold Table.pk_entries
    rw [if_neg hk]
    have hcons := hperm.erase (key, rid_encode rid)
    rw [erase_cons_head] at hcons
    exact herase.trans hcons

end Tracks

/-! ### The invariant of a table -/

/-- Heap and index fit together, and so do the contents a rollback restores. -/
structure PkOk (t : Table) : Prop where
  heap : HeapOk t.heap
  pk : t.has_index = true → Tracks t (col_entries t.heap 0)
  undo_heap : HeapOk t.undo.heap
  undo_valid : t.has_index = true → t.schema.index_kind ≠ 1 → t.undo.index.Valid
  undo_perm : t.has_index = true → t.schema.index_kind ≠ 1 →
    t.undo.index.entries.Perm (col_entries t.undo.heap 0)

section PkOk

variable {t : Table} {es : List (Int × Int)} {rid : Rid} {vals : List Value} {row : List Value}

theorem table_new_pk (c : CreateStmt) : PkOk (table_new c) where
  heap := heapOk_nil
  pk _ := by
    refine ⟨fun _ => btree_empty_valid, ?_⟩
    unfold Table.pk_entries
    split <;> exact List.Perm.nil
  undo_heap := heapOk_nil
  undo_valid _ _ := btree_empty_valid
  undo_perm _ _ := List.Perm.nil

theorem PkOk.begin_write (h : PkOk t) (txn : Nat) : PkOk (t.begin_write txn) := by
  unfold Table.begin_write
  split
  · exact h
  · exact {
      __ := h
      undo_heap := h.heap
      undo_valid := fun hi hk => (h.pk hi).1 hk
      undo_perm := fun hi hk => by
        have hperm := (h.pk hi).2
        unfold Table.pk_entries at hperm
        rwa [if_neg hk] at hperm }

theorem PkOk.commit (h : PkOk t) (txn : Nat) : PkOk (t.commit txn) := by
  unfold Table.commit
  split
  · exact h
  · exact { h with }

/-- The rebuilt index of the LSM engine. -/
theorem lsm_pk_rebuild_perm {h : Heap} (hh : HeapOk h) :
    (lsm_pk_rebuild h).Perm (col_entries h 0) := by
  -- whatever puts the key of a version in and skips a version without one
  have hfold : ∀ put : LSM → Rid × Version → LSM,
      (∀ l x v, x.2.row.head? = some (.int v) → put l x = lsm_put_dup l v (rid_encode x.1)) →
      (∀ l x, (∀ v, x.2.row.head? ≠ some (.int v)) → put l x = l) →
      ∀ (xs : List (Rid × Version)) l, (xs.filterMap (version_entry 0)).Nodup →
      (∀ e ∈ xs.filterMap (version_entry 0), e ∉ l) →
      (xs.foldl put l).Perm (xs.filterMap (version_entry 0) ++ l) := by
    intro put hput hskip xs
    induction xs with
    | nil => exact fun l _ _ => List.Perm.refl _
    | cons x xs ih =>
      intro l hnodup hnot
      rw [foldl_cons]
      by_cases hv : ∃ v, x.2.row.head? = some (.int v)
      · obtain ⟨v, hv⟩ := hv
        rw [filterMap_cons_some (version_entry_of_head hv)] at hnodup hnot ⊢
        simp only [nodup_cons, mem_cons, forall_eq_or_imp] at hnodup hnot
        have hperm := lsm_put_dup_perm hnot.1
        rw [hput l x v hv]
        refine (ih _ hnodup.2 fun e he hmem => ?_).trans ?_
        · rcases mem_cons.mp (hperm.subset hmem) with rfl | hl
          · exact hnodup.1 he
          · exact hnot.2 e he hl
        · exact (hperm.append_left _).trans perm_middle
      · rw [not_exists] at hv
        rw [filterMap_cons_none (version_entry_of_head_ne hv)] at hnodup hnot ⊢
        rw [hskip l x hv]
        exact ih l hnodup hnot
  have hnodup := List.Nodup.of_map _ (hh.entries_nodup 0)
  rw [← append_nil (col_entries h 0)]
  rw [col_entries_eq] at hnodup ⊢
  refine hfold _ (fun l x v hv => by rw [hv]) (fun l x hv => ?_) _ _ hnodup fun e _ => not_mem_nil
  split
  · next v hv' => exact absurd hv' (hv v)
  · rfl

theorem PkOk.abort (h : PkOk t) (txn : Nat) : PkOk (t.abort txn) := by
  unfold Table.abort
  split
  · exact h
  · refine { heap := h.undo_heap, pk := fun hi => ?_, undo_heap := h.undo_heap,
             undo_valid := h.undo_valid, undo_perm := h.undo_perm }
    refine ⟨fun hk => h.undo_valid hi hk, ?_⟩
    unfold Table.pk_entries
    have hi' : t.has_index = true := hi
    by_cases hk : t.schema.index_kind = 1
    · simp only [hk, hi', if_true, decide_true, Bool.and_self]
      exact lsm_pk_rebuild_perm h.undo_heap
    · simp only [hk, if_false]
      exact h.undo_perm hi hk

theorem PkOk.finish (h : PkOk t) (txn : Nat) (ok : Bool) : PkOk (t.finish txn ok) := by
  unfold Table.finish
  split
  · exact h.commit txn
  · exact h.abort txn

/-! ### New versions -/

theorem pidx_insert_fields (t : Table) (key : Int) (rid : Rid) :
    (pidx_insert t key rid).schema = t.schema ∧ (pidx_insert t key rid).heap = t.heap ∧
      (pidx_insert t key rid).undo = t.undo := by
  unfold pidx_insert
  split <;> exact ⟨rfl, rfl, rfl⟩

theorem index_row_fields (t : Table) (row : List Value) (rid : Rid) :
    (index_row t row rid).schema = t.schema ∧ (index_row t row rid).heap = t.heap ∧
      (index_row t row rid).undo = t.undo := by
  unfold index_row
  dsimp only
  split
  · exact pidx_insert_fields t _ rid
  · exact ⟨rfl, rfl, rfl⟩

theorem index_row_tracks {v : Int}
    (h : Tracks t es) (hi : t.has_index = true) (hrow : row.head? = some (.int v))
    (hnew : (v, rid_encode rid) ∉ es) :
    Tracks (index_row t row rid) ((v, rid_encode rid) :: es) := by
  unfold index_row
  rw [hi, hrow]
  exact h.insert hnew

theorem index_row_tracks_none
    (h : Tracks t es) (hrow : ∀ v, row.head? ≠ some (.int v)) : Tracks (index_row t row rid) es := by
  unfold index_row
  dsimp only
  split
  · next v _ hv => exact absurd hv (hrow v)
  · exact h

/-- A heap with the same rows, and one more version in it. -/
theorem PkOk.index_row (h : PkOk t) {heap heap' : Heap} (hheap : HeapOk heap)
    (hsame : stored_rows heap = stored_rows t.heap) {rec : Version}
    (hins : heap_insert heap rec = (heap', some rid)) (hrow : rec.row = vals.map Value.stored)
    (hfit : t.has_index = true → ∀ v ∈ vals.head?, v.Fits) :
    PkOk (MiniDb.index_row { t with heap := heap' } vals rid) := by
  obtain ⟨hschema, hheap', hundo⟩ := index_row_fields { t with heap := heap' } vals rid
  have hi' : (MiniDb.index_row { t with heap := heap' } vals rid).has_index = t.has_index := by
    unfold Table.has_index
    rw [hschema]
  have hok : HeapOk heap' := hheap.insert (fits_of_stored hrow) hins
  have hrows : stored_rows heap' = stored_rows t.heap ++ [(rid, rec.row)] := by
    rw [stored_rows_insert hins, hsame]
  refine { heap := ?_, pk := fun hi => ?_, undo_heap := ?_, undo_valid := ?_, undo_perm := ?_ }
  · rw [hheap']
    exact hok
  · rw [hi'] at hi
    rw [hheap']
    have htracks : Tracks { t with heap := heap' } (col_entries t.heap 0) := h.pk hi
    have hentries : col_entries heap' 0 =
        col_entries t.heap 0 ++ [(rid, rec.row)].filterMap (index_entry 0) := by
      unfold col_entries
      rw [hrows, filterMap_append]
    have hnodup := List.Nodup.of_map _ (hok.entries_nodup 0)
    by_cases hint : ∃ v, vals.head? = some (.int v)
    · obtain ⟨v, hv⟩ := hint
      have hstored : rec.row.head? = some (.int v) := by
        rw [hrow, List.head?_map, hv]
        exact congrArg some (hfit hi _ hv).stored
      have hentry : [(rid, rec.row)].filterMap (index_entry 0) = [(v, rid_encode rid)] :=
        filterMap_cons_some (version_entry_of_head (x := (rid, rec)) hstored)
      rw [hentries, hentry] at hnodup
      rw [hentries, hentry]
      have hnew : (v, rid_encode rid) ∉ col_entries t.heap 0 := fun hmem =>
        (nodup_append.mp hnodup).2.2 _ hmem _ (mem_singleton_self _) rfl
      exact (index_row_tracks htracks hi hv hnew).of_perm (perm_append_singleton _ _).symm
    · push Not at hint
      have hstored : ∀ v, rec.row.head? ≠ some (.int v) := by
        intro v hv
        rw [hrow, List.head?_map] at hv
        obtain ⟨w, hw, hwv⟩ := Option.map_eq_some_iff.mp hv
        cases w with
        | int w => exact hint w hw
        | null => cases hwv
        | text s => cases hwv
      have hentry : [(rid, rec.row)].filterMap (index_entry 0) = [] :=
        filterMap_cons_none (version_entry_of_head_ne (x := (rid, rec)) hstored)
      rw [hentries, hentry, append_nil]
      exact index_row_tracks_none htracks hint
  · rw [hundo]
    exact h.undo_heap
  · rw [hi', hschema, hundo]
    exact h.undo_valid
  · rw [hi', hschema, hundo]
    exact h.undo_perm

/-- A heap with the same rows. -/
theorem PkOk.set_heap (h : PkOk t) {heap : Heap} (hheap : HeapOk heap)
    (hsame : stored_rows heap = stored_rows t.heap) : PkOk { t with heap := heap } := by
  refine { h with heap := hheap, pk := fun hi => ?_ }
  unfold col_entries
  rw [hsame]
  exact h.pk hi

theorem PkOk.insert_row (h : PkOk t) (txn : Nat)
    (hfit : t.has_index = true → ∀ v ∈ vals.head?, v.Fits) : PkOk (insert_row t txn vals).1 := by
  unfold MiniDb.insert_row
  split
  · exact h
  next rec hrec =>
  have hrow := encode_row_row hrec
  split
  · next heap hins =>
    exact h.set_heap (h.heap.insert (fits_of_stored hrow) hins) (stored_rows_insert_none hins)
  · next heap rid hins => exact h.index_row h.heap rfl hins hrow hfit

theorem PkOk.delete_row (h : PkOk t) (txn : Nat) (rid : Rid) : PkOk (delete_row txn t rid) :=
  h.set_heap (h.heap.stamp rid txn) (stored_rows_stamp t.heap rid txn)

theorem PkOk.update_row (h : PkOk t) (txn sci : Nat) {set_val : Value} (rid : Rid)
    (hfit : t.has_index = true → sci = 0 → set_val.Fits) : PkOk (update_row txn sci set_val t rid) := by
  rcases update_row_cases txn sci set_val t rid with heq | ⟨old, hold, heq⟩ <;> rw [heq]
  · exact h
  · refine (h.delete_row txn rid).insert_row txn fun hi v hv => ?_
    -- the first value is the literal, or was in the heap before
    rw [Option.mem_def, List.head?_eq_getElem?, List.getElem?_set] at hv
    by_cases hsci : sci = 0
    · rw [if_pos hsci] at hv
      split at hv
      · cases hv
        exact hfit hi hsci
      · cases hv
    · rw [if_neg hsci] at hv
      exact h.heap.fits (rid, old.row) (mem_stored_rows.mpr ⟨old, hold, rfl⟩) v
        (mem_of_getElem? hv)

/-! ### VACUUM -/

theorem unindex_row_fields (t : Table) (x : Rid × Version) :
    (unindex_row t x).schema = t.schema ∧ (unindex_row t x).heap = t.heap ∧
      (unindex_row t x).undo = t.undo := by
  unfold unindex_row pidx_delete
  dsimp only
  split
  · split <;> exact ⟨rfl, rfl, rfl⟩
  · exact ⟨rfl, rfl, rfl⟩

theorem unindex_rows_fields (t : Table) (dead : List (Rid × Version)) :
    (dead.foldl unindex_row t).schema = t.schema ∧ (dead.foldl unindex_row t).heap = t.heap ∧
      (dead.foldl unindex_row t).undo = t.undo := by
  induction dead generalizing t with
  | nil => exact ⟨rfl, rfl, rfl⟩
  | cons x dead ih =>
    obtain ⟨h1, h2, h3⟩ := unindex_row_fields t x
    obtain ⟨h1', h2', h3'⟩ := ih (unindex_row t x)
    exact ⟨h1'.trans h1, h2'.trans h2, h3'.trans h3⟩

/-- The entries of the dead go one by one; those of the rest stay. -/
theorem unindex_rows_tracks {dead : List (Rid × Version)}
    (hi : t.has_index = true) (h : Tracks t (dead.filterMap (version_entry 0) ++ es))
    (hnodup : (dead.filterMap (version_entry 0) ++ es).Nodup) :
    Tracks (dead.foldl unindex_row t) es := by
  induction dead generalizing t with
  | nil => exact h
  | cons x dead ih =>
    have hi' : (unindex_row t x).has_index = true := by
      unfold Table.has_index at hi ⊢
      rwa [(unindex_row_fields t x).1]
    by_cases hint : ∃ v, x.2.row.head? = some (.int v)
    · obtain ⟨v, hv⟩ := hint
      rw [filterMap_cons_some (version_entry_of_head hv), cons_append] at h hnodup
      obtain ⟨hnot, hnodup⟩ := nodup_cons.mp hnodup
      refine ih hi' ?_ hnodup
      unfold unindex_row
      rw [hi, hv]
      exact h.delete hnot hnodup
    · push Not at hint
      rw [filterMap_cons_none (version_entry_of_head_ne hint)] at h hnodup
      refine ih hi' ?_ hnodup
      unfold unindex_row
      dsimp only
      split
      · next v _ hv => exact absurd hv (hint v)
      · exact h

theorem PkOk.vacuum_rows (h : PkOk t) (p : Rid × Version → Bool) :
    PkOk (vacuum_rows t ((heap_scan t.heap).filter p)) := by
  obtain ⟨hschema, hheap, hundo⟩ := unindex_rows_fields t ((heap_scan t.heap).filter p)
  unfold MiniDb.vacuum_rows
  generalize hdead : ((heap_scan t.heap).filter p).foldl unindex_row t = t' at hschema hheap hundo
  dsimp only
  rw [hheap]
  have hi' : t'.has_index = t.has_index := by
    unfold Table.has_index
    rw [hschema]
  refine { heap := h.heap.vacuum _, pk := fun hi => ?_, undo_heap := ?_, undo_valid := ?_,
           undo_perm := ?_ }
  · have hi : t.has_index = true := hi'.symm.trans hi
    have hsplit : (col_entries t.heap 0).Perm (((heap_scan t.heap).filter p).filterMap (version_entry 0) ++
        ((heap_scan t.heap).filter fun x => !p x).filterMap (version_entry 0)) := by
      rw [col_entries_eq, ← filterMap_append]
      exact (filter_append_perm p (heap_scan t.heap)).symm.filterMap _
    have hnodup := List.Nodup.of_map _ (h.heap.entries_nodup 0)
    have htracks := unindex_rows_tracks hi ((h.pk hi).of_perm hsplit) (hsplit.nodup_iff.mp hnodup)
    rw [hdead] at htracks
    have hentries : col_entries (vacuum_heap t.heap ((heap_scan t.heap).filter p)) 0 =
        ((heap_scan t.heap).filter fun x => !p x).filterMap (version_entry 0) := by
      rw [col_entries_eq, heap_scan_vacuum_filter]
    rw [hentries]
    exact htracks
  · show HeapOk t'.undo.heap
    rw [hundo]
    exact h.undo_heap
  · show t'.has_index = true → t'.schema.index_kind ≠ 1 → t'.undo.index.Valid
    rw [hi', hschema, hundo]
    exact h.undo_valid
  · show t'.has_index = true → t'.schema.index_kind ≠ 1 →
      t'.undo.index.entries.Perm (col_entries t'.undo.heap 0)
    rw [hi', hschema, hundo]
    exact h.undo_perm

end PkOk

/-! ### Statements -/

/-- A statement that writes no key outside 32 bits into a table. -/
def Statement.KeysFit (st : Statement) (t : Table) : Prop :=
  match st with
  | .insert table vals => t.schema.table = table → t.has_index = true → ∀ v ∈ vals.head?, v.Fits
  | .update table set_col set_val _ => t.schema.table = table → t.has_index = true →
      set_column t set_col set_val = some 0 → set_val.Fits
  | _ => True

instance (st : Statement) (t : Table) : Decidable (st.KeysFit t) :=
  match st with
  | .insert table vals => inferInstanceAs (Decidable (t.schema.table = table → t.has_index = true →
      ∀ v ∈ vals.head?, v.Fits))
  | .update table set_col set_val _ => inferInstanceAs (Decidable (t.schema.table = table →
      t.has_index = true → set_column t set_col set_val = some 0 → set_val.Fits))
  | .create _ | .create_index .. | .select _ | .delete .. | .begin | .commit | .rollback
  | .vacuum _ | .session _ | .analyze _ => isTrue trivial

theorem begin_write_schema (t : Table) (txn : Nat) : (t.begin_write txn).schema = t.schema := by
  unfold Table.begin_write
  split <;> rfl

theorem begin_write_heap (t : Table) (txn : Nat) : (t.begin_write txn).heap = t.heap := by
  unfold Table.begin_write
  split <;> rfl

theorem insert_row_schema (t : Table) (txn : Nat) (vals : List Value) :
    (insert_row t txn vals).1.schema = t.schema := by
  unfold insert_row
  split
  · rfl
  split
  · rfl
  · exact (index_row_fields ..).1

theorem update_row_schema (txn sci : Nat) (set_val : Value) (t : Table) (rid : Rid) :
    (update_row txn sci set_val t rid).schema = t.schema := by
  rcases update_row_cases txn sci set_val t rid with heq | ⟨old, -, heq⟩ <;> rw [heq]
  exact insert_row_schema ..

theorem PkOk.move {d : TxnState} {st : Statement} {t t' : Table} (h : PkOk t)
    (hm : TableMove d st t t') (hfit : st.KeysFit t) : PkOk t' := by
  cases hm with
  | same => exact h
  | create_index name table column _ col hname hcol => exact { h with }
  | insert table vals _ hname hnull =>
    refine (h.begin_write _).insert_row _ fun hi => hfit hname ?_
    unfold Table.has_index at hi ⊢
    rwa [begin_write_schema] at hi
  | delete table w _ rids hname hrids =>
    exact List.foldlRecOn _ _ (h.begin_write _) fun t h rid _ => h.delete_row _ rid
  | update table set_col set_val w _ sci rids hname hcol hrids =>
    have hkeep : ∀ u : Table, u.schema = t.schema → u.has_index = true → sci = 0 → set_val.Fits := by
      intro u hu hi hsci
      refine hfit hname ?_ (hsci ▸ hcol)
      unfold Table.has_index at hi ⊢
      rwa [hu] at hi
    refine (List.foldlRecOn (motive := fun u => PkOk u ∧ u.schema = t.schema) _ _
      ⟨h.begin_write _, begin_write_schema t _⟩ fun u hu rid _ => ?_).1
    exact ⟨hu.1.update_row _ sci rid (hkeep u hu.2), (update_row_schema _ _ _ _ _).trans hu.2⟩
  | vacuum table _ hnone =>
    unfold vacuum_table
    have hpk := (h.begin_write d.cur_txn).vacuum_rows fun x => rec_dead d x.2
    rwa [begin_write_heap] at hpk
  | analyze table => exact { h with }

theorem Statement.KeysFit.same {st st₁ : Statement} {t : Table} (h : st.KeysFit t)
    (hsame : SameWrite st st₁) : st₁.KeysFit t := by
  cases st <;> cases st₁ <;> first | trivial | (cases hsame; exact h) |
    (obtain ⟨rfl, rfl, rfl⟩ := hsame; exact h)

/-- Every key that the statement writes fits its column. -/
def keys_fit (db : Database) (st : Statement) : Prop := ∀ t ∈ db.tables, st.KeysFit t

instance (db : Database) (st : Statement) : Decidable (keys_fit db st) :=
  inferInstanceAs (Decidable (∀ t ∈ db.tables, st.KeysFit t))

theorem pk_ok_in_run {db db' : Database} {sts : List Statement} (h : ∀ t ∈ db.tables, PkOk t)
    (hrun : Steps db_step keys_fit db sts db') : ∀ t ∈ db'.tables, PkOk t := by
  refine hrun.invariant (fun db => ∀ t ∈ db.tables, PkOk t) (fun db st db' h hfit hstep => ?_) h
  cases hstep
  obtain ⟨st₁, hsame, hstep⟩ := db_exec_step db st
  exact hstep.keeps h (fun d _ t ht t' hm => (h t ht).move hm ((hfit t ht).same hsame))
    (fun t txn ok _ hpk => hpk.finish txn ok) fun c txn => (table_new_pk c).begin_write txn

end MiniDb
