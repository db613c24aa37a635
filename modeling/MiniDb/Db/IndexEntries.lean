import MiniDb.Db.SecIndexes

/-! # Index entries in any run

  An index entry is written under the literal of its row and removed under the
  stored value.  The two differ outside 32 bits, and such an entry stays in the
  index when VACUUM takes its version.  Inside 32 bits every entry leads to a
  version with its key, and no entry is there twice, whatever statements have
  run. -/

namespace MiniDb

open Framework List

/-! ### One index -/

/-- The entries whose literal is the stored value. -/
structure EntriesOk (h : Heap) (col : Nat) (es : List (Int × Int)) : Prop where
  once : ∀ e, Int32 e.1 → es.count e ≤ 1
  sound : ∀ e ∈ es, Int32 e.1 → e ∈ col_entries h col

/-- The entry of a new row, if it has an integer there; the LSM engine keeps
    an entry that it already has. -/
def Entered (rid : Rid) (es es' : List (Int × Int)) : Option Value → Prop
  | some (.int v) => es'.Perm ((v, rid_encode rid) :: es) ∨ ((v, rid_encode rid) ∈ es ∧ es' = es)
  | _ => es' = es

/-- Only the entries of these versions are gone, and if they were there once,
    all of them are. -/
structure Unindexed (col : Nat) (dead : List (Rid × Version)) (es es' : List (Int × Int)) : Prop where
  count : ∀ e, es'.count e ≤ es.count e
  gone : ∀ x ∈ dead, ∀ e, version_entry col x = some e → es.count e ≤ 1 → e ∉ es'

section Entries

variable {h h' : Heap} {col : Nat} {es es' : List (Int × Int)}

theorem EntriesOk.nil (h : Heap) (col : Nat) : EntriesOk h col [] :=
  ⟨fun _ _ => Nat.zero_le _, nofun⟩

/-- Some of the entries of the stored rows. -/
theorem EntriesOk.of_sublist {xs : List (Int × Int)} (hh : HeapOk h) (hperm : es.Perm xs)
    (hsub : xs.Sublist (col_entries h col)) : EntriesOk h col es := by
  have hnodup := List.Nodup.of_map _ (hh.entries_nodup col)
  refine ⟨fun e _ => ?_, fun e he _ => hsub.subset (hperm.subset he)⟩
  rw [hperm.count_eq]
  exact nodup_iff_count_le_one.mp (hnodup.sublist hsub) e

variable (hok : EntriesOk h col es)

include hok

theorem EntriesOk.congr (hrows : stored_rows h' = stored_rows h) :
    EntriesOk h' col es := by
  refine ⟨hok.once, fun e he hfit => ?_⟩
  unfold col_entries
  rw [hrows]
  exact hok.sound e he hfit

/-- A new version with its entry. -/
theorem EntriesOk.insert (hh : HeapOk h') {rec : Version} {rid : Rid}
    {vals : List Value} (hins : heap_insert h rec = (h', some rid))
    (hrow : rec.row = vals.map Value.stored) (henter : Entered rid es es' vals[col]?) :
    EntriesOk h' col es' := by
  have hentries : col_entries h' col =
      col_entries h col ++ [(rid, rec.row)].filterMap (index_entry col) := by
    unfold col_entries
    rw [stored_rows_insert hins, filterMap_append]
  have hold : EntriesOk h' col es := by
    refine ⟨hok.once, fun e he hfit => ?_⟩
    rw [hentries]
    exact mem_append_left _ (hok.sound e he hfit)
  cases hv : vals[col]? with
  | none =>
    rw [hv] at henter
    rw [show es' = es from henter]
    exact hold
  | some val =>
    rw [hv] at henter
    cases val with
    | null =>
      rw [show es' = es from henter]
      exact hold
    | text s =>
      rw [show es' = es from henter]
      exact hold
    | int v =>
      rcases henter with hperm | ⟨-, rfl⟩
      swap
      · exact hold
      -- a literal in 32 bits is what the heap stores
      have hentry : Int32 v → index_entry col (rid, rec.row) = some (v, rid_encode rid) := by
        intro hfit
        refine index_entry_eq_some.mpr ⟨?_, rfl⟩
        show row_at rec.row col = .int v
        unfold row_at
        rw [hrow, List.getElem?_map, hv]
        exact congrArg Value.int (int32_cast_of_fits hfit)
      have hnew : Int32 v → (v, rid_encode rid) ∉ es := by
        intro hfit hmem
        have hnodup := List.Nodup.of_map _ (hh.entries_nodup col)
        rw [hentries, filterMap_cons_some (hentry hfit)] at hnodup
        exact (nodup_append.mp hnodup).2.2 _ (hok.sound _ hmem hfit) _ mem_cons_self rfl
      refine ⟨fun e hfit => ?_, fun e he hfit => ?_⟩
      · rw [hperm.count_eq]
        by_cases heq : (v, rid_encode rid) = e
        · subst heq
          rw [count_cons_self, count_eq_zero_of_not_mem (hnew hfit)]
        · rw [count_cons_of_ne heq]
          exact hok.once e hfit
      · rcases mem_cons.mp (hperm.subset he) with rfl | he
        · rw [hentries]
          exact mem_append_right _
            (mem_filterMap.mpr ⟨_, mem_singleton_self _, hentry hfit⟩)
        · exact hold.sound e he hfit

theorem EntriesOk.vacuum (p : Rid × Version → Bool)
    (hun : Unindexed col ((heap_scan h).filter p) es es') :
    EntriesOk (vacuum_heap h ((heap_scan h).filter p)) col es' := by
  refine ⟨fun e hfit => (hun.count e).trans (hok.once e hfit), fun e he hfit => ?_⟩
  have hmem : e ∈ es := count_pos_iff.mp (lt_of_lt_of_le (count_pos_iff.mpr he) (hun.count e))
  have hcol := hok.sound e hmem hfit
  rw [col_entries_eq] at hcol ⊢
  obtain ⟨x, hx, hxe⟩ := mem_filterMap.mp hcol
  rw [heap_scan_vacuum_filter]
  refine mem_filterMap.mpr ⟨x, mem_filter.mpr ⟨hx, ?_⟩, hxe⟩
  by_contra hpx
  exact hun.gone x (mem_filter.mpr ⟨hx, by simpa using hpx⟩) e hxe (hok.once e hfit) he

end Entries

/-! ### Both engines take entries out -/

theorem Unindexed.nil (col : Nat) (es : List (Int × Int)) : Unindexed col [] es es :=
  ⟨fun _ => le_rfl, nofun⟩

variable {x : Rid × Version} {col : Nat}

/-- One version after another. -/
theorem Unindexed.cons {dead : List (Rid × Version)} {es es₁ es' : List (Int × Int)}
    (hx : Unindexed col [x] es es₁) (hrest : Unindexed col dead es₁ es') :
    Unindexed col (x :: dead) es es' := by
  refine ⟨fun e => (hrest.count e).trans (hx.count e), fun y hy e he honce hmem => ?_⟩
  rcases mem_cons.mp hy with rfl | hy
  · have hin : e ∈ es₁ :=
      count_pos_iff.mp (lt_of_lt_of_le (count_pos_iff.mpr hmem) (hrest.count e))
    exact hx.gone y (mem_singleton_self y) e he honce hin
  · exact hrest.gone y hy e he ((hx.count e).trans honce) hmem

/-- Nothing to remove. -/
theorem Unindexed.skip {es : List (Int × Int)} (hnone : version_entry col x = none) :
    Unindexed col [x] es es := by
  refine ⟨fun _ => le_rfl, fun y hy e he => ?_⟩
  rw [mem_singleton.mp hy, hnone] at he
  cases he

theorem Unindexed.erase {e : Int × Int} {es es' : List (Int × Int)}
    (he : version_entry col x = some e) (hperm : es'.Perm (es.erase e)) :
    Unindexed col [x] es es' := by
  refine ⟨fun e' => ?_, fun y hy e' he' honce hmem => ?_⟩
  · rw [hperm.count_eq]
    exact List.Sublist.count_le _ erase_sublist
  · rw [mem_singleton.mp hy, he] at he'
    obtain rfl := Option.some.inj he'
    have hcount := count_pos_iff.mpr hmem
    rw [hperm.count_eq, count_erase_self] at hcount
    omega

theorem version_entry_int {v : Int} (h : x.2.row[col]? = some (.int v)) :
    version_entry col x = some (v, rid_encode x.1) := by
  unfold version_entry index_entry row_at
  rw [h]
  rfl

theorem version_entry_not_int (h : ∀ v, x.2.row[col]? ≠ some (.int v)) :
    version_entry col x = none := by
  unfold version_entry index_entry row_at
  cases hv : x.2.row[col]? with
  | none => rfl
  | some v =>
    cases v with
    | int v => exact absurd hv (h v)
    | null => rfl
    | text s => rfl

theorem unindex_tree_unindexed {tree : BTNode} (col : Nat) (h : tree.Valid)
    (dead : List (Rid × Version)) :
    (unindex_tree col tree dead).Valid ∧
      Unindexed col dead tree.entries (unindex_tree col tree dead).entries := by
  induction dead generalizing tree with
  | nil => exact ⟨h, .nil col _⟩
  | cons x dead ih =>
    have hone : (index_value btree_delete_val tree x.1 x.2.row[col]?).Valid ∧
        Unindexed col [x] tree.entries (index_value btree_delete_val tree x.1 x.2.row[col]?).entries := by
      by_cases hint : ∃ v, x.2.row[col]? = some (.int v)
      · obtain ⟨v, hv⟩ := hint
        obtain ⟨hvalid, hperm⟩ := h.delete_val v (rid_encode x.1)
        rw [hv]
        exact ⟨hvalid, .erase (version_entry_int hv) hperm⟩
      · push Not at hint
        have htree : index_value btree_delete_val tree x.1 x.2.row[col]? = tree := by
          unfold index_value
          split
          · next v hv => exact absurd hv (hint v)
          · rfl
        rw [htree]
        exact ⟨h, .skip (version_entry_not_int hint)⟩
    obtain ⟨hvalid, hrest⟩ := ih hone.1
    exact ⟨hvalid, hone.2.cons hrest⟩

/-! ### The indexes of a table -/

def TreeOk (h : Heap) (col : Nat) (tree : BTNode) : Prop :=
  tree.Valid ∧ EntriesOk h col tree.entries

/-- The primary key index, under either engine. -/
def PkEntriesOk (t : Table) : Prop :=
  (t.schema.index_kind ≠ 1 → t.index.Valid) ∧ EntriesOk t.heap 0 t.pk_entries

structure IndexesOk (t : Table) : Prop where
  heaps : HeapsOk t
  pk : t.has_index = true → PkEntriesOk t
  sec : ∀ si ∈ t.sec, TreeOk t.heap si.col si.tree
  undo_pk : t.has_index = true → t.schema.index_kind ≠ 1 → TreeOk t.undo.heap 0 t.undo.index
  undo_sec : t.writer_txn ≠ 0 →
    List.Forall₂ (fun si tree => TreeOk t.undo.heap si.col tree) t.sec t.undo.trees

section Pk

variable {t : Table}

theorem pidx_insert_entered (hvalid : t.schema.index_kind ≠ 1 → t.index.Valid)
    (v : Int) (rid : Rid) :
    ((pidx_insert t v rid).schema.index_kind ≠ 1 → (pidx_insert t v rid).index.Valid) ∧
      Entered rid t.pk_entries (pidx_insert t v rid).pk_entries (some (.int v)) := by
  unfold pidx_insert Table.pk_entries Entered
  by_cases hk : t.schema.index_kind = 1
  · simp only [if_pos hk]
    refine ⟨fun hne => absurd hk hne, ?_⟩
    by_cases hmem : (v, rid_encode rid) ∈ t.lindex
    · refine .inr ⟨hmem, ?_⟩
      unfold lsm_put_dup
      rw [if_pos (contains_iff_mem.mpr hmem)]
    · exact .inl (lsm_put_dup_perm hmem)
  · simp only [if_neg hk]
    obtain ⟨hvalid', hadds⟩ := (hvalid hk).insert_dup v (rid_encode rid)
    exact ⟨fun _ => hvalid', .inl hadds.perm⟩

theorem index_row_entered (hi : t.has_index = true)
    (hvalid : t.schema.index_kind ≠ 1 → t.index.Valid) (vals : List Value) (rid : Rid) :
    ((index_row t vals rid).schema.index_kind ≠ 1 → (index_row t vals rid).index.Valid) ∧
      Entered rid t.pk_entries (index_row t vals rid).pk_entries vals[0]? := by
  unfold index_row
  rw [hi, List.head?_eq_getElem?]
  cases hv : vals[0]? with
  | none => exact ⟨hvalid, rfl⟩
  | some val =>
    cases val with
    | int v => exact pidx_insert_entered hvalid v rid
    | null => exact ⟨hvalid, rfl⟩
    | text s => exact ⟨hvalid, rfl⟩

theorem pidx_delete_unindexed (hvalid : t.schema.index_kind ≠ 1 → t.index.Valid)
    {x : Rid × Version} {v : Int} (hv : x.2.row[0]? = some (.int v)) :
    ((pidx_delete t v x.1).schema.index_kind ≠ 1 → (pidx_delete t v x.1).index.Valid) ∧
      Unindexed 0 [x] t.pk_entries (pidx_delete t v x.1).pk_entries := by
  unfold pidx_delete Table.pk_entries
  by_cases hk : t.schema.index_kind = 1
  · simp only [if_pos hk]
    refine ⟨fun hne => absurd hk hne, fun e => List.Sublist.count_le _ filter_sublist, ?_⟩
    intro y hy e he _ hmem
    rw [mem_singleton.mp hy, version_entry_int hv] at he
    obtain rfl := Option.some.inj he
    simp [lsm_delete_val] at hmem
  · simp only [if_neg hk]
    obtain ⟨hvalid', hperm⟩ := (hvalid hk).delete_val v (rid_encode x.1)
    exact ⟨fun _ => hvalid', .erase (version_entry_int hv) hperm⟩

theorem unindex_row_unindexed (hi : t.has_index = true)
    (hvalid : t.schema.index_kind ≠ 1 → t.index.Valid) (x : Rid × Version) :
    ((unindex_row t x).schema.index_kind ≠ 1 → (unindex_row t x).index.Valid) ∧
      Unindexed 0 [x] t.pk_entries (unindex_row t x).pk_entries := by
  have hskip : (∀ v, x.2.row[0]? ≠ some (.int v)) → Unindexed 0 [x] t.pk_entries t.pk_entries :=
    fun hne => .skip (version_entry_not_int hne)
  unfold unindex_row
  rw [hi, List.head?_eq_getElem?]
  cases hv : x.2.row[0]? with
  | none => exact ⟨hvalid, hskip fun v hv' => nomatch hv.symm.trans hv'⟩
  | some val =>
    cases val with
    | int v => exact pidx_delete_unindexed hvalid hv
    | null => exact ⟨hvalid, hskip fun v hv' => nomatch hv.symm.trans hv'⟩
    | text s => exact ⟨hvalid, hskip fun v hv' => nomatch hv.symm.trans hv'⟩

theorem unindex_rows_unindexed (hi : t.has_index = true)
    (hvalid : t.schema.index_kind ≠ 1 → t.index.Valid) (dead : List (Rid × Version)) :
    ((dead.foldl unindex_row t).schema.index_kind ≠ 1 → (dead.foldl unindex_row t).index.Valid) ∧
      Unindexed 0 dead t.pk_entries (dead.foldl unindex_row t).pk_entries := by
  induction dead generalizing t with
  | nil => exact ⟨hvalid, .nil 0 _⟩
  | cons x dead ih =>
    obtain ⟨hvalid₁, hone⟩ := unindex_row_unindexed hi hvalid x
    have hi₁ : (unindex_row t x).has_index = true := by
      unfold Table.has_index at hi ⊢
      rwa [(unindex_row_fields t x).1]
    obtain ⟨hvalid', hrest⟩ := ih hi₁ hvalid₁
    exact ⟨hvalid', hone.cons hrest⟩

end Pk

/-! ### Statements -/

section IndexesOk

variable {t : Table}

theorem table_new_indexes (c : CreateStmt) : IndexesOk (table_new c) where
  heaps := ⟨heapOk_nil, heapOk_nil⟩
  pk _ := by
    refine ⟨fun _ => btree_empty_valid, ?_⟩
    unfold Table.pk_entries
    split <;> exact .nil _ _
  sec := nofun
  undo_pk _ _ := ⟨btree_empty_valid, .nil _ _⟩
  undo_sec h := absurd rfl h

variable (h : IndexesOk t) (txn : Nat) {t' : Table}

include h

theorem IndexesOk.begin_write : IndexesOk (t.begin_write txn) := by
  unfold Table.begin_write
  split
  · exact h
  · refine ⟨⟨h.heaps.heap, h.heaps.heap⟩, h.pk, h.sec, fun hi hk => ⟨(h.pk hi).1 hk, ?_⟩, fun _ => ?_⟩
    · have hpk := (h.pk hi).2
      unfold Table.pk_entries at hpk
      rwa [if_neg hk] at hpk
    · exact forall₂_map_right_iff.mpr (forall₂_same.mpr h.sec)

/-- A heap with the same rows. -/
theorem IndexesOk.set_heap {heap : Heap} (hheap : HeapOk heap)
    (hrows : stored_rows heap = stored_rows t.heap) : IndexesOk { t with heap := heap } :=
  ⟨⟨hheap, h.heaps.undo⟩, fun hi => ⟨(h.pk hi).1, (h.pk hi).2.congr hrows⟩,
    fun si hsi => ⟨(h.sec si hsi).1, (h.sec si hsi).2.congr hrows⟩, h.undo_pk, h.undo_sec⟩

/-- Other trees at the same columns. -/
theorem IndexesOk.with_trees (f : Nat → BTNode → BTNode) (hheap : HeapOk t'.heap)
    (hschema : t'.schema = t.schema) (hwriter : t'.writer_txn = t.writer_txn)
    (hundo : t'.undo = t.undo) (hsec : t'.sec = t.sec.map (.with_tree f))
    (hpk : t.has_index = true → PkEntriesOk t')
    (hf : ∀ si ∈ t.sec, TreeOk t'.heap si.col (f si.col si.tree)) : IndexesOk t' := by
  have hi : t'.has_index = t.has_index := by
    unfold Table.has_index
    rw [hschema]
  refine ⟨⟨hheap, hundo ▸ h.heaps.undo⟩, fun hi' => hpk (hi ▸ hi'), fun si' hsi' => ?_, ?_, ?_⟩
  · rw [hsec] at hsi'
    obtain ⟨si, hsi, rfl⟩ := mem_map.mp hsi'
    exact hf si hsi
  · rw [hi, hschema, hundo]
    exact h.undo_pk
  · rw [hwriter, hundo, hsec]
    exact fun hw => forall₂_map_left_iff.mpr (h.undo_sec hw)

omit h in
theorem index_value_entered {tree : BTNode} (hvalid : tree.Valid) (rid : Rid) (o : Option Value) :
    (index_value btree_insert_dup tree rid o).Valid ∧
      Entered rid tree.entries (index_value btree_insert_dup tree rid o).entries o := by
  cases o with
  | none => exact ⟨hvalid, rfl⟩
  | some val =>
    cases val with
    | int v =>
      obtain ⟨hvalid', hadds⟩ := hvalid.insert_dup v (rid_encode rid)
      exact ⟨hvalid', .inl hadds.perm⟩
    | null => exact ⟨hvalid, rfl⟩
    | text s => exact ⟨hvalid, rfl⟩

/-- One more version in a heap with the same rows. -/
theorem IndexesOk.index_row {heap heap' : Heap} (hheap : HeapOk heap)
    (hsame : stored_rows heap = stored_rows t.heap) {rec : Version} {rid : Rid} {vals : List Value}
    (hins : heap_insert heap rec = (heap', some rid)) (hrow : rec.row = vals.map Value.stored) :
    IndexesOk (MiniDb.index_row { t with heap := heap' } vals rid) := by
  obtain ⟨hschema, hheap', hundo⟩ := index_row_fields { t with heap := heap' } vals rid
  have hok : HeapOk heap' := hheap.insert (fits_of_stored hrow) hins
  refine h.with_trees _ (hheap'.symm ▸ hok) hschema (index_row_writer ..) hundo (index_row_sec ..)
    (fun hi => ?_) fun si hsi => ?_
  · obtain ⟨hvalid, hentries⟩ := h.pk hi
    obtain ⟨hvalid', henter⟩ := index_row_entered (t := { t with heap := heap' }) hi hvalid vals rid
    refine ⟨hvalid', ?_⟩
    rw [hheap']
    exact (hentries.congr hsame).insert hok hins hrow henter
  · obtain ⟨hvalid, hentries⟩ := h.sec si hsi
    obtain ⟨hvalid', henter⟩ := index_value_entered hvalid rid vals[si.col]?
    refine ⟨hvalid', ?_⟩
    rw [hheap']
    exact (hentries.congr hsame).insert hok hins hrow henter

theorem IndexesOk.insert_row (vals : List Value) :
    IndexesOk (insert_row t txn vals).1 := by
  unfold MiniDb.insert_row
  split
  · exact h
  next rec hrec =>
  have hrow := encode_row_row hrec
  split
  · next heap hins =>
    exact h.set_heap (h.heaps.heap.insert (fits_of_stored hrow) hins) (stored_rows_insert_none hins)
  · next heap rid hins => exact h.index_row h.heaps.heap rfl hins hrow

theorem IndexesOk.delete_row (rid : Rid) : IndexesOk (delete_row txn t rid) :=
  h.set_heap (h.heaps.heap.stamp rid txn) (stored_rows_stamp t.heap rid txn)

theorem IndexesOk.update_row (txn sci : Nat) (set_val : Value) (rid : Rid) :
    IndexesOk (update_row txn sci set_val t rid) := by
  rcases update_row_cases txn sci set_val t rid with heq | ⟨old, -, heq⟩ <;> rw [heq]
  · exact h
  · exact (h.delete_row txn rid).insert_row ..

theorem IndexesOk.vacuum_rows (p : Rid × Version → Bool) :
    IndexesOk (vacuum_rows t ((heap_scan t.heap).filter p)) := by
  obtain ⟨hschema, hheap, hundo⟩ := unindex_rows_fields t ((heap_scan t.heap).filter p)
  have hvac : (MiniDb.vacuum_rows t ((heap_scan t.heap).filter p)).heap =
      vacuum_heap t.heap ((heap_scan t.heap).filter p) := by
    unfold MiniDb.vacuum_rows
    dsimp only
    rw [hheap]
  refine h.with_trees _ (hvac.symm ▸ h.heaps.heap.vacuum _) hschema (unindex_rows_frame ..).1 hundo
    (unindex_rows_sec ..) (fun hi => ?_) fun si hsi => ?_
  · obtain ⟨hvalid, hentries⟩ := h.pk hi
    obtain ⟨hvalid', hun⟩ := unindex_rows_unindexed hi hvalid ((heap_scan t.heap).filter p)
    refine ⟨hvalid', ?_⟩
    rw [hvac]
    exact hentries.vacuum p hun
  · obtain ⟨hvalid, hentries⟩ := h.sec si hsi
    obtain ⟨hvalid', hun⟩ := unindex_tree_unindexed si.col hvalid ((heap_scan t.heap).filter p)
    refine ⟨hvalid', ?_⟩
    rw [hvac]
    exact hentries.vacuum p hun

theorem IndexesOk.create_index (d : TxnState) (name : String) (col : Nat) (hw : t.writer_txn = 0) :
    IndexesOk { t with sec := t.sec ++ [⟨name, col, (secidx_build d t col).1⟩] } := by
  refine ⟨⟨h.heaps.heap, h.heaps.undo⟩, h.pk, fun si hsi => ?_, h.undo_pk, fun hne => absurd hw hne⟩
  rcases mem_append.mp hsi with hsi | hsi
  · exact h.sec si hsi
  rw [mem_singleton.mp hsi]
  -- every entry of the new index is there as if all versions had been seen
  have hbuild : IndexOk True (fun _ _ => True) t.heap col (secidx_build d t col).1 :=
    secidx_build_ok h.heaps.heap d fun _ _ _ _ => .inr trivial
  refine ⟨hbuild.valid, fun e _ => ?_, fun e he _ => hbuild.sound trivial e he⟩
  exact nodup_iff_count_le_one.mp (hbuild.nodup trivial) e

theorem IndexesOk.move {d : TxnState} {st : Statement} (hm : TableMove d st t t') :
    IndexesOk t' := by
  have hbegin := h.begin_write d.cur_txn
  cases hm with
  | same => exact h
  | create_index name table column _ col hname hcol =>
    refine h.create_index d name col ?_
    by_contra hw
    unfold index_column at hcol
    rw [if_pos hw] at hcol
    cases hcol
  | insert table vals => exact hbegin.insert_row _ vals
  | delete table w _ rids => exact List.foldlRecOn rids _ hbegin fun u hu rid _ => hu.delete_row _ rid
  | update table set_col set_val w _ sci rids =>
    exact List.foldlRecOn rids _ hbegin fun u hu rid _ => hu.update_row _ sci set_val rid
  | vacuum table _ hnone =>
    unfold vacuum_table
    have hvac := hbegin.vacuum_rows fun x => rec_dead d x.2
    rwa [begin_write_heap] at hvac
  | analyze => exact ⟨⟨h.heaps.heap, h.heaps.undo⟩, h.pk, h.sec, h.undo_pk, h.undo_sec⟩

theorem IndexesOk.finish {txn : Nat} (h0 : txn ≠ 0) (ok : Bool) : IndexesOk (t.finish txn ok) := by
  unfold Table.finish Table.commit Table.abort
  split
  · split
    · exact h
    · exact ⟨⟨h.heaps.heap, h.heaps.undo⟩, h.pk, h.sec, h.undo_pk, fun hw => absurd rfl hw⟩
  · split
    · exact h
    next heq =>
    have hw : t.writer_txn ≠ 0 := not_not.mp heq ▸ h0
    refine ⟨⟨h.heaps.undo, h.heaps.undo⟩, fun hi => ?_, forall_mem_undone (h.undo_sec hw),
      h.undo_pk, fun hw => absurd rfl hw⟩
    have hi' : t.has_index = true := hi
    refine ⟨fun hk => (h.undo_pk hi hk).1, ?_⟩
    unfold Table.pk_entries
    by_cases hk : t.schema.index_kind = 1
    · simp only [hk, hi', if_true, decide_true, Bool.and_self]
      exact .of_sublist h.heaps.undo (lsm_pk_rebuild_perm h.heaps.undo) (.refl _)
    · simp only [hk, if_false]
      exact (h.undo_pk hi hk).2

end IndexesOk

/-! ### Runs -/

section Runs

variable {db db' : Database} {st : Statement}

theorem IndexesOk.step (hinv : TxnInv db.toTxnState) (hstep : DbStep db st db')
    (h : ∀ t ∈ db.tables, IndexesOk t) : ∀ t' ∈ db'.tables, IndexesOk t' :=
  hstep.keeps h (fun _ _ t ht _ hm => (h t ht).move hm)
    (fun _ _ ok h0 ht => ht.finish (h0 hinv) ok) fun c _ => (table_new_indexes c).begin_write _

end Runs

end MiniDb
