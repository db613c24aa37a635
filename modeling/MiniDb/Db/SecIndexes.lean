import MiniDb.Db.PkPath
import MiniDb.Db.Writers

/-! # Secondary indexes over whole runs

  CREATE INDEX fills an index with the rows its session sees; INSERT and UPDATE
  add every new version, VACUUM takes the dead ones out, a rollback restores
  the tree with the heap.  What an index may lack are the versions that were
  not seen when it was built.  That does no harm exactly as long as nobody
  else sees them (`Gone`), now or later. -/

namespace MiniDb

open Framework List

/-! ### One index -/

/-- A version has its entry, or is one of those that do not matter (`E`, by
    address and writer).  An entry keeps the literal that was written, whose
    cast is in the heap; where all literals fit (`fits`), the entries are those
    of versions in the heap, each once. -/
structure IndexOk (fits : Prop) (E : Rid → Nat → Prop) (h : Heap) (col : Nat) (tree : BTNode) :
    Prop where
  valid : tree.Valid
  complete : ∀ r rec k, heap_get h r = some rec → row_at rec.row col = .int k →
    E r rec.xmin ∨ ∃ k', int32_cast k' = k ∧ (k', rid_encode r) ∈ tree.entries
  nodup : fits → tree.entries.Nodup
  sound : fits → ∀ e ∈ tree.entries, e ∈ col_entries h col

section IndexOk

variable {fits : Prop} {E E' : Rid → Nat → Prop} {h h' : Heap} {col : Nat} {tree : BTNode}

variable (hi : IndexOk fits E h col tree) {vals : List Value} {rec : Version} (rid : Rid)

include hi

theorem IndexOk.mono (hE : ∀ r x, E r x → E' r x) :
    IndexOk fits E' h col tree :=
  { hi with complete := fun r rec k hget hk => (hi.complete r rec k hget hk).imp_left (hE r rec.xmin) }

/-- Only rows and writers of the versions matter. -/
theorem IndexOk.congr (hrows : stored_rows h' = stored_rows h)
    (hget : ∀ r rec, heap_get h' r = some rec →
      ∃ old, heap_get h r = some old ∧ rec.row = old.row ∧ rec.xmin = old.xmin) :
    IndexOk fits E h' col tree where
  __ := hi
  complete r rec k hr hk := by
    obtain ⟨old, hold, hrow, hmin⟩ := hget r rec hr
    rw [hrow] at hk
    rw [hmin]
    exact hi.complete r old k hold hk
  sound hf e he := by
    unfold col_entries
    rw [hrows]
    exact hi.sound hf e he

theorem IndexOk.stamp (xmax : Nat) :
    IndexOk fits E (stamp_xmax h rid xmax) col tree := by
  refine hi.congr (stored_rows_stamp h rid xmax) fun r rec hget => ?_
  rw [heap_get_stamp] at hget
  split at hget
  · obtain ⟨old, hold, rfl⟩ := Option.map_eq_some_iff.mp hget
    exact ⟨old, hold, rfl, rfl⟩
  · exact ⟨rec, hget, rfl, rfl⟩

theorem IndexOk.insert_none
    (hins : heap_insert h rec = (h', none)) : IndexOk fits E h' col tree :=
  hi.congr (stored_rows_insert_none hins) fun r rec hget =>
    ⟨rec, (heap_get_insert_none hins r).symm.trans hget, rfl, rfl⟩

/-- The tree after the entry of a new row. -/
def index_value (f : BTNode → Int → Int → BTNode) (tree : BTNode) (rid : Rid) : Option Value → BTNode
  | some (.int v) => f tree v (rid_encode rid)
  | _ => tree

omit hi in
/-- The integer in a column of a stored row is the cast of the one written. -/
theorem row_at_stored {k : Int} (h : row_at (vals.map Value.stored) col = .int k) :
    ∃ v, vals[col]? = some (.int v) ∧ int32_cast v = k := by
  unfold row_at at h
  rw [List.getElem?_map] at h
  cases hv : vals[col]? with
  | none => rw [hv] at h; cases h
  | some v =>
    rw [hv] at h
    cases v with
    | int v => exact ⟨v, rfl, Value.int.inj h⟩
    | null => cases h
    | text s => cases h

theorem IndexOk.insert (hok : HeapOk h') {rid : Rid} (hins : heap_insert h rec = (h', some rid))
    (hrow : rec.row = vals.map Value.stored) (hfit : fits → ∀ v ∈ vals[col]?, v.Fits) :
    IndexOk fits E h' col (index_value btree_insert_dup tree rid vals[col]?) := by
  obtain ⟨-, hget⟩ := heap_get_insert hins
  have hentries : col_entries h' col = col_entries h col ++ [(rid, rec.row)].filterMap (index_entry col) := by
    unfold col_entries
    rw [stored_rows_insert hins, filterMap_append]
  have hold : ∀ r rec', heap_get h' r = some rec' → r ≠ rid → heap_get h r = some rec' := by
    intro r rec' hr hne
    rwa [hget r, if_neg hne] at hr
  by_cases hint : ∃ v, vals[col]? = some (.int v)
  · obtain ⟨v, hv⟩ := hint
    obtain ⟨hvalid, hadds⟩ := hi.valid.insert_dup v (rid_encode rid)
    have hentry : fits → index_entry col (rid, rec.row) = some (v, rid_encode rid) := by
      intro hf
      refine index_entry_eq_some.mpr ⟨?_, rfl⟩
      show row_at rec.row col = .int v
      unfold row_at
      rw [hrow, List.getElem?_map, hv]
      exact (hfit hf _ hv).stored
    rw [hv]
    refine ⟨hvalid, fun r rec' k hr hk => ?_, fun hf => ?_, fun hf e he => ?_⟩
    · by_cases heq : r = rid
      · rw [hget r, if_pos heq] at hr
        cases hr
        rw [hrow] at hk
        obtain ⟨v', hv', hcast⟩ := row_at_stored hk
        rw [hv] at hv'
        cases hv'
        refine .inr ⟨v, hcast, ?_⟩
        rw [heq]
        exact hadds.perm.symm.subset mem_cons_self
      · refine (hi.complete r rec' k (hold r rec' hr heq) hk).imp_right ?_
        rintro ⟨k', hcast, hmem⟩
        exact ⟨k', hcast, hadds.perm.symm.subset (mem_cons_of_mem _ hmem)⟩
    · refine hadds.perm.nodup_iff.mpr (nodup_cons.mpr ⟨fun hmem => ?_, hi.nodup hf⟩)
      have hnodup := List.Nodup.of_map _ (hok.entries_nodup col)
      rw [hentries, filterMap_cons_some (hentry hf)] at hnodup
      exact (nodup_append.mp hnodup).2.2 _ (hi.sound hf _ hmem) _ mem_cons_self rfl
    · rw [hentries]
      rcases mem_cons.mp (hadds.perm.subset he) with rfl | he
      · exact mem_append_right _
          (mem_filterMap.mpr ⟨_, mem_singleton_self _, hentry hf⟩)
      · exact mem_append_left _ (hi.sound hf e he)
  · have htree : index_value btree_insert_dup tree rid vals[col]? = tree := by
      unfold index_value
      split
      · next v hv => exact absurd ⟨v, hv⟩ hint
      · rfl
    rw [htree]
    refine { hi with complete := fun r rec' k hr hk => ?_, sound := fun hf e he => ?_ }
    · by_cases heq : r = rid
      · rw [hget r, if_pos heq] at hr
        cases hr
        rw [hrow] at hk
        obtain ⟨v, hv, -⟩ := row_at_stored hk
        exact absurd ⟨v, hv⟩ hint
      · exact hi.complete r rec' k (hold r rec' hr heq) hk
    · rw [hentries]
      exact mem_append_left _ (hi.sound hf e he)

/-! ### VACUUM and CREATE INDEX -/

/-- The tree without the entries of these versions. -/
def unindex_tree (col : Nat) (tree : BTNode) (dead : List (Rid × Version)) : BTNode :=
  dead.foldl (fun tree x => index_value btree_delete_val tree x.1 x.2.row[col]?) tree

omit hi

/-- A deletion keeps order, takes away at most the entry of the address, and
    where entries are unique the entry of the value is gone. -/
theorem index_value_delete (o : Option Value) (h : tree.Valid) :
    (index_value btree_delete_val tree rid o).Valid ∧
      (∀ e ∈ (index_value btree_delete_val tree rid o).entries, e ∈ tree.entries) ∧
      (∀ e ∈ tree.entries, e.2 ≠ rid_encode rid →
        e ∈ (index_value btree_delete_val tree rid o).entries) ∧
      (tree.entries.Nodup → (index_value btree_delete_val tree rid o).entries.Nodup ∧
        ∀ v, o = some (.int v) →
          (v, rid_encode rid) ∉ (index_value btree_delete_val tree rid o).entries) := by
  unfold index_value
  split
  · next v =>
    obtain ⟨hvalid, hperm⟩ := h.delete_val v (rid_encode rid)
    refine ⟨hvalid, fun e he => mem_of_mem_erase (hperm.subset he), fun e he hne => ?_,
      fun hnodup => ⟨hperm.nodup_iff.mpr (hnodup.erase _), fun w hw hmem => ?_⟩⟩
    · refine hperm.symm.subset ((mem_erase_of_ne ?_).mpr he)
      rintro rfl
      exact hne rfl
    · cases hw
      exact hnodup.not_mem_erase (hperm.subset hmem)
  · next hne =>
    exact ⟨h, fun e he => he, fun e he _ => he, fun hnodup => ⟨hnodup, fun v hv => absurd hv (hne v)⟩⟩

theorem unindex_tree_spec (col : Nat) (h : tree.Valid) (dead : List (Rid × Version)) :
    (unindex_tree col tree dead).Valid ∧
      (∀ e ∈ (unindex_tree col tree dead).entries, e ∈ tree.entries) ∧
      (∀ e ∈ tree.entries, (∀ x ∈ dead, e.2 ≠ rid_encode x.1) →
        e ∈ (unindex_tree col tree dead).entries) ∧
      (tree.entries.Nodup → (unindex_tree col tree dead).entries.Nodup ∧
        ∀ x ∈ dead, ∀ v, x.2.row[col]? = some (.int v) →
          (v, rid_encode x.1) ∉ (unindex_tree col tree dead).entries) := by
  induction dead generalizing tree with
  | nil => exact ⟨h, fun e he => he, fun e he _ => he, fun hnodup => ⟨hnodup, nofun⟩⟩
  | cons x dead ih =>
    obtain ⟨hvalid, hsub, hkeep, hgone⟩ := index_value_delete x.1 x.2.row[col]? h
    obtain ⟨hvalid', hsub', hkeep', hgone'⟩ := ih hvalid
    refine ⟨hvalid', fun e he => hsub e (hsub' e he), fun e he hne => ?_, fun hnodup => ?_⟩
    · exact hkeep' e (hkeep e he (hne x mem_cons_self))
        fun y hy => hne y (mem_cons_of_mem x hy)
    · obtain ⟨hnodup₁, hx⟩ := hgone hnodup
      obtain ⟨hnodup', hrest⟩ := hgone' hnodup₁
      refine ⟨hnodup', fun y hy v hv => ?_⟩
      rcases mem_cons.mp hy with rfl | hy
      · exact fun hmem => hx v hv (hsub' _ hmem)
      · exact hrest y hy v hv

theorem row_at_int {row : Row} {v : Int} (h : row_at row col = .int v) : row[col]? = some (.int v) := by
  unfold row_at at h
  cases hv : row[col]? with
  | none => rw [hv] at h; cases h
  | some w => rw [hv] at h; exact congrArg some h

theorem IndexOk.vacuum (hi : IndexOk fits E h col tree) (hok : HeapOk h)
    (p : Rid × Version → Bool) :
    IndexOk fits E (vacuum_heap h ((heap_scan h).filter p)) col
      (unindex_tree col tree ((heap_scan h).filter p)) := by
  obtain ⟨hvalid, hsub, hkeep, hgone⟩ := unindex_tree_spec col hi.valid ((heap_scan h).filter p)
  refine ⟨hvalid, fun r rec k hget hk => ?_, fun hf => (hgone (hi.nodup hf)).1, fun hf e he => ?_⟩
  · obtain ⟨hold, hp⟩ := heap_get_vacuum.mp hget
    refine (hi.complete r rec k hold hk).imp_right ?_
    rintro ⟨k', hcast, hmem⟩
    refine ⟨k', hcast, hkeep _ hmem fun x hx heq => ?_⟩
    -- addresses are told apart by their codes, and `r` is not a dead one
    obtain ⟨hx, hpx⟩ := mem_filter.mp hx
    have hxget := mem_heap_scan.mp hx
    have hrx : r = x.1 := by
      rw [← rid_decode_encode (hok.pages.slot_lt hold), show rid_encode r = rid_encode x.1 from heq,
        rid_decode_encode (hok.pages.slot_lt hxget)]
    subst hrx
    rw [hold] at hxget
    cases hxget
    rw [hp] at hpx
    cases hpx
  · have hmem := hi.sound hf e (hsub e he)
    rw [col_entries_eq] at hmem ⊢
    obtain ⟨x, hx, hxe⟩ := mem_filterMap.mp hmem
    rw [heap_scan_vacuum_filter]
    refine mem_filterMap.mpr ⟨x, mem_filter.mpr ⟨hx, ?_⟩, hxe⟩
    obtain ⟨hv, henc⟩ := index_entry_eq_some.mp hxe
    by_contra hpx
    have hdead : x ∈ (heap_scan h).filter p := mem_filter.mpr ⟨hx, by simpa using hpx⟩
    have hnot := (hgone (hi.nodup hf)).2 x hdead e.1 (row_at_int hv)
    rw [show rid_encode x.1 = e.2 from henc] at hnot
    exact hnot he

/-- A tree filled with entries. -/
theorem fill_tree (h : tree.Valid) (es : List (Int × Int)) :
    (es.foldl (fun tree e => btree_insert_dup tree e.1 e.2) tree).Valid ∧
      (es.foldl (fun tree e => btree_insert_dup tree e.1 e.2) tree).entries.Perm
        (es ++ tree.entries) := by
  induction es generalizing tree with
  | nil => exact ⟨h, List.Perm.refl _⟩
  | cons e es ih =>
    obtain ⟨hvalid, hadds⟩ := h.insert_dup e.1 e.2
    obtain ⟨hvalid', hperm⟩ := ih hvalid
    exact ⟨hvalid', hperm.trans ((hadds.perm.append_left es).trans perm_middle)⟩

/-- A new index holds the versions that were seen. -/
theorem secidx_build_ok {t : Table} (hok : HeapOk t.heap) (d : TxnState)
    (hcover : ∀ r rec, heap_get t.heap r = some rec → (version_entry col (r, rec)).isSome = true →
      rec_visible d rec = true ∨ E r rec.xmin) :
    IndexOk fits E t.heap col (secidx_build d t col).1 := by
  obtain ⟨hvalid, hperm⟩ := fill_tree btree_empty_valid
    (scan_read d t.heap (version_entry col)).found
  have hempty : btree_empty.entries = [] := rfl
  rw [hempty, append_nil] at hperm
  have hsub : (scan_read d t.heap (version_entry col)).found.Sublist (col_entries t.heap col) := by
    rw [col_entries_eq]
    show ((heap_scan t.heap).filterMap _).Sublist _
    induction heap_scan t.heap with
    | nil => exact List.Sublist.refl _
    | cons x xs ih =>
      rw [filterMap_cons, filterMap_cons]
      by_cases hvis : rec_visible d x.2 = true
      · rw [if_pos hvis]
        cases version_entry col x with
        | none => exact ih
        | some e => exact ih.cons_cons e
      · rw [if_neg hvis]
        cases version_entry col x with
        | none => exact ih
        | some e => exact ih.cons e
  refine ⟨hvalid, fun r rec k hget hk => ?_, fun _ => ?_, fun _ e he => hsub.subset (hperm.subset he)⟩
  · have hentry : version_entry col (r, rec) = some (k, rid_encode r) :=
      index_entry_eq_some.mpr ⟨hk, rfl⟩
    rcases hcover r rec hget (by rw [hentry]; rfl) with hvis | hE
    · refine .inr ⟨k, int32_cast_of_fits ?_, hperm.symm.subset ?_⟩
      · exact hok.fits (r, rec.row) (mem_stored_rows.mpr ⟨rec, hget, rfl⟩) (.int k)
          (mem_of_getElem? (row_at_int hk))
      · refine mem_filterMap.mpr ⟨(r, rec), mem_heap_scan.mpr hget, ?_⟩
        rw [if_pos hvis]
        exact hentry
    · exact .inl hE
  · exact hperm.nodup_iff.mpr ((List.Nodup.of_map _ (hok.entries_nodup col)).sublist hsub)

end IndexOk

/-! ### The indexes of a table -/

/-- All indexes, and the trees that a rollback restores. -/
structure SecOk (fits : Prop) (E : Rid → Nat → Prop) (t : Table) : Prop where
  cur : ∀ si ∈ t.sec, IndexOk fits E t.heap si.col si.tree
  undo : t.writer_txn ≠ 0 →
    List.Forall₂ (fun si tree => IndexOk fits E t.undo.heap si.col tree) t.sec t.undo.trees

/-- The same index with another tree. -/
def SecIndex.with_tree (f : Nat → BTNode → BTNode) (si : SecIndex) : SecIndex :=
  { si with tree := f si.col si.tree }

theorem sec_update_eq (f : BTNode → Int → Int → BTNode) (sec : List SecIndex) (row : List Value)
    (rid : Rid) :
    sec_update f sec row rid = sec.map (.with_tree fun col tree => index_value f tree rid row[col]?) := by
  unfold sec_update
  refine map_congr_left fun si _ => ?_
  unfold SecIndex.with_tree
  dsimp only
  cases row[si.col]? with
  | none => rfl
  | some v => cases v <;> rfl

variable (t : Table)

theorem index_row_sec (row : List Value) (rid : Rid) :
    (index_row t row rid).sec =
      t.sec.map (.with_tree fun col tree => index_value btree_insert_dup tree rid row[col]?) := by
  rw [← sec_update_eq]
  unfold index_row pidx_insert
  dsimp only
  split
  · split <;> rfl
  · rfl

theorem unindex_row_sec (x : Rid × Version) :
    (unindex_row t x).sec =
      t.sec.map (.with_tree fun col tree => index_value btree_delete_val tree x.1 x.2.row[col]?) := by
  rw [← sec_update_eq]
  unfold unindex_row pidx_delete
  dsimp only
  split
  · split <;> rfl
  · rfl

theorem unindex_rows_sec (dead : List (Rid × Version)) :
    (dead.foldl unindex_row t).sec =
      t.sec.map (.with_tree fun col tree => unindex_tree col tree dead) := by
  induction dead generalizing t with
  | nil => exact (map_id _).symm
  | cons x dead ih =>
    rw [foldl_cons, ih, unindex_row_sec, map_map]
    rfl

section SecOk

variable {fits : Prop} {E E' : Rid → Nat → Prop} {t : Table}

variable (h : SecOk fits E t) {vals : List Value} (txn : Nat)

include h

theorem SecOk.mono (hE : ∀ r x, E r x → E' r x) : SecOk fits E' t where
  cur si hsi := (h.cur si hsi).mono hE
  undo hw := (h.undo hw).imp fun _ _ hi => hi.mono hE

theorem SecOk.begin_write : SecOk fits E (t.begin_write txn) := by
  unfold Table.begin_write
  split
  · exact h
  · refine ⟨h.cur, fun _ => ?_⟩
    exact forall₂_map_right_iff.mpr (forall₂_same.mpr h.cur)

/-- Another heap and other trees, the columns as they were. -/
theorem SecOk.with_trees {t' : Table} (f : Nat → BTNode → BTNode)
    (hsec : t'.sec = t.sec.map (.with_tree f)) (hwriter : t'.writer_txn = t.writer_txn)
    (hundo : t'.undo = t.undo) (hf : ∀ si ∈ t.sec, IndexOk fits E t'.heap si.col (f si.col si.tree))
    : SecOk fits E t' := by
  constructor
  · intro si' hsi'
    rw [hsec] at hsi'
    obtain ⟨si, hsi, rfl⟩ := mem_map.mp hsi'
    exact hf si hsi
  · rw [hwriter, hundo, hsec]
    exact fun hw => forall₂_map_left_iff.mpr (h.undo hw)

theorem SecOk.set_heap {heap : Heap} (hf : ∀ si ∈ t.sec, IndexOk fits E heap si.col si.tree) :
    SecOk fits E { t with heap := heap } :=
  ⟨hf, h.undo⟩

theorem SecOk.index_row {heap heap' : Heap}
    (hheap : ∀ si ∈ t.sec, IndexOk fits E heap si.col si.tree) (hok : HeapOk heap') {rec : Version}
    {rid : Rid} (hins : heap_insert heap rec = (heap', some rid))
    (hrow : rec.row = vals.map Value.stored)
    (hfit : fits → ∀ si ∈ t.sec, ∀ v ∈ vals[si.col]?, v.Fits) :
    SecOk fits E (index_row { t with heap := heap' } vals rid) := by
  obtain ⟨-, hheap', hundo⟩ := index_row_fields { t with heap := heap' } vals rid
  refine h.with_trees _ (index_row_sec ..) (index_row_writer ..) hundo fun si hsi => ?_
  rw [hheap']
  exact (hheap si hsi).insert hok hins hrow fun hf => hfit hf si hsi

theorem SecOk.insert_row (hok : HeapOk t.heap) (txn : Nat)
    (hfit : fits → ∀ si ∈ t.sec, ∀ v ∈ vals[si.col]?, v.Fits) :
    SecOk fits E (insert_row t txn vals).1 := by
  unfold MiniDb.insert_row
  split
  · exact h
  next rec hrec =>
  have hrow := encode_row_row hrec
  split
  · next heap hins => exact h.set_heap fun si hsi => (h.cur si hsi).insert_none hins
  · next heap rid hins =>
    exact h.index_row h.cur (hok.insert (fits_of_stored hrow) hins) hins hrow hfit

theorem SecOk.delete_row (rid : Rid) : SecOk fits E (delete_row txn t rid) :=
  h.set_heap fun si hsi => (h.cur si hsi).stamp rid txn

theorem SecOk.update_row (hok : HeapOk t.heap) (txn sci : Nat) {set_val : Value} (rid : Rid)
    (hfit : fits → ∀ si ∈ t.sec, sci = si.col → set_val.Fits) :
    SecOk fits E (update_row txn sci set_val t rid) := by
  rcases update_row_cases txn sci set_val t rid with heq | ⟨old, hold, heq⟩ <;> rw [heq]
  · exact h
  · refine (h.delete_row txn rid).insert_row (hok.stamp rid txn) txn fun hf si hsi v hv => ?_
    -- the value is the literal, or was in the heap before
    rw [Option.mem_def, List.getElem?_set] at hv
    by_cases hsci : sci = si.col
    · rw [if_pos hsci] at hv
      split at hv
      · cases hv
        exact hfit hf si hsi hsci
      · cases hv
    · rw [if_neg hsci] at hv
      exact hok.fits (rid, old.row) (mem_stored_rows.mpr ⟨old, hold, rfl⟩) v
        (mem_of_getElem? hv)

theorem SecOk.vacuum_rows (hok : HeapOk t.heap) (p : Rid × Version → Bool) :
    SecOk fits E (vacuum_rows t ((heap_scan t.heap).filter p)) := by
  obtain ⟨-, hheap, hundo⟩ := unindex_rows_fields t ((heap_scan t.heap).filter p)
  refine h.with_trees _ (unindex_rows_sec ..) (unindex_rows_frame ..).1 hundo fun si hsi => ?_
  unfold MiniDb.vacuum_rows
  dsimp only
  rw [hheap]
  exact (h.cur si hsi).vacuum hok p

omit h in
/-- A rollback puts the trees back one by one. -/
theorem forall_mem_undone {P : SecIndex → Prop} {trees : List BTNode}
    {sec : List SecIndex}
    (hundo : List.Forall₂ (fun si tree => P { si with tree := tree }) sec trees) :
    ∀ si ∈ sec.zipWith (fun si tree => { si with tree := tree }) trees, P si := by
  induction hundo with
  | nil => nofun
  | cons hi _ ih => exact forall_mem_cons.mpr ⟨hi, ih⟩

theorem SecOk.finish {txn : Nat} (h0 : txn ≠ 0) (ok : Bool) : SecOk fits E (t.finish txn ok) := by
  unfold Table.finish Table.commit Table.abort
  split
  · split
    · exact h
    · exact ⟨h.cur, fun hw => absurd rfl hw⟩
  · split
    · exact h
    · next heq =>
      exact ⟨forall_mem_undone (h.undo (not_not.mp heq ▸ h0)), fun hw => absurd rfl hw⟩

end SecOk

end MiniDb
