import MiniDb.Db.PkIndex

/-! # What a statement does to the versions of a table

  `heap_get` after each heap operation, and from it one inversion for all
  statements: the versions stay, are written by one transaction (`Written`),
  or the dead ones go. -/

namespace MiniDb

open List

/-! ### Versions by address -/

section Heap

variable {h h' : Heap} {rec : Version}

theorem heap_get_stamp (h : Heap) (rid r : Rid) (xmax : Nat) :
    heap_get (stamp_xmax h rid xmax) r =
      if r = rid then (heap_get h r).map fun rec => { rec with xmax := xmax } else heap_get h r := by
  cases hget : heap_get h rid with
  | none =>
    have hid : stamp_xmax h rid xmax = h := by
      unfold stamp_xmax
      rw [hget]
    rw [hid]
    by_cases hr : r = rid
    · rw [if_pos hr, hr, hget]
      rfl
    · rw [if_neg hr]
  | some rec =>
    refine Option.ext fun rec' => ?_
    rw [← mem_heap_scan, heap_scan_stamp hget, mem_map]
    by_cases hr : r = rid
    · rw [if_pos hr, hr, hget]
      constructor
      · rintro ⟨x, hx, hput⟩
        unfold put_at at hput
        split at hput
        · exact congrArg some (Prod.mk.inj hput).2
        · next hne => exact absurd (congrArg Prod.fst hput) hne
      · intro heq
        refine ⟨(rid, rec), mem_heap_scan.mpr hget, ?_⟩
        rw [← Option.some.inj heq]
        exact if_pos rfl
    · rw [if_neg hr, ← mem_heap_scan]
      constructor
      · rintro ⟨x, hx, hput⟩
        unfold put_at at hput
        split at hput
        · next heq => exact absurd ((Prod.mk.inj hput).1.symm.trans heq) hr
        · exact hput ▸ hx
      · exact fun hx => ⟨(r, rec'), hx, if_neg hr⟩

theorem heap_get_insert_none (hins : heap_insert h rec = (h', none)) (r : Rid) :
    heap_get h' r = heap_get h r := by
  have hscan := heap_insert_scan h rec
  rw [hins] at hscan
  refine Option.ext fun rec' => ?_
  rw [← mem_heap_scan, ← mem_heap_scan, show heap_scan h' = heap_scan h from hscan]

/-- A new version gets an address that was not in use. -/
theorem heap_get_insert {rid : Rid} (hins : heap_insert h rec = (h', some rid)) :
    heap_get h rid = none ∧ ∀ r, heap_get h' r = if r = rid then some rec else heap_get h r := by
  have hscan : heap_scan h' = heap_scan h ++ [(rid, rec)] := by
    have hscan := heap_insert_scan h rec
    rw [hins] at hscan
    exact hscan
  have hfree : ∀ rec', (rid, rec') ∉ heap_scan h := by
    intro rec' hmem
    have hnodup := heap_scan_nodup h'
    rw [hscan, map_append] at hnodup
    exact (nodup_append.mp hnodup).2.2 rid (mem_map_of_mem hmem) rid
      (mem_singleton_self rid) rfl
  refine ⟨Option.eq_none_iff_forall_ne_some.mpr fun rec' hget => hfree rec' (mem_heap_scan.mpr hget),
    fun r => Option.ext fun rec' => ?_⟩
  rw [← mem_heap_scan, hscan, mem_append, mem_singleton]
  by_cases hr : r = rid
  · subst hr
    rw [if_pos rfl, Option.some.injEq, Prod.mk.injEq]
    constructor
    · rintro (hmem | ⟨-, heq⟩)
      · exact absurd hmem (hfree rec')
      · exact heq.symm
    · exact fun heq => .inr ⟨rfl, heq.symm⟩
  · rw [if_neg hr, ← mem_heap_scan]
    constructor
    · rintro (hmem | heq)
      · exact hmem
      · exact absurd (Prod.mk.inj heq).1 hr
    · exact .inl

theorem heap_get_vacuum {p : Rid × Version → Bool} {r : Rid} :
    heap_get (vacuum_heap h ((heap_scan h).filter p)) r = some rec ↔
      heap_get h r = some rec ∧ p (r, rec) = false := by
  rw [← mem_heap_scan, heap_scan_vacuum_filter, mem_filter, mem_heap_scan]
  simp

end Heap

/-! ### Versions that one transaction writes -/

/-- From `h` to `h'` the transaction has stamped some of the versions at `rids`
    and has added versions of its own. -/
structure Written (txn : Nat) (rids : List Rid) (h h' : Heap) : Prop where
  origin : ∀ r rec, heap_get h' r = some rec →
    (heap_get h r = none ∧ rec.xmin = txn ∧ rec.xmax = 0) ∨
      ∃ old, heap_get h r = some old ∧ (rec = old ∨ r ∈ rids ∧ rec = { old with xmax := txn })
  keep : ∀ r old, heap_get h r = some old →
    ∃ rec, heap_get h' r = some rec ∧ (rec = old ∨ r ∈ rids ∧ rec = { old with xmax := txn })

section Written

variable {txn : Nat} {rids : List Rid} {h₀ h : Heap} {rec : Version} {vals : List Value} {t : Table}
  {rid : Rid}

theorem Written.refl (txn : Nat) (rids : List Rid) (h : Heap) : Written txn rids h h :=
  ⟨fun _ rec hget => .inr ⟨rec, hget, .inl rfl⟩, fun _ old hget => ⟨old, hget, .inl rfl⟩⟩

theorem Written.stamp (hw : Written txn rids h₀ h) (hrid : rid ∈ rids)
    (hold : heap_get h₀ rid ≠ none) : Written txn rids h₀ (stamp_xmax h rid txn) := by
  constructor
  · intro r rec hget
    rw [heap_get_stamp] at hget
    split at hget
    · next hr =>
      subst hr
      obtain ⟨rec₁, hrec₁, rfl⟩ := Option.map_eq_some_iff.mp hget
      rcases hw.origin r rec₁ hrec₁ with ⟨hnone, -⟩ | ⟨old, hget₀, rfl | ⟨-, rfl⟩⟩
      · exact absurd hnone hold
      · exact .inr ⟨rec₁, hget₀, .inr ⟨hrid, rfl⟩⟩
      · exact .inr ⟨old, hget₀, .inr ⟨hrid, rfl⟩⟩
    · exact hw.origin r rec hget
  · intro r old hget₀
    obtain ⟨rec, hrec, hcases⟩ := hw.keep r old hget₀
    rw [heap_get_stamp]
    by_cases hr : r = rid
    · subst hr
      rw [if_pos rfl, hrec]
      refine ⟨_, rfl, .inr ⟨hrid, ?_⟩⟩
      rcases hcases with rfl | ⟨-, rfl⟩ <;> rfl
    · rw [if_neg hr]
      exact ⟨rec, hrec, hcases⟩

theorem Written.insert (hw : Written txn rids h₀ h) (hmin : rec.xmin = txn)
    (hmax : rec.xmax = 0) {h' : Heap} {o : Option Rid} (hins : heap_insert h rec = (h', o)) :
    Written txn rids h₀ h' := by
  cases o with
  | none =>
    have hget := heap_get_insert_none hins
    exact ⟨fun r rec hr => hw.origin r rec ((hget r).symm.trans hr), fun r old hr => by
      rw [hget r]
      exact hw.keep r old hr⟩
  | some rid =>
    obtain ⟨hfree, hget⟩ := heap_get_insert hins
    have hfree₀ : heap_get h₀ rid = none := by
      cases hold : heap_get h₀ rid with
      | none => rfl
      | some old =>
        obtain ⟨rec', hrec', -⟩ := hw.keep rid old hold
        rw [hfree] at hrec'
        cases hrec'
    constructor
    · intro r rec' hr
      rw [hget r] at hr
      split at hr
      · next heq =>
        cases hr
        exact .inl ⟨heq ▸ hfree₀, hmin, hmax⟩
      · exact hw.origin r rec' hr
    · intro r old hr
      have hne : r ≠ rid := by
        rintro rfl
        rw [hfree₀] at hr
        cases hr
      rw [hget r, if_neg hne]
      exact hw.keep r old hr

theorem encode_row_stamps {schema : CreateStmt} {xmin xmax : Nat}
    (h : encode_row schema vals xmin xmax = some rec) : rec.xmin = xmin ∧ rec.xmax = xmax := by
  obtain ⟨r, -, rfl⟩ := Option.map_eq_some_iff.mp h
  exact ⟨rfl, rfl⟩

theorem Written.insert_row (hw : Written txn rids h₀ t.heap) :
    Written txn rids h₀ (insert_row t txn vals).1.heap := by
  unfold MiniDb.insert_row
  split
  · exact hw
  next rec hrec =>
  obtain ⟨hmin, hmax⟩ := encode_row_stamps hrec
  split
  · next heap hins => exact hw.insert hmin hmax hins
  · next heap rid hins =>
    rw [(index_row_fields _ _ _).2.1]
    exact hw.insert hmin hmax hins

theorem Written.update_row {sci : Nat} {set_val : Value}
    (hw : Written txn rids h₀ t.heap) (hrid : rid ∈ rids) (hold : heap_get h₀ rid ≠ none) :
    Written txn rids h₀ (update_row txn sci set_val t rid).heap := by
  rcases update_row_cases txn sci set_val t rid with heq | ⟨old, -, heq⟩ <;> rw [heq]
  · exact hw
  · exact Written.insert_row (t := delete_row txn t rid) (hw.stamp hrid hold)

end Written

/-! ### One statement -/

/-- What a statement does to heap, writer and undo contents of a table. -/
inductive HeapMove (d : TxnState) (st : Statement) (t t' : Table) : Prop where
  | calm (hheap : t'.heap = t.heap) (hwriter : t'.writer_txn = t.writer_txn) (hundo : t'.undo = t.undo)
  | write (rids : List Rid) (hlocked : st.locked = some t.schema.table)
      (hrids : Collected d t.heap rids) (hw : Written d.cur_txn rids t.heap t'.heap)
      (hwriter : t'.writer_txn = d.cur_txn) (hundo : t'.undo = (t.begin_write d.cur_txn).undo)
  | vacuum (hst : st.is_write = true) (hnone : ∀ i < DB_MAX_SESSIONS, (d.sessions i).in_txn = false)
      (hheap : t'.heap = vacuum_heap t.heap ((heap_scan t.heap).filter fun x => rec_dead d x.2))
      (hwriter : t'.writer_txn = d.cur_txn) (hundo : t'.undo = (t.begin_write d.cur_txn).undo)

variable (t : Table)

theorem begin_write_writer (txn : Nat) : (t.begin_write txn).writer_txn = txn := by
  unfold Table.begin_write
  split
  · next h => exact h
  · rfl

theorem index_row_writer (row : List Value) (rid : Rid) :
    (index_row t row rid).writer_txn = t.writer_txn := by
  unfold index_row pidx_insert
  dsimp only
  split
  · split <;> rfl
  · rfl

theorem insert_row_frame (txn : Nat) (vals : List Value) :
    (insert_row t txn vals).1.writer_txn = t.writer_txn ∧
      (insert_row t txn vals).1.undo = t.undo := by
  unfold insert_row
  split
  · exact ⟨rfl, rfl⟩
  split
  · exact ⟨rfl, rfl⟩
  · exact ⟨index_row_writer .., (index_row_fields ..).2.2⟩

theorem update_row_frame (txn sci : Nat) (set_val : Value) (t : Table) (rid : Rid) :
    (update_row txn sci set_val t rid).writer_txn = t.writer_txn ∧
      (update_row txn sci set_val t rid).undo = t.undo := by
  rcases update_row_cases txn sci set_val t rid with heq | ⟨old, -, heq⟩ <;> rw [heq]
  · exact ⟨rfl, rfl⟩
  · exact insert_row_frame ..

theorem unindex_rows_frame (dead : List (Rid × Version)) :
    (dead.foldl unindex_row t).writer_txn = t.writer_txn ∧
      (dead.foldl unindex_row t).stats = t.stats := by
  induction dead generalizing t with
  | nil => exact ⟨rfl, rfl⟩
  | cons x dead ih =>
    rw [foldl_cons, (ih _).1, (ih _).2]
    unfold unindex_row pidx_delete
    dsimp only
    split
    · split <;> exact ⟨rfl, rfl⟩
    · exact ⟨rfl, rfl⟩

/-- The table before the writes of a statement, and after some of them. -/
def TableWriting (txn : Nat) (rids : List Rid) (t u : Table) : Prop :=
  Written txn rids t.heap u.heap ∧ u.writer_txn = txn ∧ u.undo = (t.begin_write txn).undo

/-- The addresses that a statement collects before it writes. -/
def collected_by (d : TxnState) (t : Table) : Statement → List Rid
  | .delete _ w | .update _ _ _ w => (collect_rids d t w).found
  | _ => []

variable {d : TxnState} {st : Statement} {t t' : Table}

/-- A statement with a lock writes the addresses it has collected, and new ones. -/
theorem TableMove.writing (hm : TableMove d st t t') (hst : st.locked ≠ none) :
    t' = t ∨ st.locked = some t.schema.table ∧ Collected d t.heap (collected_by d t st) ∧
      TableWriting d.cur_txn (collected_by d t st) t t' := by
  have hbegin : ∀ rids, TableWriting d.cur_txn rids t (t.begin_write d.cur_txn) := fun rids =>
    ⟨by rw [begin_write_heap]; exact .refl .., begin_write_writer .., rfl⟩
  have hold : ∀ rids, Collected d t.heap rids → ∀ rid ∈ rids, heap_get t.heap rid ≠ none := by
    intro rids hrids rid hrid hnone
    obtain ⟨rec, hget, -⟩ := hrids.visible rid hrid
    rw [hnone] at hget
    cases hget
  cases hm with
  | same => exact .inl rfl
  | create_index => exact absurd rfl hst
  | analyze => exact absurd rfl hst
  | vacuum => exact absurd rfl hst
  | insert table vals _ hname hnull =>
    obtain ⟨hw, hwriter, hundo⟩ := hbegin []
    obtain ⟨hwriter', hundo'⟩ := insert_row_frame (t.begin_write d.cur_txn) d.cur_txn vals
    exact .inr ⟨congrArg some hname.symm, ⟨nodup_nil, nofun⟩, hw.insert_row,
      hwriter'.trans hwriter, hundo'.trans hundo⟩
  | delete table w _ rids hname hrids hfound =>
    subst hfound
    refine .inr ⟨congrArg some hname.symm, hrids, ?_⟩
    exact List.foldlRecOn (motive := TableWriting d.cur_txn _ t) _
      (delete_row d.cur_txn) (hbegin _) fun u hu rid hrid =>
        ⟨hu.1.stamp hrid (hold _ hrids rid hrid), hu.2⟩
  | update table set_col set_val w _ sci rids hname hcol hrids hfound =>
    subst hfound
    refine .inr ⟨congrArg some hname.symm, hrids, ?_⟩
    exact List.foldlRecOn (motive := TableWriting d.cur_txn _ t) _
      (update_row d.cur_txn sci set_val) (hbegin _) fun u hu rid hrid => by
        obtain ⟨hwriter, hundo⟩ := update_row_frame d.cur_txn sci set_val u rid
        exact ⟨hu.1.update_row hrid (hold _ hrids rid hrid), hwriter.trans hu.2.1,
          hundo.trans hu.2.2⟩

theorem TableMove.heap (hm : TableMove d st t t') : HeapMove d st t t' := by
  by_cases hst : st.locked = none
  · cases hm with
    | same => exact .calm rfl rfl rfl
    | create_index => exact .calm rfl rfl rfl
    | analyze => exact .calm rfl rfl rfl
    | insert => cases hst
    | delete => cases hst
    | update => cases hst
    | vacuum table _ hnone =>
      unfold vacuum_table vacuum_rows
      obtain ⟨-, hheap, hundo⟩ := unindex_rows_fields (t.begin_write d.cur_txn)
        ((heap_scan t.heap).filter fun x => rec_dead d x.2)
      refine .vacuum rfl hnone ?_ ((unindex_rows_frame ..).1.trans (begin_write_writer ..)) hundo
      dsimp only
      rw [hheap, begin_write_heap]
  · rcases hm.writing hst with rfl | ⟨hlocked, hrids, hw, hwriter, hundo⟩
    · exact .calm rfl rfl rfl
    · exact .write _ hlocked hrids hw hwriter hundo

theorem TableMove.schema (hm : TableMove d st t t') : t'.schema = t.schema := by
  cases hm with
  | same => rfl
  | create_index => rfl
  | analyze => rfl
  | insert table vals =>
    exact (insert_row_schema ..).trans (begin_write_schema ..)
  | delete table w _ rids =>
    exact List.foldlRecOn (motive := fun u : Table => u.schema = t.schema) rids (delete_row d.cur_txn)
      (begin_write_schema ..) fun u hu rid _ => hu
  | update table set_col set_val w _ sci rids =>
    exact List.foldlRecOn (motive := fun u : Table => u.schema = t.schema) rids
      (update_row d.cur_txn sci set_val) (begin_write_schema ..)
      fun u hu rid _ => (update_row_schema ..).trans hu
  | vacuum => exact (unindex_rows_fields ..).1.trans (begin_write_schema ..)

/-! ### Pages and stored values -/

/-- The heap, and what a rollback restores. -/
structure HeapsOk (t : Table) : Prop where
  heap : HeapOk t.heap
  undo : HeapOk t.undo.heap

theorem HeapOk.insert_row (h : HeapOk t.heap) (txn : Nat) (vals : List Value) :
    HeapOk (insert_row t txn vals).1.heap := by
  unfold MiniDb.insert_row
  split
  · exact h
  next rec hrec =>
  have hfits := fits_of_stored (encode_row_row hrec)
  split
  · next heap hins => exact h.insert hfits hins
  · next heap rid hins =>
    rw [(index_row_fields ..).2.1]
    exact h.insert hfits hins

theorem HeapOk.update_row (h : HeapOk t.heap) (txn sci : Nat) (set_val : Value) (rid : Rid) :
    HeapOk (update_row txn sci set_val t rid).heap := by
  rcases update_row_cases txn sci set_val t rid with heq | ⟨old, -, heq⟩ <;> rw [heq]
  · exact h
  · exact HeapOk.insert_row (t := delete_row txn t rid) (h.stamp rid txn) _ _

theorem HeapsOk.begin_write (h : HeapsOk t) (txn : Nat) : HeapsOk (t.begin_write txn) := by
  unfold Table.begin_write
  split
  · exact h
  · exact ⟨h.heap, h.heap⟩

theorem HeapsOk.move (h : HeapsOk t) (hm : TableMove d st t t') : HeapsOk t' := by
  have hbegin := h.begin_write d.cur_txn
  cases hm with
  | same => exact h
  | create_index => exact ⟨h.heap, h.undo⟩
  | analyze => exact ⟨h.heap, h.undo⟩
  | insert table vals =>
    refine ⟨hbegin.heap.insert_row _ vals, ?_⟩
    rw [(insert_row_frame ..).2]
    exact hbegin.undo
  | delete table w _ rids =>
    exact List.foldlRecOn rids _ hbegin fun u hu rid _ => ⟨hu.heap.stamp rid _, hu.undo⟩
  | update table set_col set_val w _ sci rids =>
    refine List.foldlRecOn rids _ hbegin fun u hu rid _ => ⟨hu.heap.update_row _ _ _ rid, ?_⟩
    rw [(update_row_frame ..).2]
    exact hu.undo
  | vacuum table =>
    unfold vacuum_table vacuum_rows
    obtain ⟨-, hheap, hundo⟩ := unindex_rows_fields (t.begin_write d.cur_txn)
      ((heap_scan t.heap).filter fun x => rec_dead d x.2)
    constructor
    · dsimp only
      rw [hheap]
      exact hbegin.heap.vacuum _
    · dsimp only
      rw [hundo]
      exact hbegin.undo

theorem HeapsOk.finish (h : HeapsOk t) (txn : Nat) (ok : Bool) : HeapsOk (t.finish txn ok) := by
  unfold Table.finish Table.commit Table.abort
  split <;> split
  · exact h
  · exact ⟨h.heap, h.undo⟩
  · exact h
  · exact ⟨h.undo, h.undo⟩

theorem heaps_ok_new (c : CreateStmt) (txn : Nat) : HeapsOk ((table_new c).begin_write txn) :=
  HeapsOk.begin_write ⟨heapOk_nil, heapOk_nil⟩ txn

end MiniDb
