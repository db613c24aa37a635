import Mathlib.Data.List.DropRight
import MiniDb.Db.IndexEntries
import MiniDb.Db.Ledger

/-! # VACUUM

  VACUUM removes the versions whose deletion is committed, with the index
  entries of their stored keys, packs the pages and cuts empty ones off the
  end.  Nobody saw what is removed, so every read finds the same rows on the
  same path.  A deletion past the end of the status table is never recorded as
  committed, and VACUUM leaves its version where it is. -/

namespace MiniDb

open Framework List

/-! ### Reads of an index without some of its entries -/

section Drop

variable {key val : Int} {p : Int × Int → Bool}

theorem leaf_delete_filter (hp : p (key, val) = false) (es : List (Int × Int)) :
    (leaf_delete key val es).1.filter p = es.filter p := by
  induction es with
  | nil => rfl
  | cons e es ih =>
    obtain ⟨k, v⟩ := e
    unfold leaf_delete
    split
    · rfl
    split
    · next heq =>
      obtain ⟨rfl, rfl⟩ := heq
      rw [filter_cons_of_neg (by rw [hp]; exact Bool.false_ne_true)]
    · exact filter_cons.trans ((congrArg (fun l => if p (k, v) = true then (k, v) :: l else l) ih).trans
        filter_cons.symm)

mutual

/-- What a deletion removes is one entry of the pair. -/
theorem node_delete_filter (hp : p (key, val) = false) : ∀ (seeking : Bool) (n : BTNode),
    (node_delete key val seeking n).1.entries.filter p = n.entries.filter p
  | _, .leaf es => by
    unfold node_delete
    exact leaf_delete_filter hp es
  | seeking, .node keys cs => by
    unfold node_delete
    exact chain_delete_filter hp seeking cs _

theorem chain_delete_filter (hp : p (key, val) = false) : ∀ (seeking : Bool) (cs : List BTNode)
    (i : Nat), (chain_entries (chain_delete key val seeking cs i).1).filter p =
      (chain_entries cs).filter p
  | _, [], _ => by
    unfold chain_delete
    rfl
  | seeking, c :: cs, 0 => by
    have hc := node_delete_filter hp seeking c
    have hcs := chain_delete_filter hp false cs 0
    unfold chain_delete
    rcases hd : node_delete key val seeking c with ⟨c', _ | _ | _⟩ <;> rw [hd] at hc <;>
      dsimp only <;> rw [chain_entries, chain_entries, filter_append, filter_append, hc]
    rw [hcs]
  | seeking, c :: cs, i + 1 => by
    have hcs := chain_delete_filter hp seeking cs i
    unfold chain_delete
    dsimp only
    rw [chain_entries, chain_entries, filter_append, filter_append, hcs]

end

mutual

/-- The nodes stay, and a descent with them. -/
theorem node_delete_seek (right : Int → Bool) (hp : p (key, val) = false) :
    ∀ (seeking : Bool) (n : BTNode),
      ((node_delete key val seeking n).1.seek right).filter p = (n.seek right).filter p
  | _, .leaf es => by
    unfold node_delete
    exact leaf_delete_filter hp es
  | seeking, .node keys cs => by
    unfold node_delete
    exact chain_delete_seek right hp seeking cs _ _

theorem chain_delete_seek (right : Int → Bool) (hp : p (key, val) = false) :
    ∀ (seeking : Bool) (cs : List BTNode) (i j : Nat),
      (chain_seek right (chain_delete key val seeking cs i).1 j).filter p =
        (chain_seek right cs j).filter p
  | _, [], _, _ => by
    unfold chain_delete
    rfl
  | seeking, c :: cs, 0, 0 => by
    have hc := node_delete_seek right hp seeking c
    have hcs := chain_delete_filter hp false cs 0
    unfold chain_delete
    rcases hd : node_delete key val seeking c with ⟨c', _ | _ | _⟩ <;> rw [hd] at hc <;>
      dsimp only <;> rw [chain_seek, chain_seek, filter_append, filter_append, hc]
    rw [hcs]
  | seeking, c :: cs, 0, j + 1 => by
    have hcs := chain_delete_seek right hp false cs 0 j
    unfold chain_delete
    rcases node_delete key val seeking c with ⟨c', _ | _ | _⟩ <;> dsimp only <;>
      rw [chain_seek, chain_seek]
    exact hcs
  | seeking, c :: cs, i + 1, 0 => by
    have hcs := chain_delete_filter hp seeking cs i
    unfold chain_delete
    dsimp only
    rw [chain_seek, chain_seek, filter_append, filter_append, hcs]
  | seeking, c :: cs, i + 1, j + 1 => by
    have hcs := chain_delete_seek right hp seeking cs i j
    unfold chain_delete
    dsimp only
    rw [chain_seek, chain_seek]
    exact hcs

end

end Drop

/-! ### Reads of a table without its dead versions -/

section Unindex

variable {dead : List (Rid × Version)} {q : Int → Bool} {t : Table}

theorem unindex_tree_read (hq : ∀ x ∈ dead, q (rid_encode x.1) = false) (col : Nat) (tree : BTNode)
    (right : Int → Bool) :
    ((unindex_tree col tree dead).entries.filter fun e => q e.2) = tree.entries.filter
    (fun e => q e.2) ∧
      (((unindex_tree col tree dead).seek right).filter fun e => q e.2) =
        (tree.seek right).filter fun e => q e.2 := by
  induction dead generalizing tree with
  | nil => exact ⟨rfl, rfl⟩
  | cons x dead ih =>
    have hx : q (rid_encode x.1) = false := hq x mem_cons_self
    obtain ⟨hentries, hseek⟩ := ih (fun y hy => hq y (mem_cons_of_mem x hy))
      (index_value btree_delete_val tree x.1 x.2.row[col]?)
    have hone : ((index_value btree_delete_val tree x.1 x.2.row[col]?).entries.filter fun e => q e.2) =
          tree.entries.filter (fun e => q e.2) ∧
        (((index_value btree_delete_val tree x.1 x.2.row[col]?).seek right).filter fun e => q e.2) =
          (tree.seek right).filter fun e => q e.2 := by
      unfold index_value
      split
      · exact ⟨node_delete_filter hx true tree, node_delete_seek right hx true tree⟩
      · exact ⟨rfl, rfl⟩
    exact ⟨hentries.trans hone.1, hseek.trans hone.2⟩

theorem unindex_rows_index (hi : t.has_index = true) (hk : t.schema.index_kind ≠ 1)
    (dead : List (Rid × Version)) :
    (dead.foldl unindex_row t).index = unindex_tree 0 t.index dead := by
  induction dead generalizing t with
  | nil => rfl
  | cons x dead ih =>
    have hschema := (unindex_row_fields t x).1
    have hone : (unindex_row t x).index = index_value btree_delete_val t.index x.1 x.2.row[0]? := by
      unfold unindex_row
      rw [hi, List.head?_eq_getElem?]
      cases x.2.row[0]? with
      | none => rfl
      | some v =>
        cases v with
        | int v =>
          show (pidx_delete t v x.1).index = _
          unfold pidx_delete
          rw [if_neg hk]
          rfl
        | null => rfl
        | text s => rfl
    rw [foldl_cons, ih (by unfold Table.has_index at hi ⊢; rwa [hschema]) (hschema ▸ hk), hone]
    rfl

theorem unindex_rows_lindex (hi : t.has_index = true) (hk : t.schema.index_kind = 1)
    (hq : ∀ x ∈ dead, q (rid_encode x.1) = false) :
    ((dead.foldl unindex_row t).lindex.filter fun e => q e.2) = t.lindex.filter fun e => q e.2 := by
  induction dead generalizing t with
  | nil => rfl
  | cons x dead ih =>
    have hschema := (unindex_row_fields t x).1
    have hx : q (rid_encode x.1) = false := hq x mem_cons_self
    have hone : ((unindex_row t x).lindex.filter fun e => q e.2) = t.lindex.filter fun e => q e.2 := by
      unfold unindex_row
      rw [hi, List.head?_eq_getElem?]
      cases x.2.row[0]? with
      | none => rfl
      | some v =>
        cases v with
        | int v =>
          show ((pidx_delete t v x.1).lindex.filter fun e => q e.2) = _
          unfold pidx_delete
          rw [if_pos hk]
          show (lsm_delete_val t.lindex v (rid_encode x.1)).filter _ = _
          unfold lsm_delete_val
          rw [filter_filter]
          refine filter_congr fun e _ => ?_
          by_cases he : e = (v, rid_encode x.1)
          · simp [he, hx]
          · simp [he]
        | null => rfl
        | text s => rfl
    rw [foldl_cons, ih (by unfold Table.has_index at hi ⊢; rwa [hschema]) (hschema ▸ hk)
      fun y hy => hq y (mem_cons_of_mem x hy), hone]

end Unindex

theorem filter_snd (q : Int → Bool) (p : Int × Int → Bool) (es : List (Int × Int)) :
    ((es.filter p).map Prod.snd).filter q = ((es.filter fun e => q e.2).filter p).map Prod.snd := by
  rw [filter_map, filter_filter, filter_filter]
  congr 1
  exact filter_congr fun e _ => Bool.and_comm _ _

variable {t : Table}

/-- The entries that a range read walks over are a filter of those it starts from. -/
theorem range_entries_filter (hvalid : t.schema.index_kind ≠ 1 → t.index.Valid)
    (op : CmpOp) (v : Int) :
    range_entries t op v = ((pidx_range t op v).filter fun e =>
      !range_skips op v e.1 && !range_stops op v e.1).map Prod.snd := by
  unfold range_entries
  dsimp only
  rw [← filter_filter]
  congr 2
  split
  · rfl
  next hk =>
  by_cases hlower : op = .CMP_GT ∨ op = .CMP_GE
  · -- no stop on the way up
    have hstops : ∀ k, range_stops op v k = false := by
      rcases hlower with rfl | rfl <;> exact fun _ => rfl
    simp only [hstops, Bool.not_false, filter_true]
    exact takeWhile_eq_self_iff.mpr fun _ _ => rfl
  · have hall : pidx_range t op v = t.index.entries := by
      unfold pidx_range
      simp only [if_neg hk, decide_eq_true_eq, if_neg hlower]
      rfl
    rw [hall]
    refine takeWhile_eq_filter (p := fun k => !range_stops op v k) (hvalid hk).sorted.1
      fun k k' hle hgo => ?_
    simp only [range_stops, Bool.not_eq_true', Bool.or_eq_false_iff, Bool.and_eq_false_iff,
      decide_eq_false_iff_not] at hgo ⊢
    exact ⟨hgo.1.imp_right fun h hvk => h (Int.le_trans hvk hle),
      hgo.2.imp_right fun h hvk => h (Int.lt_of_lt_of_le hvk hle)⟩

/-- Reads of the indexes find the same values, but for those that `q` leaves
    out. -/
structure SameReads (q : Int → Bool) (t t' : Table) : Prop where
  schema : t'.schema = t.schema
  stats : t'.stats = t.stats
  point : t.has_index = true → ∀ v, (pidx_find_all t' v).filter q = (pidx_find_all t v).filter q
  range : t.has_index = true →
    ∀ op v, (range_entries t' op v).filter q = (range_entries t op v).filter q
  sec : ∃ f, t'.sec = t.sec.map (.with_tree f) ∧ ∀ si ∈ t.sec, ∀ v,
    (btree_find_all (f si.col si.tree) v).filter q = (btree_find_all si.tree v).filter q

variable {dead : List (Rid × Version)}

theorem vacuum_rows_range {q : Int → Bool}
    (hq : ∀ x ∈ dead, q (rid_encode x.1) = false) (hi : t.has_index = true) (op : CmpOp) (v : Int) :
    ((pidx_range (vacuum_rows t dead) op v).filter fun e => q e.2) =
      (pidx_range t op v).filter fun e => q e.2 := by
  have hkind : (vacuum_rows t dead).schema.index_kind = t.schema.index_kind :=
    congrArg CreateStmt.index_kind (unindex_rows_fields t dead).1
  unfold pidx_range
  rw [hkind]
  by_cases hk : t.schema.index_kind = 1
  · have hlindex : ((vacuum_rows t dead).lindex.filter fun e => q e.2) = t.lindex.filter fun e => q e.2 :=
      unindex_rows_lindex hi hk hq
    have hscan : ∀ lo hi, ((lsm_scan (vacuum_rows t dead).lindex lo hi).filter fun e => q e.2) =
        (lsm_scan t.lindex lo hi).filter fun e => q e.2 := by
      intro lo hi
      unfold lsm_scan
      rw [filter_comm, hlindex, filter_comm]
    simp only [if_pos hk]
    split
    · exact hscan _ _
    · exact hscan _ _
  · have hindex : (vacuum_rows t dead).index = unindex_tree 0 t.index dead :=
      unindex_rows_index hi hk dead
    obtain ⟨hentries, hseek⟩ := unindex_tree_read hq 0 t.index fun k => decide (k ≤ v)
    simp only [if_neg hk, hindex]
    split
    · unfold btree_seek_scan
      rw [filter_comm, hseek, filter_comm]
    · exact hentries

/-- What VACUUM takes out of the indexes leads to the versions that go. -/
theorem vacuum_rows_reads (h : IndexesOk t) {q : Int → Bool}
    (hq : ∀ x ∈ dead, q (rid_encode x.1) = false) : SameReads q t (vacuum_rows t dead) := by
  have hschema : (vacuum_rows t dead).schema = t.schema := (unindex_rows_fields t dead).1
  refine ⟨hschema, (unindex_rows_frame t dead).2, fun hi v => ?_, fun hi op v => ?_, _,
    unindex_rows_sec t dead, fun si hsi v => ?_⟩
  · unfold pidx_find_all
    rw [hschema]
    split
    · next hk =>
      unfold lsm_find_all
      rw [filter_snd, filter_snd]
      congr 2
      exact unindex_rows_lindex hi hk hq
    · next hk =>
      have hindex : (vacuum_rows t dead).index = unindex_tree 0 t.index dead :=
        unindex_rows_index hi hk dead
      have hvalid := (h.pk hi).1 hk
      rw [hindex, hvalid.find_all, (unindex_tree_unindexed 0 hvalid dead).1.find_all, filter_snd,
        filter_snd]
      congr 2
      exact (unindex_tree_read hq 0 t.index fun _ => false).1
  · have hvalid : (vacuum_rows t dead).schema.index_kind ≠ 1 → (vacuum_rows t dead).index.Valid :=
      fun hk => (unindex_rows_unindexed hi (h.pk hi).1 dead).1 hk
    rw [range_entries_filter (h.pk hi).1, range_entries_filter hvalid, filter_snd, filter_snd,
      vacuum_rows_range hq hi]
  · obtain ⟨hvalid, -⟩ := h.sec si hsi
    rw [hvalid.find_all, (unindex_tree_unindexed si.col hvalid dead).1.find_all, filter_snd, filter_snd]
    congr 2
    exact (unindex_tree_read hq si.col si.tree fun _ => false).1

/-! ### What a SELECT finds -/

/-- The visible versions are the same, at the same addresses. -/
def SameVersions (d d' : TxnState) (h h' : Heap) : Prop :=
  ((heap_scan h').filter fun x => rec_visible d' x.2) = (heap_scan h).filter fun x => rec_visible d x.2

/-- Whatever is read from the table gives the same rows in the same order. -/
structure SameRows (d d' : TxnState) (t t' : Table) : Prop where
  schema : t'.schema = t.schema
  scan : ∀ tname w, (scan_rows d' t' tname w).found = (scan_rows d t tname w).found
  path : ∀ tname w, (path_read d' t' tname w (access_path t' tname w)).found =
    (path_read d t tname w (access_path t tname w)).found

section SameRows

variable {d d' : TxnState} {h h' : Heap} {t t' : Table}

variable {v : Int} {q : Int → Bool} {tname : String} {c : Condition}

theorem fetch_row_eq_some {row : Row} : fetch_row d h v = some row ↔
    ∃ rec, (rid_decode v, rec) ∈ (heap_scan h).filter (fun x => rec_visible d x.2) ∧ rec.row = row := by
  unfold fetch_row
  rw [Option.bind_eq_some_iff]
  refine exists_congr fun rec => ?_
  rw [mem_filter, mem_heap_scan, and_assoc, Option.ite_none_right_eq_some, Option.some.injEq]

theorem SameVersions.fetch_row (hv : SameVersions d d' h h') (v : Int) :
    fetch_row d' h' v = fetch_row d h v := by
  refine Option.ext fun row => ?_
  rw [fetch_row_eq_some, fetch_row_eq_some, hv]

theorem SameVersions.scan_rows (hv : SameVersions d d' t.heap t'.heap)
    (hschema : t'.schema = t.schema)
    (tname : String) (w : Where) :
    (scan_rows d' t' tname w).found = (scan_rows d t tname w).found := by
  unfold MiniDb.scan_rows
  rw [scan_read_found d' t'.heap (fun x => where_matches t'.schema tname w x.2.row) fun x => x.2.row,
    scan_read_found d t.heap (fun x => where_matches t.schema tname w x.2.row) fun x => x.2.row, hschema]
  congr 1
  have hsplit : ∀ (d : TxnState) (xs : List (Rid × Version)),
      (xs.filter fun x => rec_visible d x.2 && where_matches t.schema tname w x.2.row) =
        (xs.filter fun x => rec_visible d x.2).filter fun x => where_matches t.schema tname w x.2.row := by
    intro d xs
    rw [filter_filter]
    exact filter_congr fun x _ => Bool.and_comm _ _
  rw [hsplit, hsplit, hv]

/-- Values that lead to no visible row may be left out. -/
theorem filterMap_fetch (hq : ∀ v, q v = false → fetch_row d h v = none)
    (vals : List Int) :
    vals.filterMap (fetch_row d h) = (vals.filter q).filterMap (fetch_row d h) := by
  induction vals with
  | nil => rfl
  | cons v vals ih =>
    cases hqv : q v with
    | true => rw [filter_cons_of_pos hqv, filterMap_cons, filterMap_cons, ih]
    | false =>
      rw [filter_cons_of_neg (by rw [hqv]; exact Bool.false_ne_true),
        filterMap_cons_none (hq v hqv), ih]

theorem SameVersions.fetch_read (hv : SameVersions d d' t.heap t'.heap)
    (hq : ∀ v, q v = false → MiniDb.fetch_row d t.heap v = none) {vals vals' : List Int}
    (hvals : vals'.filter q = vals.filter q) :
    (fetch_read d' t' vals').found = (fetch_read d t vals).found := by
  have hfetch : MiniDb.fetch_row d' t'.heap = MiniDb.fetch_row d t.heap := funext hv.fetch_row
  rw [fetch_read_found, fetch_read_found, hfetch, filterMap_fetch hq vals', filterMap_fetch hq vals, hvals]

theorem pk_literal_congr (hschema : t'.schema = t.schema) (tname : String) (c : Condition) :
    pk_literal t' tname c = pk_literal t tname c := by
  unfold pk_literal Table.has_index
  rw [hschema]

theorem pk_literal_index (h : pk_literal t tname c = some v) :
    t.has_index = true := by
  unfold pk_literal at h
  split at h
  · simp only [Option.ite_none_right_eq_some, Bool.and_eq_true] at h
    exact h.1.1.2
  · cases h

theorem choose_pk_range_congr (hstats : t'.stats = t.stats) (op : CmpOp) (v : Int) :
    choose_pk_range t' op v = choose_pk_range t op v := by
  unfold choose_pk_range
  rw [hstats]

/-- Another tree does not change which index is taken. -/
theorem sec_index_for_with_tree (hschema : t'.schema = t.schema) {f : Nat → BTNode → BTNode}
    (hsec : t'.sec = t.sec.map (.with_tree f)) (tname : String) (c : Condition) :
    sec_index_for t' tname c = (sec_index_for t tname c).map fun x => (x.1.with_tree f, x.2) := by
  unfold sec_index_for
  split
  · split
    · rfl
    · rw [hsec, hschema, List.find?_map, Option.map_map, Option.map_map]
      rfl
  · rfl

theorem sec_index_for_mem {si : SecIndex}
    (h : sec_index_for t tname c = some (si, v)) : si ∈ t.sec := by
  unfold sec_index_for at h
  split at h
  · split at h
    · cases h
    · obtain ⟨si', hfind, heq⟩ := Option.map_eq_some_iff.mp h
      cases heq
      exact mem_of_find?_eq_some hfind
  · cases h

/-- The same path is taken, and it leads to the same rows. -/
theorem SameReads.same_rows (hs : SameReads q t t')
    (hv : SameVersions d d' t.heap t'.heap) (hq : ∀ v, q v = false → fetch_row d t.heap v = none) :
    SameRows d d' t t' := by
  refine ⟨hs.schema, hv.scan_rows hs.schema, fun tname w => ?_⟩
  unfold access_path
  cases single_cond w with
  | none => exact hv.scan_rows hs.schema tname w
  | some c =>
    dsimp only
    rw [pk_literal_congr hs.schema]
    cases hpk : pk_literal t tname c with
    | some v =>
      have hi := pk_literal_index hpk
      dsimp only
      rw [choose_pk_range_congr hs.stats]
      split
      · exact hv.fetch_read hq (hs.point hi v)
      split
      · exact hv.fetch_read hq (hs.range hi c.op v)
      · exact hv.scan_rows hs.schema tname w
    | none =>
      obtain ⟨f, hsec, hfind⟩ := hs.sec
      rw [sec_index_for_with_tree hs.schema hsec]
      cases hfor : sec_index_for t tname c with
      | none => exact hv.scan_rows hs.schema tname w
      | some x =>
        have hrows := hv.fetch_read hq (hfind x.1 (sec_index_for_mem hfor) x.2)
        show (fetch_read d' t' (btree_find_all (f x.1.col x.1.tree) x.2)).found.filter
          (where_matches t'.schema tname w) = _
        rw [hrows, hs.schema]
        rfl

theorem SameReads.refl (q : Int → Bool) (t : Table) : SameReads q t t where
  schema := rfl
  stats := rfl
  point _ _ := rfl
  range _ _ _ := rfl
  sec := ⟨fun _ tree => tree, (map_id t.sec).symm, fun _ _ _ => rfl⟩

theorem SameRows.select (hs : SameRows d d' t t') {sel : SelectStmt}
    (hstar : sel.select_star = true) :
    (exec_select_single d' t' sel).ok = (exec_select_single d t sel).ok ∧
      (exec_select_single d' t' sel).rows = (exec_select_single d t sel).rows := by
  have hsorted : ∀ tname, (exec_select_sorted d' t' tname sel).ok = (exec_select_sorted d t tname sel).ok ∧
      (exec_select_sorted d' t' tname sel).rows = (exec_select_sorted d t tname sel).rows := by
    intro tname
    unfold exec_select_sorted
    dsimp only
    rw [hs.schema, hs.scan]
    exact ⟨rfl, rfl⟩
  unfold exec_select_single
  rw [hs.schema, hstar]
  dsimp only
  generalize (if sel.as_name = "" then t.schema.table else sel.as_name) = tname
  simp only [Bool.not_true, Bool.false_eq_true, if_false]
  by_cases hexplain : sel.explain = true
  · simp only [if_pos hexplain, and_self]
  simp only [if_neg hexplain]
  by_cases hrest : (!sel.order_keys.isEmpty || decide (0 ≤ sel.limit) || decide (0 < sel.offset)) = true
  · simp only [if_pos hrest]
    exact hsorted tname
  · simp only [if_neg hrest, hs.path, and_self]

end SameRows

/-! ### One table -/

/-- All of a table but the marks of its writer. -/
def Table.files (t : Table) : CreateStmt × Heap × BTNode × LSM × List SecIndex × Option Stats :=
  (t.schema, t.heap, t.index, t.lindex, t.sec, t.stats)

theorem begin_write_files (t : Table) (txn : Nat) : (t.begin_write txn).files = t.files := by
  unfold Table.begin_write
  split <;> rfl

theorem commit_files (t : Table) (txn : Nat) : (t.commit txn).files = t.files := by
  unfold Table.commit
  split <;> rfl

/-- Reads do not look at the marks of the writer. -/
theorem SameRows.of_files {d d' : TxnState} {t t' u u' : Table} (h : SameRows d d' t t')
    (hu : u.files = t.files) (hu' : u'.files = t'.files) : SameRows d d' u u' := by
  cases t
  cases t'
  cases u
  cases u'
  simp only [Table.files, Prod.mk.injEq] at hu hu'
  obtain ⟨rfl, rfl, rfl, rfl, rfl, rfl⟩ := hu
  obtain ⟨rfl, rfl, rfl, rfl, rfl, rfl⟩ := hu'
  exact ⟨h.schema, h.scan, h.path⟩

section VacuumRows

variable {t : Table} {p : Rid × Version → Bool}

/-- Where the dead are not seen and the view of the rest stays, all rows stay. -/
theorem vacuum_rows_same {d d' : TxnState} (h : IndexesOk t)
    (hview : SameVersions d d' t.heap (vacuum_heap t.heap ((heap_scan t.heap).filter p)))
    (hdead : ∀ x ∈ heap_scan t.heap, p x = true → rec_visible d x.2 = false) :
    SameRows d d' t (vacuum_rows t ((heap_scan t.heap).filter p)) := by
  set dead := (heap_scan t.heap).filter p with hdeads
  have hheap : (vacuum_rows t dead).heap = vacuum_heap t.heap dead :=
    congrArg (vacuum_heap · dead) (unindex_rows_fields t dead).2.1
  -- the values that lead to no dead version
  let q : Int → Bool := fun v => dead.all fun x => decide (rid_decode v ≠ x.1)
  have hq : ∀ x ∈ dead, q (rid_encode x.1) = false := by
    intro x hx
    have hget := mem_heap_scan.mp (mem_filter.mp hx).1
    refine all_eq_false.mpr ⟨x, hx, ?_⟩
    rw [rid_decode_encode (h.heaps.heap.pages.slot_lt hget)]
    simp
  refine (vacuum_rows_reads h hq).same_rows (hheap ▸ hview) fun v hv => ?_
  obtain ⟨x, hx, heq⟩ := all_eq_false.mp hv
  obtain ⟨hmem, hp⟩ := mem_filter.mp hx
  have heq : rid_decode v = x.1 := by simpa using heq
  unfold fetch_row
  rw [heq, mem_heap_scan.mp hmem, Option.bind_some, hdead x hmem hp]
  rfl

theorem vacuum_rows_get (t : Table) (rid : Rid) (rec : Version) :
    heap_get (vacuum_rows t ((heap_scan t.heap).filter p)).heap rid = some rec ↔
      heap_get t.heap rid = some rec ∧ p (rid, rec) = false := by
  have hheap : (vacuum_rows t ((heap_scan t.heap).filter p)).heap =
      vacuum_heap t.heap ((heap_scan t.heap).filter p) :=
    congrArg (vacuum_heap · _) (unindex_rows_fields t _).2.1
  rw [hheap]
  exact heap_get_vacuum

variable {rid : Rid} {rec : Version} {v : Int}

/-- The integers of a stored row fit their 32 bits. -/
theorem HeapOk.int_fits {h : Heap} (hh : HeapOk h) {col : Nat} (hget : heap_get h rid = some rec)
    (hv : rec.row[col]? = some (.int v)) : Int32 v := by
  have hmem : (rid, rec.row) ∈ stored_rows h := mem_stored_rows.mpr ⟨rec, hget, rfl⟩
  exact hh.fits _ hmem (.int v) (mem_of_getElem? hv)

theorem vacuum_rows_pk (h : IndexesOk t) (hi : t.has_index = true)
    (hget : heap_get t.heap rid = some rec) (hp : p (rid, rec) = true)
    (hv : rec.row[0]? = some (.int v)) :
    (v, rid_encode rid) ∉ (vacuum_rows t ((heap_scan t.heap).filter p)).pk_entries := by
  obtain ⟨hvalid, hentries⟩ := h.pk hi
  refine (unindex_rows_unindexed hi hvalid _).2.gone (rid, rec) ?_ _ (version_entry_int hv)
    (hentries.once _ (h.heaps.heap.int_fits hget hv))
  exact mem_filter.mpr ⟨mem_heap_scan.mpr hget, hp⟩

theorem vacuum_rows_sec (h : IndexesOk t) {si : SecIndex}
    (hsi : si ∈ (vacuum_rows t ((heap_scan t.heap).filter p)).sec)
    (hget : heap_get t.heap rid = some rec) (hp : p (rid, rec) = true)
    (hv : rec.row[si.col]? = some (.int v)) : (v, rid_encode rid) ∉ si.tree.entries := by
  rw [show (vacuum_rows t _).sec = _ from unindex_rows_sec t _] at hsi
  obtain ⟨si₀, hsi₀, rfl⟩ := mem_map.mp hsi
  obtain ⟨hvalid, hentries⟩ := h.sec si₀ hsi₀
  refine (unindex_tree_unindexed si₀.col hvalid _).2.gone (rid, rec) ?_ _ (version_entry_int hv)
    (hentries.once _ (h.heaps.heap.int_fits hget hv))
  exact mem_filter.mpr ⟨mem_heap_scan.mpr hget, hp⟩

end VacuumRows

/-! ### A second VACUUM -/

theorem truncate_tail_twice (h : Heap) : truncate_tail (truncate_tail h) = truncate_tail h :=
  rdropWhile_idempotent page_is_empty h

/-- Without dead versions only empty pages at the end go, and there are none. -/
theorem vacuum_rows_again {t u : Table} {dead : List (Rid × Version)}
    (hu : u.files = (vacuum_rows t dead).files) : (vacuum_rows u []).files = u.files := by
  have hheap : u.heap = vacuum_heap (dead.foldl unindex_row t).heap dead :=
    congrArg (fun f => f.2.1) hu
  have hsame : vacuum_heap u.heap [] = u.heap := by
    show truncate_tail u.heap = u.heap
    rw [hheap]
    exact truncate_tail_twice _
  show (u.schema, vacuum_heap u.heap [], u.index, u.lindex, u.sec, u.stats) = _
  rw [hsame]
  rfl

end MiniDb
