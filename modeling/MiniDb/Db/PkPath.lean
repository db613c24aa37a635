import MiniDb.Db.PkIndex

/-! # Primary key conditions through the index

  `WHERE pk op v` read through the index and by a full scan.  In runs that
  write no key outside 32 bits the two agree for every comparison but `>=` on
  a B+Tree: its seek starts in the last leaf that may hold the bound, and
  duplicates of the bound in leaves before are missed. -/

namespace MiniDb

open Framework List

/-! ### What is read through an index -/

/-- The row an index value leads to, if it is visible. -/
def fetch_row (d : TxnState) (h : Heap) (val : Int) : Option Row :=
  (heap_get h (rid_decode val)).bind fun rec => if rec_visible d rec then some rec.row else none

theorem fetch_read_found (d : TxnState) (t : Table) (vals : List Int) :
    (fetch_read d t vals).found = vals.filterMap (fetch_row d t.heap) := by
  unfold fetch_read fetch_all
  rw [filterMap_filterMap]
  rfl

variable {t : Table} {tname : String} {op : CmpOp} {c : Condition} {sts : List Statement} {v : Int}
  {p : Int → Bool} {col : Nat}

/-- A scan for a condition on one column, read off the entries of the column. -/
theorem scan_rows_entries (hh : HeapOk t.heap) (d : TxnState) {w : Where}
    (hw : ∀ row, where_matches t.schema tname w row =
      match row_at row col with
      | .int k => p k
      | _ => false) :
    (scan_rows d t tname w).found =
      (((col_entries t.heap col).filter (p ·.1)).map Prod.snd).filterMap (fetch_row d t.heap) := by
  rw [col_entries_eq, filterMap_map, filterMap_filter, filterMap_filterMap]
  refine filterMap_congr fun x hx => ?_
  have hget := mem_heap_scan.mp hx
  have hfetch : fetch_row d t.heap (rid_encode x.1) = if rec_visible d x.2 then some x.2.row else none := by
    unfold fetch_row
    rw [rid_decode_encode (hh.pages.slot_lt hget), hget]
    rfl
  dsimp only
  rw [hw, version_entry]
  unfold index_entry
  cases row_at x.2.row col with
  | int k =>
    by_cases hp : p k = true
    · simp [hp, hfetch]
    · simp [hp]
  | null => simp
  | text s => simp

/-! ### Conditions on the key -/

def pk_op (op : CmpOp) : Bool := op = .CMP_EQ || is_range_op op

def key_matches (op : CmpOp) (v k : Int) : Bool := cmp_apply op (int_sign k v)

theorem key_matches_apply (op : CmpOp) (v k : Int) :
    key_matches op v k =
      match op with
      | .CMP_EQ => decide (k = v)
      | .CMP_NE => decide (k ≠ v)
      | .CMP_LT => decide (k < v)
      | .CMP_GT => decide (v < k)
      | .CMP_LE => decide (k ≤ v)
      | .CMP_GE => decide (v ≤ k)
      | _ => false := by
  unfold key_matches int_sign cmp_apply
  cases op <;> first
    | rfl
    | · refine decide_eq_decide.mpr ?_
        split <;> [skip; split] <;> omega

theorem pk_op_cases (h : pk_op op = true) :
    op = .CMP_EQ ∨ op = .CMP_GT ∨ op = .CMP_GE ∨ op = .CMP_LT ∨ op = .CMP_LE := by
  unfold pk_op is_range_op at h
  simpa [or_assoc] using h

/-- A comparison of one column with an integer. -/
theorem column_where {schema : CreateStmt}
    (hop : pk_op c.op = true) (hval : c.val = .int v) (hin : c.in_sub = false)
    (htbl : c.tbl = "" ∨ c.tbl = tname) (hcol : column_of schema c.col = some col) (row : Row) :
    where_matches schema tname [[c]] row =
      match row_at row col with
      | .int k => key_matches c.op v k
      | _ => false := by
  have hcell : cell_in schema tname c.tbl c.col row = row[col]? := by
    unfold cell_in
    rw [if_neg (by tauto), hcol]
    rfl
  have hmatch : where_matches schema tname [[c]] row = cond_eval row[col]? c := by
    unfold where_matches cond_matches
    rw [← hcell]
    simp
  rw [hmatch]
  unfold cond_eval row_at key_matches
  rw [if_neg (by simp [hin]), hval]
  rcases pk_op_cases hop with h | h | h | h | h <;> rw [h] <;>
    · cases row[col]? with
      | none => rfl
      | some cell => cases cell <;> rfl

theorem pk_where (hc : pk_literal t tname c = some v)
    (hop : pk_op c.op = true) (row : Row) :
    where_matches t.schema tname [[c]] row =
      match row_at row 0 with
      | .int k => key_matches c.op v k
      | _ => false := by
  unfold pk_literal at hc
  split at hc
  swap
  · cases hc
  next v' hval =>
  obtain ⟨hcond, heq⟩ := Option.ite_none_right_eq_some.mp hc
  cases heq
  simp only [Bool.and_eq_true, Bool.not_eq_true', names_column, Bool.or_eq_true, decide_eq_true_eq]
    at hcond
  obtain ⟨⟨hin, -⟩, htbl, hname⟩ := hcond
  refine column_where hop hval hin htbl ?_ row
  obtain ⟨cd, hcd, hcn⟩ := Option.map_eq_some_iff.mp hname
  obtain ⟨cs, hcs⟩ := List.head?_eq_some_iff.mp hcd
  unfold column_of
  rw [hcs, List.findIdx?_cons]
  simp [hcn]

/-! ### Entries of a range -/

theorem takeWhile_eq_filter {es : List (Int × Int)} (h : Ascending es)
    (hp : ∀ k k', k ≤ k' → p k' = true → p k = true) :
    es.takeWhile (p ·.1) = es.filter (p ·.1) := by
  induction es with
  | nil => rfl
  | cons e es ih =>
    obtain ⟨hle, hasc⟩ := pairwise_cons.mp h
    by_cases hpe : p e.1 = true
    · simp only [takeWhile_cons, filter_cons, hpe, if_true, ih hasc]
    · simp only [takeWhile_cons, filter_cons, hpe]
      refine (filter_eq_nil_iff.mpr fun e' he' hpe' => hpe ?_).symm
      exact hp _ _ (hle e' he') hpe'

/-- Entries that match and are not read. -/
def pk_missed (t : Table) (op : CmpOp) (v : Int) : List (Int × Int) :=
  if t.schema.index_kind ≠ 1 ∧ op = .CMP_GE then btree_missed t.index v else []

theorem mem_btree_missed {bt : BTNode} {start : Int} {e : Int × Int}
    (h : e ∈ btree_missed bt start) : e.1 = start := by
  simpa using (mem_filter.mp h).2

theorem range_entries_lsm (v : Int) (hk : t.schema.index_kind = 1) (hop : is_range_op op = true) :
    (t.pk_entries.filter fun e => key_matches op v e.1).map Prod.snd = range_entries t op v := by
  unfold range_entries pidx_range Table.pk_entries
  simp only [if_pos hk, lsm_scan]
  congr 1
  have hcases : op = .CMP_GT ∨ op = .CMP_GE ∨ op = .CMP_LT ∨ op = .CMP_LE := by
    simpa [is_range_op, or_assoc] using hop
  rcases hcases with rfl | rfl | rfl | rfl <;>
    · simp only [reduceCtorEq, or_false, or_true, decide_true, decide_false, if_true,
        Bool.false_eq_true, if_false, filter_filter, range_stops, range_skips]
      refine filter_congr fun e _ => ?_
      rw [key_matches_apply, Bool.eq_iff_iff]
      simp <;> omega

theorem range_entries_btree (v : Int) (hk : t.schema.index_kind ≠ 1) (hvalid : t.index.Valid)
    (hop : is_range_op op = true) :
    (t.pk_entries.filter fun e => key_matches op v e.1).map Prod.snd =
      (pk_missed t op v).map Prod.snd ++ range_entries t op v := by
  have hseek := hvalid.seek_scan v
  have hasc : Ascending t.index.entries := hvalid.sorted.1
  unfold range_entries pidx_range Table.pk_entries pk_missed
  simp only [if_neg hk]
  rw [← map_append]
  congr 1
  have hcases : op = .CMP_GT ∨ op = .CMP_GE ∨ op = .CMP_LT ∨ op = .CMP_LE := by
    simpa [is_range_op, or_assoc] using hop
  have hall : ∀ l : List (Int × Int), l.takeWhile (fun _ => true) = l := fun l =>
    takeWhile_eq_self_iff.mpr fun _ _ => rfl
  rcases hcases with rfl | rfl | rfl | rfl
  · -- the missed entries lie at the bound, which `>` leaves out
    simp only [key_matches_apply, range_stops, range_skips, reduceCtorEq, decide_false,
      Bool.false_and, Bool.or_false, Bool.not_false, hall, decide_true, Bool.true_and, true_or,
      if_true, and_false, if_false, nil_append]
    have hnone : (btree_missed t.index v).filter (fun e => !decide (e.1 = v)) = [] := by
      refine filter_eq_nil_iff.mpr fun e he => ?_
      simp [mem_btree_missed he]
    have hfilter := congrArg (List.filter fun e => !decide (e.1 = v)) hseek
    rw [filter_append, hnone, nil_append, filter_filter] at hfilter
    rw [← hfilter]
    refine filter_congr fun e _ => ?_
    rw [Bool.eq_iff_iff]
    simp
    omega
  · simp only [key_matches_apply, range_stops, range_skips, reduceCtorEq, decide_false,
      Bool.false_and, Bool.or_false, Bool.not_false, hall, decide_true, or_true,
      if_true, ne_eq, hk, not_false_eq_true, and_self, filter_true]
    exact hseek
  · simp only [key_matches_apply, range_stops, range_skips, reduceCtorEq, decide_false,
      Bool.false_and, Bool.or_false, Bool.not_false, decide_true, or_false, Bool.true_and,
      Bool.false_eq_true, and_false, if_false, nil_append, filter_true, btree_scan]
    rw [takeWhile_eq_filter (p := fun k => !decide (v ≤ k)) hasc (by simp; omega)]
    refine filter_congr fun e _ => ?_
    rw [Bool.eq_iff_iff]
    simp
  · simp only [key_matches_apply, range_stops, range_skips, reduceCtorEq, decide_false,
      Bool.false_and, Bool.false_or, Bool.not_false, decide_true, or_false, Bool.true_and,
      Bool.false_eq_true, and_false, if_false, nil_append, filter_true, btree_scan]
    rw [takeWhile_eq_filter (p := fun k => !decide (v < k)) hasc (by simp; omega)]
    refine filter_congr fun e _ => ?_
    rw [Bool.eq_iff_iff]
    simp

/-! ### Agreement -/

/-- The path of a condition on the key. -/
def pk_path (op : CmpOp) (v : Int) : AccessPath := if op = .CMP_EQ then .point v else .range op v

/-- The entries that are read are those that match, but for the missed ones. -/
theorem pk_path_entries (hpk : Tracks t (col_entries t.heap 0)) (hop : pk_op op = true)
    (d : TxnState) (v : Int) (tname : String) (w : Where) :
    ((((col_entries t.heap 0).filter fun e => key_matches op v e.1).map Prod.snd).filterMap
        (fetch_row d t.heap)).Perm
      (((pk_missed t op v).map Prod.snd).filterMap (fetch_row d t.heap) ++
        (path_read d t tname w (pk_path op v)).found) := by
  have hperm : (((col_entries t.heap 0).filter fun e => key_matches op v e.1).map Prod.snd).Perm
      ((t.pk_entries.filter fun e => key_matches op v e.1).map Prod.snd) :=
    (hpk.2.symm.filter _).map _
  by_cases heq : op = .CMP_EQ
  · subst heq
    have hfind : (t.pk_entries.filter fun e => key_matches .CMP_EQ v e.1).map Prod.snd =
        pidx_find_all t v := by
      simp only [key_matches_apply]
      unfold pidx_find_all Table.pk_entries
      split
      · rfl
      · next hk => exact ((hpk.1 hk).find_all v).symm
    have hmissed : pk_missed t .CMP_EQ v = [] := if_neg (by simp)
    rw [hmissed, show pk_path .CMP_EQ v = .point v from rfl]
    show List.Perm _ (fetch_read d t (pidx_find_all t v)).found
    rw [fetch_read_found, ← hfind]
    exact hperm.filterMap _
  · have hrange : is_range_op op = true := by
      simpa [pk_op, heq] using hop
    rw [show pk_path op v = .range op v from if_neg heq]
    show List.Perm _ (_ ++ (fetch_read d t (range_entries t op v)).found)
    rw [fetch_read_found, ← filterMap_append]
    refine (hperm.trans (List.Perm.of_eq ?_)).filterMap _
    by_cases hk : t.schema.index_kind = 1
    · rw [range_entries_lsm v hk hrange]
      unfold pk_missed
      simp [hk]
    · exact range_entries_btree v hk (hpk.1 hk) hrange

/-- In runs on tables with their indexes in order that write no key outside 32
    bits, a condition on the key gives the same rows through the index and by a
    scan, for every transaction state, exactly if no missed entry leads to a
    visible row. -/
theorem pk_path_agrees {db₀ db : Database} {sts : List Statement} (hopen : ∀ t ∈ db₀.tables, PkOk t)
    (hrun : Steps db_step keys_fit db₀ sts db) {t : Table} (ht : t ∈ db.tables) {tname : String}
    {c : Condition} {v : Int} (hc : pk_literal t tname c = some v) (hop : pk_op c.op = true)
    (d : TxnState) :
    (path_read d t tname [[c]] (pk_path c.op v)).found.Perm (scan_rows d t tname [[c]]).found ↔
      ∀ e ∈ pk_missed t c.op v, fetch_row d t.heap e.2 = none := by
  have hpk : PkOk t := pk_ok_in_run hopen hrun t ht
  have hi : t.has_index = true := by
    unfold pk_literal at hc
    split at hc
    · simp only [Option.ite_none_right_eq_some, Bool.and_eq_true] at hc
      exact hc.1.1.2
    · cases hc
  have hentries := pk_path_entries (hpk.pk hi) hop d v tname [[c]]
  rw [← scan_rows_entries hpk.heap d (pk_where hc hop)] at hentries
  have hmissed : ((pk_missed t c.op v).map Prod.snd).filterMap (fetch_row d t.heap) = [] ↔
      ∀ e ∈ pk_missed t c.op v, fetch_row d t.heap e.2 = none := by
    rw [filterMap_eq_nil_iff]
    exact forall_mem_map
  rw [← hmissed]
  constructor
  · intro hsame
    have hlen := (hsame.trans hentries).length_eq
    rw [length_append] at hlen
    exact length_eq_zero_iff.mp (by omega)
  · intro hnil
    rw [hnil, nil_append] at hentries
    exact hentries.symm

/-- `CREATE TABLE t (a INT)` -/
def one_column : CreateStmt := ⟨"t", [int_column "a"], 0⟩

/-- The table of a run that creates one, if every statement meets a condition. -/
def first_table (ok : Database → Statement → Prop) [∀ db st, Decidable (ok db st)]
    (sts : List Statement) : Option (Database × Table) :=
  (run (fun db st => if ok db st then db_step db st else none) db_new sts).bind fun db =>
    db.tables.head?.map fun t => (db, t)

theorem first_table_steps {ok : Database → Statement → Prop} [∀ db st, Decidable (ok db st)]
    {x : Database × Table} (h : first_table ok sts = some x) :
    Steps db_step ok db_new sts x.1 ∧ x.2 ∈ x.1.tables := by
  obtain ⟨db, hrun, hdb⟩ := Option.bind_eq_some_iff.mp h
  obtain ⟨t, ht, rfl⟩ := Option.map_eq_some_iff.mp hdb
  exact ⟨Steps.of_guarded hrun, mem_of_head? ht⟩

/-- A table with the rows of these keys. -/
def insert_keys (keys : List Int) : List Statement :=
  .create one_column :: keys.map fun k => .insert "t" [.int k]

theorem pk_path_agrees_three_keys :
    ∃ x, first_table keys_fit (insert_keys [3, 1, 2]) = some x ∧
      (path_read x.1.toTxnState x.2 "t" [[compare_int "a" .CMP_GE 2]] (pk_path .CMP_GE 2)).found.Perm
        (scan_rows x.1.toTxnState x.2 "t" [[compare_int "a" .CMP_GE 2]]).found := by
  have hall : (first_table keys_fit (insert_keys [3, 1, 2])).map (fun x =>
      (pk_literal x.2 "t" (compare_int "a" .CMP_GE 2), pk_missed x.2 .CMP_GE 2)) = some (some 2, []) := by
    decide +kernel
  obtain ⟨x, hx, heq⟩ := Option.map_eq_some_iff.mp hall
  obtain ⟨hc, hmissed⟩ := Prod.mk.inj heq
  obtain ⟨hrun, ht⟩ := first_table_steps hx
  refine ⟨x, hx, (pk_path_agrees (forall_mem_nil _) hrun ht hc rfl x.1.toTxnState).mpr ?_⟩
  intro e he
  rw [show pk_missed x.2 (compare_int "a" .CMP_GE 2).op 2 = [] from hmissed] at he
  cases he

/-- What `WHERE a op v` gives on the path that is taken and by a scan. -/
def both_paths (keys : List Int) (op : CmpOp) (v : Int) : Option (List Row × List Row) :=
  (first_table (fun _ _ => True) (insert_keys keys)).map fun x =>
    let w : Where := [[compare_int "a" op v]]
    ((path_read x.1.toTxnState x.2 "t" w (access_path x.2 "t" w)).found,
      (scan_rows x.1.toTxnState x.2 "t" w).found)

/-- The heap has cast the key 4294967297 to 1, the index has not; and of nine
    rows with the key 1 a walk from the key 1 on finds five. -/
theorem pk_path_misses_rows :
    both_paths [4294967297] .CMP_EQ 1 = some ([], [[.int 1]]) ∧
      (both_paths (List.replicate 9 1) .CMP_GE 1).map (fun x => (x.1.length, x.2.length)) =
        some (5, 9) := by
  decide +kernel

end MiniDb
