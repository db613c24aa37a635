import MiniDb.Db.JoinWalk
import MiniDb.Db.PkPath

/-! # Join methods

  A level of a join finds its rows by a lookup in the primary key index, by a
  hash table or by a scan.  Where the index agrees with the heap the three find
  the same rows, so a walk comes to the same tuples whichever it takes, and
  they are those of the left-deep join (`join_reference`). -/

open Framework List Function

namespace MiniDb

/-! ### The reference -/

/-- A tuple with each of the visible rows for which ON holds; with NULLs if
    there is none and the join is a LEFT JOIN. -/
def join_step (d : TxnState) (l : JoinLevel) (tuple : List Row) : List (List Row) :=
  let rows := (visible_rows d l.tab).filter fun row => level_on l (tuple ++ [row])
  if l.is_left && rows.isEmpty then [tuple ++ [List.replicate l.tab.schema.columns.length .null]]
  else rows.map fun row => tuple ++ [row]

/-- The left-deep join of the levels, and WHERE on the final tuples. -/
def join_reference (d : TxnState) (filter : Where) : List JoinLevel → List (List Row)
  | [] => []
  | l :: ls =>
    (ls.foldl (fun tuples l => tuples.flatMap (join_step d l))
      ((visible_rows d l.tab).map fun row => [row])).filter fun tuple =>
        where_matches_chain ((l :: ls).zip tuple) filter

/-- The primary key index of a table agrees with its visible rows: each row
    with a key has an entry, each entry that leads to a row has its key, no key
    is used twice, and a column of integers holds no text. -/
structure PkConsistent (d : TxnState) (t : Table) : Prop where
  valid : t.index.Valid
  typed : ∀ x ∈ heap_scan t.heap, rec_visible d x.2 = true → ∀ s, row_at x.2.row 0 ≠ .text s
  entry : ∀ x ∈ heap_scan t.heap, rec_visible d x.2 = true → ∀ key, row_at x.2.row 0 = .int key →
    ∃ val, (key, val) ∈ t.index.entries ∧ rid_decode val = x.1
  key : ∀ e ∈ t.index.entries, ∀ rec, heap_get t.heap (rid_decode e.2) = some rec →
    rec_visible d rec = true → row_at rec.row 0 = .int e.1
  unique : ∀ x ∈ heap_scan t.heap, ∀ y ∈ heap_scan t.heap,
    rec_visible d x.2 = true → rec_visible d y.2 = true →
      ∀ key, row_at x.2.row 0 = .int key → row_at y.2.row 0 = .int key → x = y

/-- The tables of a run agree with their indexes as long as their keys are
    unique. -/
theorem PkOk.consistent {d : TxnState} {t : Table} (h : PkOk t) (hix : t.has_index = true)
    (hkind : t.schema.index_kind ≠ 1)
    (htyped : ∀ x ∈ heap_scan t.heap, rec_visible d x.2 = true → ∀ s, row_at x.2.row 0 ≠ .text s)
    (hunique : ∀ x ∈ heap_scan t.heap, ∀ y ∈ heap_scan t.heap,
      rec_visible d x.2 = true → rec_visible d y.2 = true →
        ∀ key, row_at x.2.row 0 = .int key → row_at y.2.row 0 = .int key → x = y) :
    PkConsistent d t := by
  obtain ⟨hvalid, hperm⟩ := h.pk hix
  have hentry : ∀ e, e ∈ t.index.entries ↔
      ∃ x ∈ heap_scan t.heap, row_at x.2.row 0 = .int e.1 ∧ rid_encode x.1 = e.2 := by
    intro e
    unfold Table.pk_entries at hperm
    rw [if_neg hkind] at hperm
    rw [hperm.mem_iff, col_entries_eq, mem_filterMap]
    exact exists_congr fun x => and_congr_right fun _ => index_entry_eq_some
  have hslot : ∀ x ∈ heap_scan t.heap, rid_decode (rid_encode x.1) = x.1 := fun x hx =>
    rid_decode_encode (h.heap.pages.slot_lt (mem_heap_scan.mp hx))
  refine ⟨hvalid hkind, htyped, fun x hx _ key hkey => ?_, fun e he rec hget _ => ?_, hunique⟩
  · exact ⟨rid_encode x.1, (hentry _).mpr ⟨x, hx, hkey, rfl⟩, hslot x hx⟩
  · obtain ⟨x, hx, hkey, hval⟩ := (hentry e).mp he
    rw [← hval, hslot x hx, mem_heap_scan.mp hx] at hget
    rwa [← Option.some.inj hget]

/-- A method that a level can use. -/
def Applicable (k : Nat) (l : JoinLevel) : JoinMethod → Prop
  | .JM_SCAN => True
  | .JM_HASH => ∃ kcol key, join_key k l = some (kcol, key)
  | .JM_INDEX => ∃ key, join_key k l = some (0, key) ∧ l.tab.has_index = true

def MethodsApply (levels : List JoinLevel) (method : Nat → JoinMethod) : Prop :=
  ∀ k l, levels[k]? = some l → k ≠ 0 → Applicable k l (method k)

theorem join_methods_apply (levels : List JoinLevel) : MethodsApply levels (join_methods levels) := by
  intro k l hl hk
  unfold join_methods choose_method
  rw [hl]
  dsimp only
  rw [if_neg hk]
  rcases hkey : join_key k l with _ | ⟨kcol, key⟩
  · trivial
  · dsimp only
    split
    · next h =>
      obtain ⟨hcol, hix⟩ := Bool.and_eq_true_iff.mp h
      rw [of_decide_eq_true hcol] at hkey
      exact ⟨key, hkey, hix⟩
    · exact ⟨kcol, key, hkey⟩

/-! ### Equal values -/

theorem strcmp_eq_zero {a b : List UInt8} : strcmp a b = 0 ↔ a = b := by
  induction a generalizing b with
  | nil => cases b <;> simp [strcmp]
  | cons x as ih =>
    cases b with
    | nil => simp [strcmp]
    | cons y bs =>
      rw [strcmp]
      by_cases hxy : x = y
      · simp [hxy, ih]
      · rw [if_neg hxy]
        split <;> simp [hxy]

theorem values_equal_iff {a b : Value} : values_equal a b = true ↔ a = b ∧ a ≠ .null := by
  cases a <;> cases b <;> simp [values_equal, strcmp_eq_zero]

theorem values_equal_comm (a b : Value) : values_equal a b = values_equal b a := by
  rw [Bool.eq_iff_iff, values_equal_iff, values_equal_iff]
  constructor <;> rintro ⟨rfl, h⟩ <;> exact ⟨rfl, h⟩

section Level

variable {d : TxnState} {k kcol : Nat} {l : JoinLevel} {key : Nat × Nat} {pre : List Row}
  {t : Table}

theorem tuple_value_before (hk : key.1 < pre.length) (row : Row) :
    tuple_value (pre ++ [row]) key = tuple_value pre key := by
  unfold tuple_value
  rw [getElem?_append_left hk]

theorem tuple_value_last (row : Row) (hk : pre.length = k) :
    tuple_value (pre ++ [row]) (k, kcol) = row_at row kcol := by
  unfold tuple_value
  rw [← hk, getElem?_concat_length]
  rfl

/-- With a key, ON compares one column of the row with an earlier value. -/
theorem level_on_key (hkey : join_key k l = some (kcol, key)) (hpre : pre.length = k) (row : Row) :
    level_on l (pre ++ [row]) = values_equal (row_at row kcol) (tuple_value pre key) := by
  have hlt : key.1 < pre.length := hpre ▸ join_key_lt hkey
  rw [← tuple_value_before hlt row, ← tuple_value_last row hpre]
  unfold level_on
  unfold join_key at hkey
  split at hkey
  · next h =>
    obtain ⟨rfl, rfl⟩ := Prod.mk.inj (Option.some.inj hkey)
    rw [← h.1]
  split at hkey
  · next h =>
    obtain ⟨rfl, rfl⟩ := Prod.mk.inj (Option.some.inj hkey)
    rw [values_equal_comm, ← h.1]
  · cases hkey

/-! ### The hash table -/

theorem hash_build_rows (d : TxnState) (t : Table) (kcol : Nat) :
    (hash_build d t kcol).1 =
      (visible_rows d t).foldl (fun ht row => hash_insert ht (row_at row kcol) row) fun _ => [] := by
  have hfound := scan_read_found d t.heap (fun _ => true) fun x => x.2.row
  simp only [Bool.and_true, if_true] at hfound
  exact congrArg (List.foldl _ _) hfound

/-- A bucket holds the rows with its hash, the last one first. -/
theorem hash_bucket_rows (rows : List Row) (kcol : Nat) (ht : HashTab) (b : Nat) :
    (rows.foldl (fun ht row => hash_insert ht (row_at row kcol) row) ht) b =
      ((rows.filter fun row => val_hash (row_at row kcol) % HJOIN_BUCKETS = b).map fun row =>
        (row_at row kcol, row)).reverse ++ ht b := by
  induction rows generalizing ht with
  | nil => rfl
  | cons row rows ih =>
    rw [foldl_cons, ih]
    by_cases hb : val_hash (row_at row kcol) % HJOIN_BUCKETS = b
    · simp [hash_insert, hb]
    · have hb' : ¬ b = val_hash (row_at row kcol) % HJOIN_BUCKETS := fun h => hb h.symm
      simp [hash_insert, hb, hb']

/-- Equal values are in one bucket, so a lookup finds every row with the value. -/
theorem hash_lookup_perm (d : TxnState) (t : Table) (kcol : Nat) (v : Value) :
    (((hash_bucket (hash_build d t kcol).1 v).filter fun e => values_equal e.1 v).map Prod.snd).Perm
      ((visible_rows d t).filter fun row => values_equal (row_at row kcol) v) := by
  unfold hash_bucket
  rw [hash_build_rows, hash_bucket_rows, append_nil, filter_reverse, map_reverse]
  refine (reverse_perm _).trans (.of_eq ?_)
  rw [filter_map, map_map, filter_filter]
  have hid : (Prod.snd ∘ fun row : Row => (row_at row kcol, row)) = id := rfl
  rw [hid, map_id]
  refine filter_congr fun row _ => ?_
  rw [comp_apply]
  cases heq : values_equal (row_at row kcol) v with
  | false => rfl
  | true =>
    rw [(values_equal_iff.mp heq).1]
    simp

/-! ### The primary key index -/

theorem pk_vis_find_eq (d : TxnState) (recs : List Version) :
    (pk_vis_find d recs).1 = recs.find? (rec_visible d) := by
  induction recs with
  | nil => rfl
  | cons rec recs ih =>
    rw [pk_vis_find, find?_cons]
    cases rec_visible d rec with
    | true => rfl
    | false => exact ih

theorem mem_fetch_find (hvalid : t.index.Valid) {v : Int} {rec : Version} :
    rec ∈ fetch_all t (btree_find_all t.index v) ↔
      ∃ val, (v, val) ∈ t.index.entries ∧ heap_get t.heap (rid_decode val) = some rec := by
  unfold fetch_all
  rw [hvalid.find_all, mem_filterMap]
  simp [mem_filter]

/-- The first visible version under a key is the only visible row with it. -/
theorem PkConsistent.lookup (hpk : PkConsistent d t) (v : Int) :
    ((pk_vis_find d (fetch_all t (btree_find_all t.index v))).1.map Version.row).toList =
      (visible_rows d t).filter fun row => values_equal (row_at row 0) (.int v) := by
  unfold visible_rows
  rw [pk_vis_find_eq, filter_map, filter_filter]
  generalize hwith : (heap_scan t.heap).filter _ = versions
  have hmem : ∀ x, x ∈ versions ↔
      x ∈ heap_scan t.heap ∧ rec_visible d x.2 = true ∧ row_at x.2.row 0 = .int v := by
    intro x
    subst hwith
    rw [mem_filter, Bool.and_eq_true, comp_apply, values_equal_iff]
    constructor
    · rintro ⟨hx, ⟨hrow, -⟩, hvis⟩
      exact ⟨hx, hvis, hrow⟩
    · rintro ⟨hx, hvis, hrow⟩
      exact ⟨hx, ⟨hrow, by rw [hrow]; nofun⟩, hvis⟩
  cases hfind : (fetch_all t (btree_find_all t.index v)).find? (rec_visible d) with
  | none =>
    -- a row with the key would have been found through its entry
    have hnone : versions = [] := by
      refine eq_nil_iff_forall_not_mem.mpr fun x hx => ?_
      obtain ⟨hx, hvis, hrow⟩ := (hmem x).mp hx
      obtain ⟨val, hent, hrid⟩ := hpk.entry x hx hvis v hrow
      have hget : heap_get t.heap (rid_decode val) = some x.2 := hrid ▸ mem_heap_scan.mp hx
      exact find?_eq_none.mp hfind x.2 ((mem_fetch_find hpk.valid).mpr ⟨val, hent, hget⟩) hvis
    rw [hnone]
    rfl
  | some rec =>
    have hvis := find?_some hfind
    obtain ⟨val, hent, hget⟩ := (mem_fetch_find hpk.valid).mp (mem_of_find?_eq_some hfind)
    have hrow := hpk.key (v, val) hent rec hget hvis
    have hscan := mem_heap_scan.mpr hget
    have hone : versions = [(rid_decode val, rec)] := by
      refine perm_singleton.mp ((perm_ext_iff_of_nodup ?_ (nodup_singleton _)).mpr
        fun x => ?_)
      · rw [← hwith]
        exact (List.Nodup.of_map _ (heap_scan_nodup _)).filter _
      · rw [hmem, mem_singleton]
        constructor
        · rintro ⟨hx, hvis', hrow'⟩
          exact hpk.unique x hx _ hscan hvis' hvis v hrow' hrow
        · rintro rfl
          exact ⟨hscan, hvis, hrow⟩
    rw [hone]
    rfl

/-- A value that is no integer is in no column of integers. -/
theorem PkConsistent.no_text (hpk : PkConsistent d t) {v : Value}
    (hv : ∀ i, v ≠ .int i) :
    (visible_rows d t).filter (fun row => values_equal (row_at row 0) v) = [] := by
  refine filter_eq_nil_iff.mpr fun row hrow heq => ?_
  obtain ⟨x, hx, rfl⟩ := mem_map.mp hrow
  obtain ⟨hx, hvis⟩ := mem_filter.mp hx
  obtain ⟨heq, hne⟩ := values_equal_iff.mp heq
  cases hval : row_at x.2.row 0 with
  | int i => exact hv i (heq.symm.trans hval)
  | text s => exact hpk.typed x hx hvis s hval
  | null => exact hne hval

/-! ### One level -/

/-- The rows of a level by a scan. -/
theorem level_rows_key (hkey : join_key k l = some (kcol, key)) (hpre : pre.length = k) :
    ((visible_rows d l.tab).filter fun row => level_on l (pre ++ [row])) =
      (visible_rows d l.tab).filter fun row =>
        values_equal (row_at row kcol) (tuple_value pre key) :=
  filter_congr fun row _ => level_on_key hkey hpre row

variable (sel : SelectStmt) {levels : List JoinLevel} {method : Nat → JoinMethod}

theorem join_plan_hash (hl : levels[k]? = some l) (hmethod : method k = .JM_HASH)
    (hkey : join_key k l = some (kcol, key)) :
    (join_plan d sel levels method).hash k = (hash_build d l.tab kcol).1 := by
  show (join_hash d levels method k).1 = _
  unfold join_hash
  rw [hmethod, hl]
  dsimp only
  rw [hkey]

/-- Every method that applies finds the rows of the scan. -/
theorem level_rows_perm (hl : levels[k]? = some l) (hk : k ≠ 0) (happ : Applicable k l (method k))
    (hpk : l.tab.has_index = true → PkConsistent d l.tab) (hpre : pre.length = k) :
    (level_rows d (join_plan d sel levels method) k l pre).Perm
      ((visible_rows d l.tab).filter fun row => level_on l (pre ++ [row])) := by
  have hmethod : (join_plan d sel levels method).method k = method k := rfl
  unfold level_rows
  rw [if_neg hk, hmethod]
  cases hm : method k with
  | JM_SCAN => simp [hk]
  | JM_HASH =>
    rw [hm] at happ
    obtain ⟨kcol, key, hkey⟩ := happ
    rw [hkey, level_rows_key hkey hpre]
    dsimp only
    rw [join_plan_hash sel hl hm hkey]
    exact hash_lookup_perm d l.tab kcol _
  | JM_INDEX =>
    rw [hm] at happ
    obtain ⟨key, hkey, hix⟩ := happ
    rw [hkey, level_rows_key hkey hpre]
    dsimp only
    cases hv : tuple_value pre key with
    | int v => exact .of_eq ((hpk hix).lookup v)
    | text s => exact .of_eq ((hpk hix).no_text fun _ h => Value.noConfusion h).symm
    | null => exact .of_eq ((hpk hix).no_text fun _ h => Value.noConfusion h).symm

theorem with_nulls_perm {xs ys : List Row} (h : xs.Perm ys) :
    (with_nulls k l xs).Perm (with_nulls k l ys) := by
  unfold with_nulls
  rw [h.isEmpty_eq]
  split
  · exact .refl _
  · exact h

/-! ### The whole walk -/

theorem join_step_eq (hk : k ≠ 0) :
    join_step d l pre =
      (with_nulls k l ((visible_rows d l.tab).filter fun row => level_on l (pre ++ [row]))).map
        fun row => pre ++ [row] := by
  unfold join_step with_nulls
  rw [decide_eq_true hk, Bool.true_and]
  dsimp only
  split <;> rfl

theorem join_fold_flatMap (d : TxnState) (ls : List JoinLevel) (tuples : List (List Row)) :
    ls.foldl (fun tuples l => tuples.flatMap (join_step d l)) tuples =
      tuples.flatMap fun tuple => ls.foldl (fun tuples l => tuples.flatMap (join_step d l)) [tuple] := by
  induction ls generalizing tuples with
  | nil => exact (flatMap_singleton' tuples).symm
  | cons l ls ih =>
    simp only [foldl_cons, flatMap_singleton]
    rw [ih, flatMap_assoc]
    refine flatMap_congr fun tuple _ => ?_
    rw [← ih]

/-- From any tuple on, the walk comes to the tuples of the left-deep join. -/
theorem walk_perm (happ : MethodsApply levels method)
    (hpk : ∀ l ∈ levels, l.tab.has_index = true → PkConsistent d l.tab) (ls : List JoinLevel)
    (hls : ∀ i l, ls[i]? = some l → levels[k + i]? = some l) (hk : k ≠ 0) (hpre : pre.length = k) :
    (walk d (join_plan d sel levels method) k ls pre).Perm
      (ls.foldl (fun tuples l => tuples.flatMap (join_step d l)) [pre]) := by
  induction ls generalizing k pre with
  | nil => exact .refl _
  | cons l ls ih =>
    have hl : levels[k]? = some l := hls 0 l rfl
    have hrows := with_nulls_perm (k := k) (l := l)
      (level_rows_perm sel hl hk (happ k l hl hk) (hpk l (mem_of_getElem? hl)) hpre)
    rw [walk, foldl_cons, flatMap_singleton, join_step_eq hk, join_fold_flatMap,
      flatMap_map]
    refine (hrows.flatMap_right _).trans (List.Perm.flatMap_left _ fun row _ => ?_)
    refine ih (fun i l' hl' => ?_) (Nat.succ_ne_zero k) (by rw [length_append, hpre]; rfl)
    rw [Nat.add_right_comm]
    exact hls (i + 1) l' hl'

end Level

variable {levels : List JoinLevel}

/-- The tuples that WHERE holds of are those of the reference. -/
theorem walk_reference {d : TxnState} (sel : SelectStmt)
    {method : Nat → JoinMethod} (hne : levels ≠ []) (happ : MethodsApply levels method)
    (hpk : ∀ l ∈ levels, l.tab.has_index = true → PkConsistent d l.tab) :
    ((join_plan d sel levels method).keeps
        (walk d (join_plan d sel levels method) 0 levels [])).Perm
      (join_reference d sel.filter levels) := by
  cases levels with
  | nil => exact absurd rfl hne
  | cons l ls =>
    refine List.Perm.filter _ ?_
    have hrows : level_rows d (join_plan d sel (l :: ls) method) 0 l [] = visible_rows d l.tab := by
      unfold level_rows
      simp
    rw [walk, hrows, join_fold_flatMap, flatMap_map]
    refine List.Perm.flatMap_left _ fun row _ => ?_
    exact walk_perm sel happ hpk ls (fun i l' hl' => by rwa [Nat.add_comm]) Nat.one_ne_zero rfl

/-! ### Any method -/

/-- An ON clause refers to a table joined later. -/
def RefersLater (levels : List JoinLevel) : Prop :=
  ∃ x ∈ levels.zipIdx, x.2 ≠ 0 ∧ ¬ BackRefs x.2 x.1

instance (levels : List JoinLevel) : Decidable (RefersLater levels) :=
  inferInstanceAs (Decidable (∃ x ∈ _, _))

/-- All tuples of the reference are within the bound of the walk. -/
def WithinBound (d : TxnState) (sel : SelectStmt) (levels : List JoinLevel) : Prop :=
  ∀ n ∈ (join_plan d sel levels (join_methods levels)).bound,
    (join_reference d sel.filter levels).length ≤ n

instance (d : TxnState) (sel : SelectStmt) (levels : List JoinLevel) :
    Decidable (WithinBound d sel levels) := inferInstanceAs (Decidable (∀ n ∈ _, _))

variable {db : Database} {chain : List (Table × String)} {sel : SelectStmt}

theorem join_levels_ne_nil
    (hchain : join_chain db sel = some chain) (hlevels : join_levels chain sel.joins = some levels)
    : levels ≠ [] := by
  rintro rfl
  unfold join_chain at hchain
  rw [mapM_cons] at hchain
  cases hfirst : (find_table db sel.table) with
  | none => simp [hfirst] at hchain
  | some t =>
    cases chain with
    | nil => simp [hfirst, Option.bind_eq_some_iff] at hchain
    | cons x xs =>
      unfold join_levels at hlevels
      cases hres : resolve_joins (x :: xs) xs sel.joins <;> simp [hres] at hlevels

theorem resolve_joins_mem {ts : List (Table × String)} {joins : List JoinClause}
    (h : resolve_joins chain ts joins = some levels) :
    ∀ l ∈ levels, (l.tab, l.tname) ∈ ts := by
  induction ts generalizing joins levels with
  | nil =>
    cases h
    nofun
  | cons x ts ih =>
    cases joins with
    | nil =>
      cases h
      nofun
    | cons j js =>
      rw [resolve_joins] at h
      split at h
      · next a b ls ha hb hls =>
        cases h
        intro l hl
        rcases mem_cons.mp hl with rfl | hl
        · exact mem_cons_self
        · exact mem_cons_of_mem _ (ih hls l hl)
      · cases h

theorem join_chain_mem (h : join_chain db sel = some chain) :
    ∀ x ∈ chain, x.1 ∈ db.tables := by
  unfold join_chain at h
  generalize (sel.table, sel.as_name) :: _ = names at h
  induction names generalizing chain with
  | nil =>
    cases h
    nofun
  | cons name names ih =>
    rw [mapM_cons, Option.bind_eq_bind, Option.bind_eq_some_iff] at h
    obtain ⟨x, hx, h⟩ := h
    rw [Option.bind_eq_bind, Option.bind_eq_some_iff] at h
    obtain ⟨xs, hxs, h⟩ := h
    cases h
    obtain ⟨t, ht, rfl⟩ := Option.map_eq_some_iff.mp hx
    intro y hy
    rcases mem_cons.mp hy with rfl | hy
    · exact (find_table_mem ht).1
    · exact ih hxs y hy

/-- The levels of a join are tables of the database. -/
theorem join_levels_mem
    (hchain : join_chain db sel = some chain) (hlevels : join_levels chain sel.joins = some levels)
    : ∀ l ∈ levels, l.tab ∈ db.tables := by
  have hmem := join_chain_mem hchain
  cases chain with
  | nil =>
    cases hlevels
    nofun
  | cons x xs =>
    obtain ⟨ls, hls, rfl⟩ := Option.map_eq_some_iff.mp hlevels
    intro l hl
    rcases mem_cons.mp hl with rfl | hl
    · exact hmem x mem_cons_self
    · exact hmem _ (mem_cons_of_mem _ (resolve_joins_mem hls l hl))

/-- Cut off at a bound, a list is still a reordering of another exactly if that
    one is within the bound. -/
theorem take_perm_iff {α : Type} {xs ys : List α} (h : xs.Perm ys) (n : Nat) :
    (xs.take n).Perm ys ↔ ys.length ≤ n := by
  constructor
  · intro hperm
    have hlen := hperm.length_eq
    rw [length_take] at hlen
    omega
  · intro hle
    rwa [take_of_length_le (h.length_eq ▸ hle)]

/-- A join that runs tells of no reference to a later table; without one, the
    tuples it emits are those of the left-deep join whichever methods its
    levels use, as far as they are within its bound. -/
theorem join_method_independent (db : Database) (sel : SelectStmt) (chain : List (Table × String))
    (levels : List JoinLevel) (hchain : join_chain db sel = some chain)
    (hlevels : join_levels chain sel.joins = some levels)
    (hpk : ∀ l ∈ levels, l.tab.has_index = true → PkConsistent db.toTxnState l.tab)
    (hok : (exec_select_join db sel).ok = true) :
    ((RefersLater levels → (exec_select_join db sel).ok = false) ∧
      ∀ method, MethodsApply levels method →
        (mjoin db.toTxnState (join_plan db.toTxnState sel levels method)).emitted.Perm
          (join_reference db.toTxnState sel.filter levels)) ↔
    ¬ RefersLater levels ∧ WithinBound db.toTxnState sel levels := by
  have hno : (RefersLater levels → (exec_select_join db sel).ok = false) ↔ ¬ RefersLater levels := by
    rw [hok]
    simp
  rw [hno]
  refine and_congr_right fun hlater => ?_
  have hback : ∀ k l, levels[k]? = some l → k ≠ 0 → BackRefs k l := by
    intro k l hl hk
    by_contra hback
    exact hlater ⟨(l, k), mem_zipIdx_iff_getElem?.mpr hl, hk, hback⟩
  -- the bound is the same for all methods
  have hiff : ∀ method, MethodsApply levels method →
      ((mjoin db.toTxnState (join_plan db.toTxnState sel levels method)).emitted.Perm
        (join_reference db.toTxnState sel.filter levels) ↔ WithinBound db.toTxnState sel levels) := by
    intro method happ
    have hbound : (join_plan db.toTxnState sel levels (join_methods levels)).bound =
      (join_plan db.toTxnState sel levels method).bound := rfl
    have hlevel : (join_plan db.toTxnState sel levels method).levels = levels := rfl
    have hperm := walk_reference sel (join_levels_ne_nil hchain hlevels) happ hpk
    unfold WithinBound
    rw [hbound, mjoin_emitted _ _ hback, hlevel]
    cases (join_plan db.toTxnState sel levels method).bound with
    | none => simpa using hperm
    | some n => simpa using take_perm_iff hperm n
  constructor
  · intro hall
    exact (hiff _ (join_methods_apply levels)).mp (hall _ (join_methods_apply levels))
  · intro hwithin method happ
    exact (hiff method happ).mpr hwithin

/-- `CREATE TABLE t (a INT)`, `CREATE TABLE u (b INT)`, and rows in both. -/
def two_tables : List Statement :=
  [.create one_column, .create ⟨"u", [int_column "b"], 0⟩,
    .insert "t" [.int 1], .insert "t" [.int 2], .insert "u" [.int 2], .insert "u" [.int 3]]

/-- `SELECT * FROM t` with such joins. -/
def select_joined (joins : List JoinClause) : SelectStmt :=
  { select_all "t" [] with joins := joins }

/-- The state, the chain and the levels of a join after a run. -/
def joined (sts : List Statement) (sel : SelectStmt) :
    Option (Database × List (Table × String) × List JoinLevel) :=
  (run (fun db st => if keys_fit db st then db_step db st else none) db_new sts).bind fun db =>
    (join_chain db sel).bind fun chain =>
      (join_levels chain sel.joins).map fun levels => (db, chain, levels)

theorem joined_steps {sts : List Statement}
    (h : joined sts sel = some (db, chain, levels)) :
    Steps db_step keys_fit db_new sts db ∧ join_chain db sel = some chain ∧
      join_levels chain sel.joins = some levels := by
  obtain ⟨db', hrun, h⟩ := Option.bind_eq_some_iff.mp h
  obtain ⟨chain', hchain, h⟩ := Option.bind_eq_some_iff.mp h
  obtain ⟨levels', hlevels, h⟩ := Option.map_eq_some_iff.mp h
  cases h
  exact ⟨Steps.of_guarded hrun, hchain, hlevels⟩

/-- A B+Tree table with integers in its first column, none of them twice. -/
def UniqueInts (t : Table) : Prop :=
  t.schema.index_kind ≠ 1 ∧
    (∀ x ∈ heap_scan t.heap, index_entry 0 (x.1, x.2.row) ≠ none) ∧
      ∀ x ∈ heap_scan t.heap, ∀ y ∈ heap_scan t.heap, row_at x.2.row 0 = row_at y.2.row 0 → x = y

instance (t : Table) : Decidable (UniqueInts t) := inferInstanceAs (Decidable (_ ∧ _ ∧ _))

theorem UniqueInts.consistent {d : TxnState} {t : Table} (h : UniqueInts t) (hpk : PkOk t)
    (hix : t.has_index = true) : PkConsistent d t := by
  obtain ⟨hkind, hint, hunique⟩ := h
  refine hpk.consistent hix hkind (fun x hx _ s hs => ?_) fun x hx y hy _ _ key hxk hyk => ?_
  · refine hint x hx ?_
    unfold index_entry
    rw [hs]
  · exact hunique x hx y hy (hxk.trans hyk.symm)

/-- `LEFT JOIN u ON a = b` -/
def left_join : SelectStmt := select_joined [⟨true, "u", "", "", "a", "", "b"⟩]

theorem join_method_independent_left_join :
    ∃ x, joined two_tables left_join = some x ∧
      join_reference x.1.toTxnState [] x.2.2 = [[[.int 1], [.null]], [[.int 2], [.int 2]]] ∧
      ∀ method, MethodsApply x.2.2 method →
        (mjoin x.1.toTxnState (join_plan x.1.toTxnState left_join x.2.2 method)).emitted.Perm
          (join_reference x.1.toTxnState [] x.2.2) := by
  have hall : (joined two_tables left_join).map (fun x =>
      ((decide (∀ l ∈ x.2.2, UniqueInts l.tab), (exec_select_join x.1 left_join).ok),
        decide (¬ RefersLater x.2.2 ∧ WithinBound x.1.toTxnState left_join x.2.2),
        join_reference x.1.toTxnState [] x.2.2)) =
      some ((true, true), true, [[[.int 1], [.null]], [[.int 2], [.int 2]]]) := by
    decide +kernel
  obtain ⟨⟨db, chain, levels⟩, hx, heq⟩ := Option.map_eq_some_iff.mp hall
  obtain ⟨⟨hunique, hok⟩, hcond, href⟩ : (_ ∧ _) ∧ _ ∧ _ := by simpa only [Prod.mk.injEq] using heq
  obtain ⟨hrun, hchain, hlevels⟩ := joined_steps hx
  have hpk := pk_ok_in_run (fun t ht => by cases ht) hrun
  refine ⟨(db, chain, levels), hx, href, ?_⟩
  refine ((join_method_independent db left_join chain levels hchain hlevels (fun l hl hix => ?_)
    hok).mpr (of_decide_eq_true hcond)).2
  exact (of_decide_eq_true hunique l hl).consistent (hpk _ (join_levels_mem hchain hlevels l hl)) hix

/-- `SELECT * FROM t JOIN u ON a = d JOIN v ON b = d`, where `d` is in `v`. -/
def join_later : SelectStmt :=
  select_joined [⟨false, "u", "", "", "a", "", "d"⟩, ⟨false, "v", "", "", "b", "", "d"⟩]

/-- `SELECT * FROM t JOIN w ON a = c LIMIT 1` -/
def join_limit : SelectStmt := { select_joined [⟨false, "w", "", "", "a", "", "c"⟩] with limit := 1 }

def three_tables : List Statement :=
  two_tables ++ [.create ⟨"v", [int_column "d"], 0⟩, .insert "v" [.int 2],
    .create ⟨"w", [int_column "k", int_column "c"], 0⟩,
    .insert "w" [.int 5, .int 1], .insert "w" [.int 6, .int 1]]

/-- A reference to a later table is looked up in a slot that is not filled yet:
    there is no error, and the tuple of the rows 2 is lost.  With a LIMIT the
    hash table, which has the last row first, gives another tuple than a scan. -/
theorem join_depends_on_method :
    (joined three_tables join_later).map (fun x =>
        ((decide (RefersLater x.2.2), (exec_select_join x.1 join_later).ok),
          (mjoin x.1.toTxnState
            (join_plan x.1.toTxnState join_later x.2.2 (join_methods x.2.2))).emitted)) =
        some ((true, true), []) ∧
      (joined three_tables join_limit).map (fun x =>
        (decide (RefersLater x.2.2),
          (mjoin x.1.toTxnState (join_plan x.1.toTxnState join_limit x.2.2 fun _ => .JM_HASH)).emitted,
          (mjoin x.1.toTxnState (join_plan x.1.toTxnState join_limit x.2.2 fun _ => .JM_SCAN)).emitted)) =
        some (false, [[[.int 1], [.int 6, .int 1]]], [[[.int 1], [.int 5, .int 1]]]) := by
  constructor <;> decide +kernel

end MiniDb
