import MiniDb.Db.BTreeRow

/-! # Seeks and point searches

  `btree_seek_scan` and `btree_search` go right of equal separators.  Both are
  right about a key exactly if no pair with the key stands left of a separator
  equal to it.  Unique insertion keeps it so for every key: the tree is then a
  finite map. -/

namespace MiniDb

open List Function Option

/-- The first pair with the key in the leaf that the descent comes to. -/
def btree_search (bt : BTNode) (key : Int) : Option Int :=
  ((bt.leaf_at fun k => k ≤ key).find? (·.1 = key)).map Prod.snd

/-- What a point search may answer about the pairs `es`. -/
def FoundIn (es : List (Int × Int)) (key : Int) (r : Option Int) : Prop :=
  (∀ v, r = some v → (key, v) ∈ es) ∧ (r = none → ∀ v, (key, v) ∉ es)

section Reads

variable {bt : BTNode} {s : Int}

/-- A seek is right about its start exactly if the start is separated. -/
theorem BTNode.Valid.seek_scan_iff (h : bt.Valid) (s : Int) :
    btree_seek_scan bt s = bt.entries.filter (fun e => decide (s ≤ e.1)) ↔ Separated s bt.row := by
  obtain ⟨pre, post, hreach, hseek⟩ := BTNode.Ok.reached (downward_le s) h
  have hsort := h.row.1
  have hentries : bt.entries = pairs pre ++ (bt.seek fun k => k ≤ s) := by
    rw [← pairs_row, hreach.row_eq, pairs_append, pairs_append, pairs_entries, hseek]
  have hsame : btree_seek_scan bt s = (bt.seek fun k => k ≤ s).filter fun e => decide (s ≤ e.1) := by
    unfold btree_seek_scan
    refine filter_congr fun e _ => ?_
    rw [← decide_not]
    exact decide_eq_decide.mpr Int.not_lt
  rw [hsame, hentries, filter_append, self_eq_append_left, filter_eq_nil_iff,
    hreach.separated_iff hsort]
  constructor
  · intro hnone m hm
    refine Bool.eq_false_iff.mpr fun hholds => ?_
    obtain ⟨v, rfl⟩ := holds_iff.mp hholds
    exact hnone (s, v) (mem_pairs.mpr hm) (decide_eq_true (Int.le_refl s))
  · intro hpre e he hle
    have hm := mem_pairs.mp he
    have heq : e.1 = s := Int.le_antisymm (hreach.pre_le hsort _ hm) (of_decide_eq_true hle)
    exact absurd ((hpre _ hm).symm.trans (decide_eq_true heq)) nofun

/-- A separated key is found if it is there. -/
theorem BTNode.Valid.search (h : bt.Valid) (hsep : Separated s bt.row) :
    FoundIn bt.entries s (btree_search bt s) := by
  obtain ⟨pre, post, hreach, -⟩ := BTNode.Ok.reached (downward_le s) h
  have hsort := h.row.1
  have hmem : ∀ v, (s, v) ∈ bt.entries ↔ (s, v) ∈ bt.leaf_at fun k => k ≤ s := by
    intro v
    rw [← pairs_row, hreach.row_eq, pairs_append, pairs_append, pairs_entries, mem_append,
      mem_append]
    constructor
    · rintro (hpre | hleaf | hpost)
      · have hnot := (hreach.separated_iff hsort).mp hsep _ (mem_pairs.mp hpre)
        exact absurd (hnot.symm.trans (decide_eq_true rfl)) nofun
      · exact hleaf
      · exact absurd (hreach.post_gt hsort _ (mem_pairs.mp hpost)) (Int.lt_irrefl s)
    · exact fun hleaf => .inr (.inl hleaf)
  unfold btree_search
  cases hfind : (bt.leaf_at fun k => k ≤ s).find? (·.1 = s) with
  | none =>
    refine ⟨nofun, fun _ v hv => ?_⟩
    exact absurd (decide_eq_true rfl) (List.find?_eq_none.mp hfind _ ((hmem v).mp hv))
  | some e =>
    obtain ⟨k, v⟩ := e
    have hk : k = s := by simpa using List.find?_some hfind
    subst hk
    refine ⟨fun v' hv' => ?_, nofun⟩
    obtain rfl : v = v' := some.inj hv'
    exact (hmem v).mpr (mem_of_find?_eq_some hfind)

end Reads

/-! ### What an insertion does to the row -/

/-- At most one more separator, in front of an entry with its key. -/
inductive Cut : List Mark → List Mark → Prop where
  | same (row : List Mark) : Cut row row
  | sep (A : List Mark) (e : Int × Int) (B : List Mark) :
      Cut (A ++ .entry e :: B) (A ++ .sep e.1 :: .entry e :: B)

section Cut

variable {row row' : List Mark} {s : Int}

theorem Cut.pairs (h : Cut row row') : pairs row' = pairs row := by
  cases h with
  | same => rfl
  | sep A e B =>
    rw [pairs_append, pairs_append]
    rfl

theorem Cut.around (h : Cut row row') (pre post : List Mark) :
    Cut (pre ++ (row ++ post)) (pre ++ (row' ++ post)) := by
  cases h with
  | same => exact .same _
  | sep A e B =>
    have hcut := Cut.sep (pre ++ A) e (B ++ post)
    simpa using hcut

/-- The entry behind the new separator was there to begin with. -/
theorem Cut.tight (h : Cut row row') (ht : Tight s row) : Tight s row' := by
  cases h with
  | same => exact ht
  | sep A e B =>
    obtain ⟨hA, hB, hcross⟩ := pairwise_append.mp ht
    refine pairwise_append.mpr ⟨hA, pairwise_cons.mpr ⟨nofun, hB⟩, fun a ha b hb => ?_⟩
    rcases mem_cons.mp hb with rfl | hb
    · exact hcross a ha (.entry e) mem_cons_self
    · exact hcross a ha b hb

theorem leaf_split_cut (es : List (Int × Int)) : Cut (es.map .entry) (split_row (leaf_split es)) := by
  unfold leaf_split
  split
  · rw [split_row, BTNode.row]
    exact .same _
  next hfull =>
  have hlt : es.length / 2 < es.length := by
    unfold BT_MAX_KEYS at hfull
    omega
  have hget : es[es.length / 2]? = some es[es.length / 2] := List.getElem?_eq_getElem hlt
  have hdrop : es.drop (es.length / 2) = es[es.length / 2] :: es.drop (es.length / 2 + 1) :=
    drop_eq_getElem_cons hlt
  have hcut := Cut.sep ((es.take (es.length / 2)).map .entry) es[es.length / 2]
    ((es.drop (es.length / 2 + 1)).map .entry)
  rw [← map_cons, ← hdrop, ← map_append, take_append_drop] at hcut
  dsimp only
  rw [split_row, BTNode.row, BTNode.row, hget]
  exact hcut

end Cut

/-- The row around the entry that an insertion writes: `old` is the entry it
    takes the place of, if there is one. -/
structure Put (bt : BTNode) (key val : Int) (dup : Bool) (A old B : List Mark) : Prop where
  row_eq : bt.row = A ++ (old ++ B)
  cut : Cut (A ++ .entry (key, val) :: B) (insert_root bt key val dup).row
  old : old = [] ∨ ∃ v, old = [.entry (key, v)]
  before : Separated key bt.row → ∀ m ∈ A, m.holds key = false
  after : (dup = false ∧ Tight key bt.row ∨ ∀ v, (key, v) ∉ bt.entries) → ∀ m ∈ B, m.key ≠ key

theorem BTNode.Valid.put {bt : BTNode} (h : bt.Valid) (key val : Int) (dup : Bool) :
    ∃ A old B, Put bt key val dup A old B := by
  obtain ⟨pre, post, hreach, hrow⟩ := BTNode.Ok.insert_row key val dup h nofun nofun
  have hsort := h.row.1
  have hpost := hreach.post_gt hsort
  rw [← insert_root_row] at hrow
  generalize (bt.leaf_at fun k => k ≤ key) = es at hreach hrow
  have hrow_eq := hreach.row_eq
  have hasc : Ascending es := by
    rw [hrow_eq] at hsort
    have hleaf := (pairwise_append.mp (pairwise_append.mp hsort).2.1).1
    rwa [pairwise_map] at hleaf
  obtain ⟨hlt, hge, -, hasc'⟩ := hasc.around key
  have hsplit : es.takeWhile (·.1 < key) ++ es.dropWhile (·.1 < key) = es :=
    takeWhile_append_dropWhile
  have hmem : ∀ e ∈ es, e ∈ bt.entries := by
    intro e he
    rw [← pairs_row, hrow_eq, mem_pairs]
    exact mem_append_right _ (mem_append_left _ (mem_map_of_mem he))
  have hbefore : Separated key bt.row →
      ∀ m ∈ pre ++ (es.takeWhile (·.1 < key)).map Mark.entry, m.holds key = false := by
    intro hsep m hm
    rcases mem_append.mp hm with hm | hm
    · exact (hreach.separated_iff hsort).mp hsep m hm
    · obtain ⟨e, he, rfl⟩ := mem_map.mp hm
      exact decide_eq_false (Int.ne_of_lt (hlt e he))
  unfold leaf_insert at hrow
  dsimp only at hrow
  generalize es.takeWhile (·.1 < key) = before at *
  generalize es.dropWhile (·.1 < key) = after at *
  split at hrow
  · next hsame =>
    -- the value of an equal key is replaced
    rw [Bool.and_eq_true, Bool.not_eq_true'] at hsame
    cases after with
    | nil => simp at hsame
    | cons x xs =>
      obtain ⟨k, v⟩ := x
      obtain rfl : k = key := by simpa using hsame.2
      refine ⟨pre ++ before.map .entry, [.entry (k, v)], xs.map .entry ++ post, ?_, ?_,
        .inr ⟨v, rfl⟩, hbefore, ?_⟩
      · rw [hrow_eq, ← hsplit]
        simp
      · rw [hrow, split_row, BTNode.row]
        have hcut := Cut.same (pre ++ ((before ++ (k, val) :: xs).map Mark.entry ++ post))
        simpa using hcut
      · intro hcond m hm
        rcases mem_append.mp hm with hm | hm
        · obtain ⟨e, he, rfl⟩ := mem_map.mp hm
          rcases hcond with ⟨-, htight⟩ | habsent
          · rw [hrow_eq, ← hsplit, map_append, map_cons] at htight
            have hleaf := (pairwise_append.mp (pairwise_append.mp htight).2.1).1
            exact (pairwise_cons.mp (pairwise_append.mp hleaf).2.1).1 _
              (mem_map_of_mem he) (decide_eq_true rfl)
          · exact fun heq => habsent v (hmem _ (by rw [← hsplit]; simp))
        · exact Int.ne_of_gt (hpost m hm)
  · next hnew =>
    refine ⟨pre ++ before.map .entry, [], after.map .entry ++ post, ?_, ?_, .inl rfl, hbefore, ?_⟩
    · rw [hrow_eq, ← hsplit]
      simp
    · rw [hrow]
      have hcut := (leaf_split_cut (before ++ (key, val) :: after)).around pre post
      simpa using hcut
    · intro hcond m hm
      rcases mem_append.mp hm with hm | hm
      · obtain ⟨e, he, rfl⟩ := mem_map.mp hm
        intro heq
        rcases hcond with ⟨rfl, -⟩ | habsent
        · cases after with
          | nil => cases he
          | cons x xs =>
            -- the first of the larger or equal keys is not equal
            have hx : x.1 ≠ key := fun hx => hnew (by simp [hx])
            have hxe : x.1 ≤ e.1 := by
              rcases mem_cons.mp he with rfl | he
              · exact Int.le_refl _
              · exact (pairwise_cons.mp hasc').1 e he
            exact hx (Int.le_antisymm (hxe.trans_eq heq) (hge x mem_cons_self))
        · exact habsent e.2 (hmem _ (by rw [← hsplit]; simpa [← heq] using .inr he))
      · exact Int.ne_of_gt (hpost m hm)

section Insert

variable {bt : BTNode} {s key : Int}

/-- A key stays tight if it is inserted uniquely or where it is absent. -/
theorem BTNode.Valid.insert_tight (h : bt.Valid) (htight : Tight s bt.row) (val : Int) {dup : Bool}
    (honce : key = s → dup = false ∨ ∀ v, (key, v) ∉ bt.entries) :
    Tight s (MiniDb.insert_root bt key val dup).row := by
  obtain ⟨A, old, B, hput⟩ := h.put key val dup
  have hrest : Tight s (A ++ B) := by
    refine List.Pairwise.sublist ?_ htight
    rw [hput.row_eq]
    exact (List.Sublist.refl A).append (sublist_append_right old B)
  obtain ⟨hA, hB, hcross⟩ := pairwise_append.mp hrest
  refine hput.cut.tight (pairwise_append.mpr
    ⟨hA, pairwise_cons.mpr ⟨fun b hb hkey => ?_, hB⟩, fun a ha b hb hholds => ?_⟩)
  · obtain rfl : key = s := of_decide_eq_true hkey
    exact hput.after ((honce rfl).imp_left fun hdup => ⟨hdup, htight⟩) b hb
  · rcases mem_cons.mp hb with rfl | hb
    · rintro rfl
      exact absurd ((hput.before htight.separated a ha).symm.trans hholds) nofun
    · exact hcross a ha b hb hholds

/-- Unique insertion binds its key and leaves the others alone. -/
theorem BTNode.Valid.mem_insert (h : bt.Valid) (htight : Tight key bt.row) (val k v : Int) :
    (k, v) ∈ (MiniDb.insert_root bt key val false).entries ↔
      if k = key then v = val else (k, v) ∈ bt.entries := by
  obtain ⟨A, old, B, hput⟩ := h.put key val false
  have hA := hput.before htight.separated
  have hB := hput.after (.inl ⟨rfl, htight⟩)
  rw [← pairs_row, ← pairs_row bt, mem_pairs.trans mem_pairs.symm, hput.cut.pairs, mem_pairs, mem_pairs,
    hput.row_eq]
  simp only [mem_append, mem_cons]
  by_cases hk : k = key
  · subst hk
    rw [if_pos rfl]
    constructor
    · rintro (hmem | heq | hmem)
      · exact absurd ((hA _ hmem).symm.trans (decide_eq_true rfl)) nofun
      · exact congrArg Prod.snd (Mark.entry.inj heq)
      · exact absurd rfl (hB _ hmem)
    · rintro rfl
      exact .inr (.inl rfl)
  · rw [if_neg hk]
    refine or_congr_right (or_congr_left (iff_of_false ?_ ?_))
    · exact fun heq => hk (congrArg Prod.fst (Mark.entry.inj heq))
    · rcases hput.old with rfl | ⟨v', rfl⟩
      · exact not_mem_nil
      · exact fun hmem => hk (congrArg Prod.fst (Mark.entry.inj (mem_singleton.mp hmem)))

theorem delete_tight (bt : BTNode) (key val : Int) (htight : Tight s bt.row) :
    Tight s (btree_delete_val bt key val).row :=
  List.Pairwise.sublist (node_delete_sublist key val true bt) htight

/-- Where every key is tight, the keys increase. -/
theorem BTNode.Valid.strict (h : bt.Valid) (htight : ∀ s, Tight s bt.row) :
    bt.entries.Pairwise fun e e' => e.1 < e'.1 := by
  rw [← pairs_row]
  refine pairwise_filterMap.mpr (pairwise_iff_forall_sublist.mpr fun {a b} hab => ?_)
  intro e he e' he'
  have hle := pairwise_iff_forall_sublist.mp h.row.1 hab
  have hne := pairwise_iff_forall_sublist.mp (htight e.1) hab
  cases a with
  | sep k => cases he
  | entry a =>
    cases b with
    | sep k => cases he'
    | entry b =>
      obtain rfl := some.inj he
      obtain rfl := some.inj he'
      exact Int.lt_iff_le_and_ne.mpr ⟨hle, fun heq => hne (decide_eq_true rfl) heq.symm⟩

end Insert

/-! ### In the pages -/

namespace Paged

/-- Unique insertion: the value of an equal key is replaced. -/
def btree_insert (bt : BTree) (key val : Int) : Option BTree := insert_root bt key val false

def btree_search (bt : BTree) (key : Int) : Option (Option Int) :=
  (descend (fun k => k ≤ key) bt.pages bt.pages.length bt.root).bind fun pid =>
    match bt.pages[pid]? with
    | some (.leaf es _) => some ((es.find? (·.1 = key)).map Prod.snd)
    | _ => none

/-- Smaller keys are skipped in every leaf. -/
def seek_chain (start : Int) (pages : List BTPage) : Nat → Nat → Option (List (Int × Int))
  | fuel, pid =>
    if pid = 0 then some []
    else
      match fuel with
      | 0 => none
      | fuel + 1 =>
        match pages[pid]? with
        | some (.leaf es next) =>
          (seek_chain start pages fuel next).map (es.filter (fun e => !decide (e.1 < start)) ++ ·)
        | _ => none

def btree_seek_scan (bt : BTree) (start : Int) : Option (List (Int × Int)) :=
  (descend (fun k => k ≤ start) bt.pages bt.pages.length bt.root).bind
    (seek_chain start bt.pages bt.pages.length)

/-- The file is closed and opened again: the root comes from the meta page. -/
def btree_reopen (bt : BTree) : Option BTree :=
  match (bt.pages[0]? : Option BTPage) with
  | some (.info root) => some ⟨bt.pages, root⟩
  | _ => none

section Reads

variable {bt : BTree} {t : BTNode} {d first : Nat} {ids : List Nat} {pages : List BTPage}
  (right : Int → Bool)

theorem seek_chain_eq (start : Int) (pages : List BTPage) (fuel pid : Nat) :
    seek_chain start pages fuel pid =
      (scan_chain pages fuel pid).map (·.filter fun e => !decide (e.1 < start)) := by
  induction fuel generalizing pid with
  | zero =>
    unfold seek_chain scan_chain
    split <;> rfl
  | succ fuel ih =>
    unfold seek_chain scan_chain
    split
    · rfl
    dsimp only
    rcases pages[pid]? with _ | _ | ⟨es, next⟩ | _
    · rfl
    · rfl
    · dsimp only
      rw [ih]
      cases scan_chain pages fuel next with
      | none => rfl
      | some r => simp
    · rfl

theorem chain_leaf_at_eq {cs : List BTNode} {i : Nat} {c : BTNode}
    (hc : cs[i]? = some c) : chain_leaf_at right cs i = c.leaf_at right := by
  induction cs generalizing i with
  | nil => cases hc
  | cons c₀ cs ih =>
    cases i with
    | zero =>
      cases hc
      rw [chain_leaf_at]
    | succ i =>
      rw [chain_leaf_at]
      exact ih hc

/-- A descent comes to the page of the leaf that the tree has there. -/
theorem Repr.leaf_at {d pid first next fuel : Nat} {n : BTNode} {ids : List Nat}
    {lo hi : Option Int} (h : Repr pages d n pid first next ids) (hok : n.Ok lo hi)
    (hfuel : d < fuel) :
    ∃ leaf next', descend right pages fuel pid = some leaf ∧
      pages[leaf]? = some (.leaf (n.leaf_at right) next') := by
  induction d generalizing n pid first next ids lo hi fuel with
  | zero =>
    obtain ⟨fuel, rfl⟩ := Nat.exists_eq_succ_of_ne_zero (Nat.ne_of_gt hfuel)
    cases h with
    | leaf hpage =>
      refine ⟨pid, next, ?_, hpage⟩
      unfold descend
      rw [hpage]
  | succ d ih =>
    obtain ⟨fuel, rfl⟩ : ∃ f, fuel = f + 1 := ⟨fuel - 1, by omega⟩
    cases h with
    | @node _ _ _ _ keys cs cids ids hpage hchain =>
      obtain ⟨c, hc, lo', hi', hcok⟩ := chain_ok_getElem (show ChainOk cs lo keys hi from hok) right
      obtain ⟨cid, m₁, m₂, ids₁, ids₂, ids₃, hcid, -, -, hchild, -⟩ := hchain.around hc
      obtain ⟨leaf, next', hdesc, hleaf⟩ := ih hchild hcok (Nat.lt_of_succ_lt_succ hfuel)
      refine ⟨leaf, next', ?_, ?_⟩
      · unfold descend
        rw [hpage]
        dsimp only
        rw [hcid]
        exact hdesc
      · rw [BTNode.leaf_at, chain_leaf_at_eq right hc]
        exact hleaf

variable (h : bt.Holds t d first ids)

include h

theorem BTree.Holds.search (key : Int) :
    btree_search bt key = some (MiniDb.btree_search t key) := by
  obtain ⟨leaf, next', hdesc, hpage⟩ := h.repr.leaf_at (fun k => k ≤ key) h.valid h.depth_lt
  unfold btree_search
  rw [hdesc, bind_some, hpage]
  rfl

theorem BTree.Holds.seek_scan (start : Int) :
    btree_seek_scan bt start = some (MiniDb.btree_seek_scan t start) := by
  obtain ⟨leaf, hdesc, hread⟩ := h.read fun k => k ≤ start
  unfold btree_seek_scan
  rw [hdesc, bind_some, seek_chain_eq, hread]
  rfl

theorem BTree.Holds.reopen : btree_reopen bt = some bt := by
  unfold btree_reopen
  rw [h.info]

end Reads

/-! ### Sequences of calls -/

open Framework

inductive BTOp where
  | insert (key val : Int)
  | insert_dup (key val : Int)
  | delete_val (key val : Int)
  | reopen
  deriving DecidableEq

def BTree.op (bt : BTree) : BTOp → Option BTree
  | .insert key val => btree_insert bt key val
  | .insert_dup key val => btree_insert_dup bt key val
  | .delete_val key val => (btree_delete_val bt key val).map Prod.fst
  | .reopen => btree_reopen bt

/-- The tree that the file stands for after a call. -/
def tree_after (t : BTNode) : BTOp → BTNode
  | .insert key val => MiniDb.insert_root t key val false
  | .insert_dup key val => MiniDb.btree_insert_dup t key val
  | .delete_val key val => MiniDb.btree_delete_val t key val
  | .reopen => t

variable {t : BTNode} {m : Int → Option Int}

theorem BTree.Holds.op {bt : BTree} {d first : Nat} {ids : List Nat}
    (h : bt.Holds t d first ids) (o : BTOp) :
    ∃ bt' d' ids', bt.op o = some bt' ∧ bt'.Holds (tree_after t o) d' first ids' := by
  cases o with
  | insert key val => exact h.insert_root key val false
  | insert_dup key val => exact h.insert_root key val true
  | delete_val key val =>
    obtain ⟨bt', found, hcall, hbt', -⟩ := h.delete_val key val
    refine ⟨bt', d, ids, ?_, hbt'⟩
    show (btree_delete_val bt key val).map Prod.fst = some bt'
    rw [hcall]
    rfl
  | reopen => exact ⟨bt, d, ids, h.reopen, h⟩

theorem BTree.Holds.run {bt : BTree} {d first : Nat} {ids : List Nat}
    (h : bt.Holds t d first ids) (ops : List BTOp) :
    ∃ bt' d' ids', run BTree.op bt ops = some bt' ∧ bt'.Holds (ops.foldl tree_after t) d' first ids' := by
  induction ops generalizing bt t d ids with
  | nil => exact ⟨bt, d, ids, rfl, h⟩
  | cons o ops ih =>
    obtain ⟨bt₁, d₁, ids₁, hop, h₁⟩ := h.op o
    obtain ⟨bt', d', ids', hrun, h'⟩ := ih h₁
    refine ⟨bt', d', ids', ?_, h'⟩
    rw [Framework.run, hop]
    exact hrun

theorem btree_open_holds : btree_open.Holds btree_empty 0 1 [1] :=
  ⟨.leaf rfl, btree_empty_valid, nodup_singleton 1, by simp, rfl⟩

/-- The seek from `s` and the search for `s` agree with a scan of all pairs. -/
def ReadsRight (bt : BTree) (s : Int) : Prop :=
  ∃ es, btree_scan bt = some es ∧
    btree_seek_scan bt s = some (es.filter fun e => decide (s ≤ e.1)) ∧
    ∃ r, btree_search bt s = some r ∧ FoundIn es s r

/-- After any calls, seek and search are right about `s` exactly if no pair with
    this key is left of a separator equal to it. -/
theorem reads_right_iff (ops : List BTOp) (s : Int) :
    ∃ bt, run BTree.op btree_open ops = some bt ∧
      (ReadsRight bt s ↔ Separated s (ops.foldl tree_after btree_empty).row) := by
  obtain ⟨bt, d, ids, hrun, hbt⟩ := btree_open_holds.run ops
  refine ⟨bt, hrun, fun ⟨es, hscan, hseek, _⟩ => ?_, fun hsep => ?_⟩
  · obtain rfl := mem_unique hscan hbt.scan
    rw [hbt.seek_scan] at hseek
    exact (hbt.valid.seek_scan_iff s).mp (some.inj hseek)
  · refine ⟨_, hbt.scan, ?_, _, hbt.search s, hbt.valid.search hsep⟩
    rw [hbt.seek_scan, (hbt.valid.seek_scan_iff s).mpr hsep]

/-- Nine pairs with key 1 fill two leaves, and those of the right one go again. -/
def nine_then_four : List BTOp :=
  (List.range 9).map (fun v => .insert_dup 1 v) ++ (List.range 5).map fun v => .delete_val 1 v

/-- Four pairs with the key are left, and neither the seek nor the search finds one. -/
theorem four_pairs_unseen :
    ¬ ∀ ops bt s, run BTree.op btree_open ops = some bt → ReadsRight bt s := by
  intro h
  have hrun : (run BTree.op btree_open nine_then_four).any (fun bt =>
      btree_scan bt = some [(1, 8), (1, 7), (1, 6), (1, 5)] ∧ btree_seek_scan bt 1 = some [] ∧
        btree_search bt 1 = some none) = true := by decide +kernel
  obtain ⟨bt, hbt, hreads⟩ := (any_eq_true _ _).1 hrun
  obtain ⟨hscan, hseek, -⟩ := of_decide_eq_true hreads
  obtain ⟨es, hscan', hseek', -⟩ := h nine_then_four bt 1 hbt
  obtain rfl := mem_unique hscan' hscan
  exact absurd (hseek'.symm.trans hseek) (by decide)

/-! ### Unique insertion makes a map -/

/-- A key stays tight as long as it is inserted uniquely or where it is absent. -/
theorem tight_after {s : Int} (h : t.Valid) (htight : Tight s t.row) (o : BTOp)
    (honce : ∀ v, o = .insert_dup s v → ∀ v', (s, v') ∉ t.entries) : Tight s (tree_after t o).row := by
  cases o with
  | insert key val => exact h.insert_tight htight val fun _ => .inl rfl
  | insert_dup key val =>
    refine h.insert_tight htight val fun hkey => .inr ?_
    subst hkey
    exact honce val rfl
  | delete_val key val => exact delete_tight t key val htight
  | reopen => exact htight

/-- The calls of a client that inserts uniquely. -/
inductive MapOp where
  | insert (key val : Int)
  | delete_val (key val : Int)
  | reopen
  deriving DecidableEq

def MapOp.op : MapOp → BTOp
  | .insert key val => .insert key val
  | .delete_val key val => .delete_val key val
  | .reopen => .reopen

/-- What the calls mean for a finite map. -/
def map_after (m : Int → Option Int) : MapOp → Int → Option Int
  | .insert key val => Function.update m key (some val)
  | .delete_val key val => if m key = some val then Function.update m key none else m
  | .reopen => m

/-- The tree holds the pairs of the map, each key once. -/
structure Maps (t : BTNode) (m : Int → Option Int) : Prop where
  valid : t.Valid
  tight : ∀ s, Tight s t.row
  mem : ∀ k v, (k, v) ∈ t.entries ↔ m k = some v

theorem Maps.step (h : Maps t m) (o : MapOp) :
    Maps (tree_after t o.op) (map_after m o) := by
  have htight : ∀ s, Tight s (tree_after t o.op).row := by
    refine fun s => tight_after h.valid (h.tight s) o.op fun v hv => ?_
    cases o <;> cases hv
  cases o with
  | insert key val =>
    refine ⟨(h.valid.insert_root key val false).1, htight, fun k v => ?_⟩
    refine (h.valid.mem_insert (h.tight key) val k v).trans ?_
    by_cases hk : k = key
    · subst hk
      rw [if_pos rfl, map_after, update_self, some_inj]
      exact eq_comm
    · rw [if_neg hk, map_after, update_of_ne hk]
      exact h.mem k v
  | delete_val key val =>
    obtain ⟨hvalid, hperm⟩ := h.valid.delete_val key val
    have hnodup : t.entries.Nodup := (h.valid.strict h.tight).imp fun hlt heq => by
      rw [heq] at hlt
      exact Int.lt_irrefl _ hlt
    refine ⟨hvalid, htight, fun k v => ?_⟩
    refine (hperm.mem_iff.trans (hnodup.mem_erase_iff)).trans ?_
    rw [h.mem, map_after]
    by_cases hk : k = key
    · subst hk
      split
      · next hval =>
        rw [update_self, hval]
        simp [eq_comm]
      · next hval =>
        exact and_iff_right_of_imp fun hv heq =>
          hval (hv.trans (congrArg (fun e => some e.2) heq))
    · have hne : (k, v) ≠ (key, val) := fun heq => hk (congrArg Prod.fst heq)
      split
      · rw [update_of_ne hk]
        exact and_iff_right hne
      · exact and_iff_right hne
  | reopen => exact h

theorem Maps.run (h : Maps t m) (ops : List MapOp) :
    Maps ((ops.map MapOp.op).foldl tree_after t) (ops.foldl map_after m) := by
  induction ops generalizing t m with
  | nil => exact h
  | cons o ops ih => exact ih (h.step o)

theorem found_eq {es : List (Int × Int)} {key : Int} {r : Option Int}
    (h : FoundIn es key r) (hm : ∀ v, (key, v) ∈ es ↔ m key = some v) : r = m key := by
  cases r with
  | some v => exact ((hm v).mp (h.1 v rfl)).symm
  | none => exact (eq_none_iff_forall_ne_some.2 fun v hv => h.2 rfl v ((hm v).mpr hv)).symm

/-- A file that was written by unique insertions and deletions is a finite map,
    also after it was closed and opened again. -/
theorem btree_refines_map (ops : List MapOp) :
    ∃ bt, run BTree.op btree_open (ops.map MapOp.op) = some bt ∧
      (∀ k, btree_search bt k = some (ops.foldl map_after (fun _ => none) k)) ∧
      (∃ es, btree_scan bt = some es ∧ (es.Pairwise fun e e' => e.1 < e'.1) ∧
        ∀ k v, (k, v) ∈ es ↔ ops.foldl map_after (fun _ => none) k = some v) ∧
      ∀ k v, ∃ bt', btree_delete_val bt k v =
        some (bt', decide (ops.foldl map_after (fun _ => none) k = some v)) := by
  obtain ⟨bt, d, ids, hrun, hbt⟩ := btree_open_holds.run (ops.map MapOp.op)
  have hempty : Maps btree_empty fun _ => none :=
    ⟨btree_empty_valid, fun _ => List.Pairwise.nil, fun _ _ => iff_of_false not_mem_nil nofun⟩
  have hmaps := hempty.run ops
  refine ⟨bt, hrun, fun k => ?_, ⟨_, hbt.scan, hmaps.valid.strict hmaps.tight, hmaps.mem⟩, fun k v => ?_⟩
  · rw [hbt.search, found_eq (hmaps.valid.search (hmaps.tight k).separated) (hmaps.mem k)]
  · obtain ⟨bt', found, hdel, -, hfound, -⟩ := hbt.delete_val k v
    have hiff : found = decide (ops.foldl map_after (fun _ => none) k = some v) := by
      rw [Bool.eq_iff_iff, hfound, hmaps.mem, decide_eq_true_eq]
    exact ⟨bt', hiff ▸ hdel⟩

end Paged

end MiniDb
