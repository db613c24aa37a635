import MiniDb.Db.BTreePages

/-! # A tree from left to right

  `row` lists the separators and entries of a tree in order.  Moving a
  separator up changes nothing in it, so an insertion writes into one leaf and
  adds at most one separator, the one that cuts this leaf.

  A descent to the right of equal separators comes to the entries behind the
  last separator that is at most the key.  Entries of that key in front of it
  are out of its sight. -/

namespace MiniDb

open List

inductive Mark where
  | sep (key : Int)
  | entry (e : Int × Int)
  deriving DecidableEq

def Mark.key : Mark → Int
  | .sep k => k
  | .entry e => e.1

/-- An entry of the key, not a separator. -/
def Mark.holds (s : Int) : Mark → Bool
  | .sep _ => false
  | .entry e => e.1 = s

def Mark.pair : Mark → Option (Int × Int)
  | .sep _ => none
  | .entry e => some e

def pairs (row : List Mark) : List (Int × Int) := row.filterMap Mark.pair

mutual

def BTNode.row : BTNode → List Mark
  | .leaf es => es.map .entry
  | .node keys children => chain_row children keys

def chain_row : List BTNode → List Int → List Mark
  | [], _ => []
  | c :: cs, [] => c.row ++ chain_row cs []
  | c :: cs, k :: ks => c.row ++ .sep k :: chain_row cs ks

end

section Pairs

theorem pairs_append (row row' : List Mark) : pairs (row ++ row') = pairs row ++ pairs row' :=
  filterMap_append

@[simp] theorem pairs_entries (es : List (Int × Int)) : pairs (es.map .entry) = es := by
  induction es with
  | nil => rfl
  | cons e es ih => exact congrArg (e :: ·) ih

theorem mem_pairs {row : List Mark} {e : Int × Int} : e ∈ pairs row ↔ .entry e ∈ row := by
  unfold pairs
  rw [mem_filterMap]
  constructor
  · rintro ⟨m, hm, he⟩
    cases m with
    | sep k => cases he
    | entry e' =>
      obtain rfl := Option.some.inj he
      exact hm
  · exact fun h => ⟨_, h, rfl⟩

mutual

theorem pairs_row : ∀ n : BTNode, pairs n.row = n.entries
  | .leaf es => by rw [BTNode.row, BTNode.entries, pairs_entries]
  | .node keys cs => by rw [BTNode.row, BTNode.entries, pairs_chain_row cs keys]

theorem pairs_chain_row : ∀ (cs : List BTNode) (ks : List Int),
    pairs (chain_row cs ks) = chain_entries cs
  | [], _ => by
    rw [chain_row, chain_entries]
    rfl
  | c :: cs, [] => by
    rw [chain_row, chain_entries, pairs_append, pairs_row c, pairs_chain_row cs []]
  | c :: cs, k :: ks => by
    rw [chain_row, chain_entries, pairs_append, pairs_row c, ← pairs_chain_row cs ks]
    rfl

end

end Pairs

/-! ### The row is ascending -/

def RowSorted (row : List Mark) : Prop := row.Pairwise fun a b => a.key ≤ b.key

def RowBetween (lo hi : Option Int) (row : List Mark) : Prop :=
  ∀ m ∈ row, AtLeast lo m.key ∧ AtMost hi m.key

mutual

theorem BTNode.Ok.row : ∀ {n : BTNode} {lo hi : Option Int}, n.Ok lo hi →
    RowSorted n.row ∧ RowBetween lo hi n.row
  | .leaf es, lo, hi, h => by
    unfold BTNode.Ok at h
    rw [BTNode.row]
    refine ⟨pairwise_map.mpr h.1, fun m hm => ?_⟩
    obtain ⟨e, he, rfl⟩ := mem_map.mp hm
    exact h.2 e he
  | .node keys cs, _, _, h => by
    unfold BTNode.Ok at h
    rw [BTNode.row]
    exact ChainOk.row h

theorem ChainOk.row : ∀ {cs : List BTNode} {lo hi : Option Int} {ks : List Int},
    ChainOk cs lo ks hi → RowSorted (chain_row cs ks) ∧ RowBetween lo hi (chain_row cs ks)
  | [], _, _, _, h => by
    unfold ChainOk at h
    exact h.elim
  | c :: cs, lo, hi, [], h => by
    unfold ChainOk at h
    obtain ⟨rfl, hc⟩ := h
    rw [chain_row, chain_row, append_nil]
    exact BTNode.Ok.row hc
  | c :: cs, lo, hi, k :: ks, h => by
    unfold ChainOk at h
    obtain ⟨hlo, hhi, hc, hcs⟩ := h
    obtain ⟨hsort, hbet⟩ := BTNode.Ok.row hc
    obtain ⟨hsort', hbet'⟩ := ChainOk.row hcs
    have hle : ∀ m ∈ c.row, m.key ≤ k := fun m hm => AtMost.some.mp (hbet m hm).2
    have hge : ∀ m ∈ chain_row cs ks, k ≤ m.key := fun m hm => AtLeast.some.mp (hbet' m hm).1
    rw [chain_row]
    refine ⟨pairwise_append.mpr ⟨hsort, pairwise_cons.mpr ⟨hge, hsort'⟩, ?_⟩, ?_⟩
    · intro a ha b hb
      rcases mem_cons.mp hb with rfl | hb
      · exact hle a ha
      · exact Int.le_trans (hle a ha) (hge b hb)
    · intro m hm
      rcases mem_append.mp hm with hm | hm
      · exact ⟨(hbet m hm).1, hhi.trans (hle m hm)⟩
      rcases mem_cons.mp hm with rfl | hm
      · exact ⟨hlo, hhi⟩
      · exact ⟨hlo.trans (hge m hm), (hbet' m hm).2⟩

end

/-! ### Where a descent comes out -/

mutual

/-- The leaf that a descent comes to. -/
def BTNode.leaf_at (right : Int → Bool) : BTNode → List (Int × Int)
  | .leaf es => es
  | .node keys children => chain_leaf_at right children (keys.takeWhile right).length

def chain_leaf_at (right : Int → Bool) : List BTNode → Nat → List (Int × Int)
  | [], _ => []
  | c :: _, 0 => c.leaf_at right
  | _ :: cs, i + 1 => chain_leaf_at right cs i

end

/-- The leaf `es` in a row, with the separators that the descent went right of
    before it and the others behind it. -/
structure Reached (right : Int → Bool) (row pre : List Mark) (es : List (Int × Int))
    (post : List Mark) : Prop where
  row_eq : row = pre ++ (es.map .entry ++ post)
  left : ∀ k, .sep k ∈ pre → right k = true
  right : ∀ k, .sep k ∈ post → right k = false
  last : pre = [] ∨ ∃ pre' k, pre = pre' ++ [.sep k]
  first : post = [] ∨ ∃ k post', post = .sep k :: post'

section Reached

variable {right : Int → Bool} {row pre post : List Mark} {es : List (Int × Int)}

theorem Reached.leaf (right : Int → Bool) (es : List (Int × Int)) :
    Reached right (es.map .entry) [] es [] :=
  ⟨by simp, nofun, nofun, .inl rfl, .inl rfl⟩

/-- The descent goes into this child. -/
theorem Reached.go_in (h : Reached right row pre es post) (hr : Downward right) {k : Int}
    (hk : right k = false) {rest : List Mark} (hrest : ∀ m ∈ rest, k ≤ m.key) :
    Reached right (row ++ .sep k :: rest) pre es (post ++ .sep k :: rest) where
  row_eq := by rw [h.row_eq]; simp
  __ := h
  right k' hmem := by
    rcases mem_append.mp hmem with hmem | hmem
    · exact h.right k' hmem
    rcases mem_cons.mp hmem with heq | hmem
    · obtain rfl := Mark.sep.inj heq
      exact hk
    · refine Bool.eq_false_iff.mpr fun hk' => ?_
      exact absurd ((hr k' k (hrest _ hmem) hk').symm.trans hk) nofun
  first := by
    rcases h.first with rfl | ⟨k', post', rfl⟩
    · exact .inr ⟨k, rest, rfl⟩
    · exact .inr ⟨k', _, rfl⟩

/-- The descent passes this child. -/
theorem Reached.go_on (h : Reached right row pre es post) (hr : Downward right) {k : Int}
    (hk : right k = true) {left : List Mark} (hleft : ∀ m ∈ left, m.key ≤ k) :
    Reached right (left ++ .sep k :: row) (left ++ .sep k :: pre) es post where
  row_eq := by rw [h.row_eq]; simp
  left k' hmem := by
    rcases mem_append.mp hmem with hmem | hmem
    · exact hr k k' (hleft _ hmem) hk
    rcases mem_cons.mp hmem with heq | hmem
    · obtain rfl := Mark.sep.inj heq
      exact hk
    · exact h.left k' hmem
  __ := h
  last := by
    rcases h.last with rfl | ⟨pre', k', rfl⟩
    · exact .inr ⟨left, k, rfl⟩
    · exact .inr ⟨left ++ .sep k :: pre', k', by simp⟩

mutual

theorem BTNode.Ok.reached (hr : Downward right) : ∀ {n : BTNode} {lo hi : Option Int}, n.Ok lo hi →
    ∃ pre post, Reached right n.row pre (n.leaf_at right) post ∧
      n.seek right = n.leaf_at right ++ pairs post
  | .leaf es, _, _, _ => by
    rw [BTNode.row, BTNode.leaf_at, BTNode.seek]
    exact ⟨[], [], .leaf right es, (append_nil es).symm⟩
  | .node keys cs, _, _, h => by
    unfold BTNode.Ok at h
    rw [BTNode.row, BTNode.leaf_at, BTNode.seek]
    exact ChainOk.reached hr h

theorem ChainOk.reached (hr : Downward right) : ∀ {cs : List BTNode} {lo hi : Option Int}
    {ks : List Int}, ChainOk cs lo ks hi →
    ∃ pre post, Reached right (chain_row cs ks) pre
        (chain_leaf_at right cs (ks.takeWhile right).length) post ∧
      chain_seek right cs (ks.takeWhile right).length =
        chain_leaf_at right cs (ks.takeWhile right).length ++ pairs post
  | [], _, _, _, h => by
    unfold ChainOk at h
    exact h.elim
  | c :: cs, lo, hi, [], h => by
    unfold ChainOk at h
    obtain ⟨rfl, hc⟩ := h
    rw [chain_row, chain_row, append_nil, takeWhile_nil, length_nil, chain_leaf_at,
      chain_seek, chain_entries, append_nil]
    exact BTNode.Ok.reached hr hc
  | c :: cs, lo, hi, k :: ks, h => by
    unfold ChainOk at h
    obtain ⟨-, -, hc, hcs⟩ := h
    rw [chain_row]
    by_cases hk : right k = true
    · obtain ⟨pre, post, hreach, hseek⟩ := ChainOk.reached hr hcs
      rw [takeWhile_cons_of_pos hk, length_cons, chain_leaf_at, chain_seek]
      exact ⟨_, post, hreach.go_on hr hk fun m hm => AtMost.some.mp (hc.row.2 m hm).2, hseek⟩
    · obtain ⟨pre, post, hreach, hseek⟩ := BTNode.Ok.reached hr hc
      rw [takeWhile_cons_of_neg hk, length_nil, chain_leaf_at, chain_seek]
      refine ⟨pre, _, hreach.go_in hr (Bool.eq_false_iff.mpr hk) fun m hm =>
        AtLeast.some.mp (hcs.row.2 m hm).1, ?_⟩
      rw [hseek, pairs_append, append_assoc]
      congr 2
      exact (pairs_chain_row cs ks).symm

end

end Reached

/-! ### Insertion writes into one leaf -/

/-- The row of a node that may have been split. -/
def split_row : BTNode × Option (Int × BTNode) → List Mark
  | (n, none) => n.row
  | (n, some (sep, r)) => n.row ++ .sep sep :: r.row

/-- A separator that moves up stays where it is in the row. -/
theorem chain_row_split {cs : List BTNode} {ks : List Int} {mid : Nat} {sep : Int}
    (hsep : ks[mid]? = some sep) (hlen : ks.length < cs.length) :
    chain_row cs ks = chain_row (cs.take (mid + 1)) (ks.take mid) ++
      .sep sep :: chain_row (cs.drop (mid + 1)) (ks.drop (mid + 1)) := by
  induction mid generalizing cs ks with
  | zero =>
    cases ks with
    | nil => cases hsep
    | cons k ks =>
      cases cs with
      | nil => cases hlen
      | cons c cs =>
        obtain rfl : k = sep := Option.some.inj hsep
        simp [chain_row]
  | succ mid ih =>
    cases ks with
    | nil => cases hsep
    | cons k ks =>
      cases cs with
      | nil => cases hlen
      | cons c cs =>
        rw [chain_row, ih hsep (Nat.lt_of_succ_lt_succ hlen)]
        simp [chain_row]

theorem node_split_row {ks : List Int} {cs : List BTNode} (hlen : ks.length < cs.length) :
    split_row (node_split ks cs) = chain_row cs ks := by
  unfold node_split
  split
  · rw [split_row, BTNode.row]
  next hfull =>
  have hlt : ks.length / 2 < ks.length := by
    unfold BT_MAX_KEYS at hfull
    omega
  have hget : ks[ks.length / 2]? = some ks[ks.length / 2] := List.getElem?_eq_getElem hlt
  dsimp only
  rw [split_row, BTNode.row, BTNode.row, hget, Option.getD_some]
  exact (chain_row_split hget hlen).symm

/-- What an insertion below `cs` makes of their row. -/
def child_insert_row (ks : List Int) (i : Nat) :
    List BTNode × Option (Int × BTNode) → List Mark
  | (cs, none) => chain_row cs ks
  | (cs, some (sep, r)) => chain_row (cs.insertIdx (i + 1) r) (ks.insertIdx i sep)

mutual

/-- The leaf at the end of the descent is replaced by what the insertion makes of it. -/
theorem BTNode.Ok.insert_row (key val : Int) (dup : Bool) :
    ∀ {n : BTNode} {lo hi : Option Int}, n.Ok lo hi → AtLeast lo key → AtMost hi key →
    ∃ pre post, Reached (fun k => k ≤ key) n.row pre (n.leaf_at fun k => k ≤ key) post ∧
      split_row (node_insert key val dup n) =
        pre ++ (split_row (leaf_insert (n.leaf_at fun k => k ≤ key) key val dup) ++ post)
  | .leaf es, _, _, _, _, _ => by
    rw [BTNode.row, BTNode.leaf_at, node_insert]
    exact ⟨[], [], .leaf _ es, by simp⟩
  | .node keys cs, lo, hi, h, hlo, hhi => by
    unfold BTNode.Ok at h
    obtain ⟨pre, post, hreach, hrow⟩ := ChainOk.insert_row key val dup h hlo hhi
    obtain ⟨es', -, hres⟩ := child_insert_ok key val dup h hlo hhi
    rw [BTNode.row, BTNode.leaf_at]
    refine ⟨pre, post, hreach, hrow ▸ ?_⟩
    unfold node_insert
    dsimp only
    generalize child_insert key val dup cs (keys.takeWhile (· ≤ key)).length = r at hres
    rcases r with ⟨cs', _ | ⟨sep, r⟩⟩
    · rw [split_row, BTNode.row, child_insert_row]
    · have hlen := Paged.chain_ok_length hres.1
      exact node_split_row (hlen ▸ Nat.lt_succ_self _)

theorem ChainOk.insert_row (key val : Int) (dup : Bool) : ∀ {cs : List BTNode} {lo hi : Option Int}
    {ks : List Int}, ChainOk cs lo ks hi → AtLeast lo key → AtMost hi key →
    ∃ pre post, Reached (fun k => k ≤ key) (chain_row cs ks) pre
        (chain_leaf_at (fun k => k ≤ key) cs (ks.takeWhile (· ≤ key)).length) post ∧
      child_insert_row ks (ks.takeWhile (· ≤ key)).length
          (child_insert key val dup cs (ks.takeWhile (· ≤ key)).length) =
        pre ++ (split_row (leaf_insert
          (chain_leaf_at (fun k => k ≤ key) cs (ks.takeWhile (· ≤ key)).length) key val dup) ++ post)
  | [], _, _, _, h, _, _ => by
    unfold ChainOk at h
    exact h.elim
  | c :: cs, lo, hi, [], h, hlo, hhi => by
    unfold ChainOk at h
    obtain ⟨rfl, hc⟩ := h
    obtain ⟨pre, post, hreach, hrow⟩ := BTNode.Ok.insert_row key val dup hc hlo hhi
    rw [chain_row, chain_row, append_nil, takeWhile_nil, length_nil, chain_leaf_at,
      child_insert]
    refine ⟨pre, post, hreach, hrow ▸ ?_⟩
    rcases node_insert key val dup c with ⟨c', _ | ⟨sep, r⟩⟩ <;>
      simp [child_insert_row, split_row, chain_row]
  | c :: cs, lo, hi, k :: ks, h, hlo, hhi => by
    unfold ChainOk at h
    obtain ⟨hk1, hk2, hc, hcs⟩ := h
    rw [chain_row]
    by_cases hk : k ≤ key
    · obtain ⟨pre, post, hreach, hrow⟩ :=
        ChainOk.insert_row key val dup hcs (AtLeast.some.mpr hk) hhi
      rw [takeWhile_cons_of_pos (by simpa using hk), length_cons, chain_leaf_at,
        child_insert]
      refine ⟨_, post, hreach.go_on (downward_le key) (decide_eq_true hk) fun m hm =>
        AtMost.some.mp (hc.row.2 m hm).2, ?_⟩
      rw [append_assoc, cons_append, ← hrow]
      rcases child_insert key val dup cs (ks.takeWhile (· ≤ key)).length with
        ⟨cs', _ | ⟨sep, r⟩⟩ <;> simp [child_insert_row, chain_row]
    · obtain ⟨pre, post, hreach, hrow⟩ :=
        BTNode.Ok.insert_row key val dup hc hlo (AtMost.some.mpr (by omega))
      rw [takeWhile_cons_of_neg (by simpa using hk), length_nil, chain_leaf_at,
        child_insert]
      refine ⟨pre, _, hreach.go_in (downward_le key) (decide_eq_false hk) fun m hm =>
        AtLeast.some.mp (hcs.row.2 m hm).1, ?_⟩
      rw [← append_assoc _ post, ← append_assoc pre, ← hrow]
      rcases node_insert key val dup c with ⟨c', _ | ⟨sep, r⟩⟩ <;>
        simp [child_insert_row, split_row, chain_row]

end

theorem insert_root_row (bt : BTNode) (key val : Int) (dup : Bool) :
    (insert_root bt key val dup).row = split_row (node_insert key val dup bt) := by
  unfold insert_root
  rcases node_insert key val dup bt with ⟨root, _ | ⟨sep, r⟩⟩
  · rw [split_row]
  · simp [split_row, BTNode.row, chain_row]

/-! ### Deletion drops entries -/

theorem leaf_delete_sublist (key val : Int) (es : List (Int × Int)) :
    (leaf_delete key val es).1.Sublist es := by
  induction es with
  | nil => exact .refl _
  | cons e es ih =>
    obtain ⟨k, v⟩ := e
    unfold leaf_delete
    split
    · exact .refl _
    split
    · exact sublist_cons_self ..
    · exact ih.cons_cons _

theorem chain_row_sublist {c c' : BTNode} {cs cs' : List BTNode} (hc : c'.row.Sublist c.row)
    (hcs : ∀ ks, (chain_row cs' ks).Sublist (chain_row cs ks)) (ks : List Int) :
    (chain_row (c' :: cs') ks).Sublist (chain_row (c :: cs) ks) := by
  cases ks with
  | nil =>
    rw [chain_row, chain_row]
    exact hc.append (hcs [])
  | cons k ks =>
    rw [chain_row, chain_row]
    exact hc.append ((hcs ks).cons_cons _)

mutual

theorem node_delete_sublist (key val : Int) : ∀ (seeking : Bool) (n : BTNode),
    (node_delete key val seeking n).1.row.Sublist n.row
  | _, .leaf es => by
    unfold node_delete
    rw [BTNode.row]
    exact (leaf_delete_sublist key val es).map _
  | seeking, .node keys cs => by
    unfold node_delete
    rw [BTNode.row]
    exact chain_delete_sublist key val seeking cs _ keys

theorem chain_delete_sublist (key val : Int) : ∀ (seeking : Bool) (cs : List BTNode) (i : Nat)
    (ks : List Int), (chain_row (chain_delete key val seeking cs i).1 ks).Sublist (chain_row cs ks)
  | _, [], _, _ => by
    unfold chain_delete
    exact .refl _
  | seeking, c :: cs, 0, ks => by
    have hc := node_delete_sublist key val seeking c
    have hcs := chain_delete_sublist key val false cs 0
    unfold chain_delete
    rcases hd : node_delete key val seeking c with ⟨c', _ | _ | _⟩ <;> rw [hd] at hc
    · exact chain_row_sublist hc (fun _ => .refl _) ks
    · exact chain_row_sublist hc (fun _ => .refl _) ks
    · exact chain_row_sublist hc hcs ks
  | seeking, c :: cs, i + 1, ks => by
    unfold chain_delete
    exact chain_row_sublist (.refl _) (chain_delete_sublist key val seeking cs i) ks

end

/-! ### Keys in sight of a descent -/

/-- No entry of the key stands left of an equal separator. -/
def Separated (s : Int) (row : List Mark) : Prop :=
  row.Pairwise fun a b => a.holds s = true → b ≠ .sep s

instance (s : Int) (row : List Mark) : Decidable (Separated s row) :=
  inferInstanceAs (Decidable (row.Pairwise _))

/-- An entry of the key is the last mark with this key. -/
def Tight (s : Int) (row : List Mark) : Prop :=
  row.Pairwise fun a b => a.holds s = true → b.key ≠ s

section Sight

variable {s : Int} {row pre post : List Mark} {es : List (Int × Int)}

theorem holds_iff {m : Mark} : m.holds s = true ↔ ∃ v, m = .entry (s, v) := by
  cases m with
  | sep k => exact iff_of_false nofun fun ⟨v, hv⟩ => nomatch hv
  | entry e =>
    obtain ⟨k, v⟩ := e
    rw [Mark.holds, decide_eq_true_eq]
    constructor
    · rintro rfl
      exact ⟨v, rfl⟩
    · rintro ⟨v', hv⟩
      exact congrArg Prod.fst (Mark.entry.inj hv)

theorem Tight.separated (h : Tight s row) : Separated s row :=
  h.imp fun hab ha heq => hab ha (by rw [heq]; rfl)

variable (h : Reached (fun k => k ≤ s) row pre es post)

include h

/-- Behind the leaf there are larger keys only. -/
theorem Reached.post_gt (hsort : RowSorted row) :
    ∀ m ∈ post, s < m.key := by
  rcases h.first with rfl | ⟨k, post', rfl⟩
  · exact nofun
  have hk : s < k := Int.not_le.mp (of_decide_eq_false (h.right k mem_cons_self))
  rw [h.row_eq] at hsort
  have hpost := (pairwise_append.mp (pairwise_append.mp hsort).2.1).2.1
  intro m hm
  rcases mem_cons.mp hm with rfl | hm
  · exact hk
  · exact Int.lt_of_lt_of_le hk ((pairwise_cons.mp hpost).1 m hm)

/-- Before the leaf no key is larger. -/
theorem Reached.pre_le (hsort : RowSorted row) :
    ∀ m ∈ pre, m.key ≤ s := by
  rcases h.last with rfl | ⟨pre', k, rfl⟩
  · exact nofun
  have hk : k ≤ s := of_decide_eq_true (h.left k (mem_append_right _ mem_cons_self))
  rw [h.row_eq] at hsort
  have hpre := (pairwise_append.mp (pairwise_append.mp hsort).1).2.2
  intro m hm
  rcases mem_append.mp hm with hm | hm
  · exact Int.le_trans (hpre m hm _ mem_cons_self) hk
  · rw [mem_singleton.mp hm]
    exact hk

/-- The entries of the key are in sight exactly if none is left of a separator
    equal to it. -/
theorem Reached.separated_iff
    (hsort : RowSorted row) : Separated s row ↔ ∀ m ∈ pre, m.holds s = false := by
  have hpost := h.post_gt hsort
  have hend : ∀ b ∈ es.map Mark.entry ++ post, b ≠ .sep s := by
    rintro b hb rfl
    rcases mem_append.mp hb with hb | hb
    · obtain ⟨e, -, he⟩ := mem_map.mp hb
      cases he
    · exact Int.lt_irrefl _ (hpost _ hb)
  constructor
  · intro hsep m hm
    refine Bool.eq_false_iff.mpr fun hholds => ?_
    obtain ⟨v, rfl⟩ := holds_iff.mp hholds
    rcases h.last with rfl | ⟨pre', k, rfl⟩
    · cases hm
    -- the last separator lies between the entry and the key
    have hk : k ≤ s := of_decide_eq_true (h.left k (mem_append_right _ mem_cons_self))
    rw [h.row_eq] at hsort hsep
    have hmem : Mark.entry (s, v) ∈ pre' := by
      rcases mem_append.mp hm with hm | hm
      · exact hm
      · cases mem_singleton.mp hm
    have hle : s ≤ k := (pairwise_append.mp (pairwise_append.mp hsort).1).2.2 _ hmem _
      mem_cons_self
    obtain rfl : k = s := Int.le_antisymm hk hle
    exact (pairwise_append.mp (pairwise_append.mp hsep).1).2.2 _ hmem _
      mem_cons_self hholds rfl
  · intro hpre
    unfold Separated
    rw [h.row_eq, pairwise_append]
    refine ⟨pairwise_of_forall_mem_list ?_, pairwise_of_forall_mem_list ?_, ?_⟩
    · exact fun a ha b _ hholds => absurd ((hpre a ha).symm.trans hholds) nofun
    · exact fun a _ b hb _ => hend b hb
    · exact fun a ha b _ hholds => absurd ((hpre a ha).symm.trans hholds) nofun

end Sight

end MiniDb
