import MiniDb.Framework.SortedRuns
import MiniDb.Db.Index

/-! # The B+Tree holds a multiset of entries

  `BTNode.Ok lo hi` says that the keys of a subtree lie between two bounds, in
  order, and that its separators lie between their neighbours.  Equal keys may
  stand on both sides of a separator.  Under it an insertion adds one entry, a
  deletion removes one, and a lookup finds every entry of its key, whereas a
  seek starts right of some of them. -/

namespace MiniDb

open List Option

def AtLeast (lo : Option Int) (k : Int) : Prop := ∀ a ∈ lo, a ≤ k

def AtMost (hi : Option Int) (k : Int) : Prop := ∀ b ∈ hi, k ≤ b

variable {hi lo : Option Int} {k : Int} {es es' : List (Int × Int)} {bt : BTNode} {e : Int × Int}
  {key : Int} (val : Int) {cs : List BTNode} {ks : List Int}

theorem AtLeast.trans {k' : Int} (h : AtLeast lo k) (hk : k ≤ k') :
    AtLeast lo k' := fun a ha => Int.le_trans (h a ha) hk

theorem AtMost.trans {k' : Int} (h : AtMost hi k) (hk : k' ≤ k) :
    AtMost hi k' := fun b hb => Int.le_trans hk (h b hb)

theorem AtLeast.some {a : Int} : AtLeast (some a) k ↔ a ≤ k := by simp [AtLeast]

theorem AtMost.some {b : Int} : AtMost (some b) k ↔ k ≤ b := by simp [AtMost]

/-- Ascending keys; equal ones in any order. -/
def Ascending (es : List (Int × Int)) : Prop := es.Pairwise fun e e' => e.1 ≤ e'.1

def KeysBetween (lo hi : Option Int) (es : List (Int × Int)) : Prop :=
  ∀ e ∈ es, AtLeast lo e.1 ∧ AtMost hi e.1

mutual

def BTNode.Ok : BTNode → Option Int → Option Int → Prop
  | .leaf es, lo, hi => Ascending es ∧ KeysBetween lo hi es
  | .node keys children, lo, hi => ChainOk children lo keys hi

/-- One more child than separators, each within its neighbours. -/
def ChainOk : List BTNode → Option Int → List Int → Option Int → Prop
  | [], _, _, _ => False
  | c :: cs, lo, [], hi => cs = [] ∧ c.Ok lo hi
  | c :: cs, lo, k :: ks, hi =>
    AtLeast lo k ∧ AtMost hi k ∧ c.Ok lo (some k) ∧ ChainOk cs (some k) ks hi

end

/-! ### Order of the entries -/

theorem Ascending.append (h : Ascending es) (h' : Ascending es') (hle : ∀ e ∈ es, e.1 ≤ k)
    (hge : ∀ e ∈ es', k ≤ e.1) : Ascending (es ++ es') :=
  pairwise_append.mpr ⟨h, h', fun e he e' he' => Int.le_trans (hle e he) (hge e' he')⟩

mutual

theorem BTNode.Ok.sorted : ∀ {n : BTNode} {lo hi : Option Int}, n.Ok lo hi →
    Ascending n.entries ∧ KeysBetween lo hi n.entries
  | .leaf _, _, _, h => by
    unfold BTNode.Ok at h
    unfold BTNode.entries
    exact h
  | .node _ children, _, _, h => by
    unfold BTNode.Ok at h
    unfold BTNode.entries
    exact ChainOk.sorted h

theorem ChainOk.sorted : ∀ {cs : List BTNode} {lo hi : Option Int} {ks : List Int},
    ChainOk cs lo ks hi → Ascending (chain_entries cs) ∧ KeysBetween lo hi (chain_entries cs)
  | [], _, _, _, h => by
    unfold ChainOk at h
    exact h.elim
  | c :: cs, lo, hi, [], h => by
    unfold ChainOk at h
    obtain ⟨rfl, hc⟩ := h
    rw [chain_entries, chain_entries, append_nil]
    exact BTNode.Ok.sorted hc
  | c :: cs, lo, hi, k :: ks, h => by
    unfold ChainOk at h
    obtain ⟨hlo, hhi, hc, hcs⟩ := h
    obtain ⟨hasc, hbet⟩ := BTNode.Ok.sorted hc
    obtain ⟨hasc', hbet'⟩ := ChainOk.sorted hcs
    rw [chain_entries]
    refine ⟨hasc.append hasc' (fun e he => AtMost.some.mp (hbet e he).2)
      (fun e he => AtLeast.some.mp (hbet' e he).1), ?_⟩
    intro e he
    rcases mem_append.mp he with he | he
    · exact ⟨(hbet e he).1, hhi.trans (AtMost.some.mp (hbet e he).2)⟩
    · exact ⟨hlo.trans (AtLeast.some.mp (hbet' e he).1), (hbet' e he).2⟩

end

/-! ### Lookups -/

/-- What a descent leaves to its left. -/
def LeftOf (right : Int → Bool) (es seek : List (Int × Int)) : Prop :=
  ∃ left, es = left ++ seek ∧ ∀ e ∈ left, right e.1 = true

/-- A descent that goes right of a key goes right of every smaller one. -/
def Downward (right : Int → Bool) : Prop := ∀ k k', k' ≤ k → right k = true → right k' = true

theorem downward_lt (key : Int) : Downward fun k => decide (k < key) := by
  intro k k' hle h
  simp only [decide_eq_true_eq] at h ⊢
  omega

theorem downward_le (key : Int) : Downward fun k => decide (k ≤ key) := by
  intro k k' hle h
  simp only [decide_eq_true_eq] at h ⊢
  omega

mutual

theorem BTNode.Ok.seek {right : Int → Bool} (hr : Downward right) :
    ∀ {n : BTNode} {lo hi : Option Int}, n.Ok lo hi → LeftOf right n.entries (n.seek right)
  | .leaf es, _, _, _ => ⟨[], rfl, nofun⟩
  | .node keys children, _, _, h => by
    unfold BTNode.Ok at h
    rw [BTNode.entries, BTNode.seek]
    exact ChainOk.seek hr h

theorem ChainOk.seek {right : Int → Bool} (hr : Downward right) :
    ∀ {cs : List BTNode} {lo hi : Option Int} {ks : List Int}, ChainOk cs lo ks hi →
      LeftOf right (chain_entries cs) (chain_seek right cs (ks.takeWhile right).length)
  | [], _, _, _, h => by
    unfold ChainOk at h
    exact h.elim
  | c :: cs, lo, hi, [], h => by
    unfold ChainOk at h
    obtain ⟨left, heq, hleft⟩ := BTNode.Ok.seek hr h.2
    refine ⟨left, ?_, hleft⟩
    rw [chain_entries, heq, append_assoc]
    rfl
  | c :: cs, lo, hi, k :: ks, h => by
    unfold ChainOk at h
    obtain ⟨-, -, hc, hcs⟩ := h
    by_cases hk : right k = true
    · -- the descent passes this child
      obtain ⟨left, heq, hleft⟩ := ChainOk.seek hr hcs
      rw [takeWhile_cons_of_pos hk, length_cons, chain_seek]
      refine ⟨c.entries ++ left, ?_, ?_⟩
      · rw [chain_entries, heq, append_assoc]
      · intro e he
        rcases mem_append.mp he with he | he
        · exact hr k e.1 (AtMost.some.mp (hc.sorted.2 e he).2) hk
        · exact hleft e he
    · obtain ⟨left, heq, hleft⟩ := BTNode.Ok.seek hr hc
      rw [takeWhile_cons_of_neg hk]
      refine ⟨left, ?_, hleft⟩
      rw [chain_entries, heq, append_assoc]
      rfl

end

/-- On ascending entries the walk collects exactly the values of its key. -/
theorem find_loop_eq (key : Int) (h : Ascending es) :
    find_loop key es = (es.filter (·.1 = key)).map Prod.snd := by
  induction es with
  | nil => rfl
  | cons e es ih =>
    obtain ⟨k, v⟩ := e
    obtain ⟨hle, hrest⟩ := pairwise_cons.mp h
    unfold find_loop
    by_cases hlt : k < key
    · rw [if_pos hlt, ih hrest, filter_cons_of_neg (by simp; omega)]
    rw [if_neg hlt]
    by_cases hgt : key < k
    · rw [if_pos hgt, filter_eq_nil_iff.mpr, map_nil]
      intro e he
      rcases mem_cons.mp he with rfl | he
      · simp; omega
      · have := hle e he
        simp only [decide_eq_true_eq]
        omega
    · have heq : k = key := by omega
      rw [if_neg hgt, ih hrest, filter_cons_of_pos (by simpa using heq)]
      rfl

/-- A whole tree. -/
def BTNode.Valid (bt : BTNode) : Prop := bt.Ok none none

theorem btree_empty_valid : btree_empty.Valid := ⟨List.Pairwise.nil, nofun⟩

theorem BTNode.Valid.find_all (h : bt.Valid) (key : Int) :
    btree_find_all bt key = (bt.entries.filter (·.1 = key)).map Prod.snd := by
  obtain ⟨left, heq, hleft⟩ := BTNode.Ok.seek (downward_lt key) h
  have hasc := h.sorted.1
  rw [heq] at hasc
  have hnone : left.filter (·.1 = key) = [] := by
    refine filter_eq_nil_iff.mpr fun e he => ?_
    have := hleft e he
    simp only [decide_eq_true_eq] at this ⊢
    omega
  unfold btree_find_all
  rw [find_loop_eq key (pairwise_append.mp hasc).2.1, heq, filter_append, hnone,
    nil_append]

/-- The entries of the key `start` left of the leaf that a seek reaches. -/
def btree_missed (bt : BTNode) (start : Int) : List (Int × Int) :=
  (bt.entries.take (bt.entries.length - (bt.seek fun k => k ≤ start).length)).filter (·.1 = start)

/-- A seek delivers all entries from `start` on but the missed ones. -/
theorem BTNode.Valid.seek_scan (h : bt.Valid) (start : Int) :
    bt.entries.filter (fun e => decide (start ≤ e.1)) =
      btree_missed bt start ++ btree_seek_scan bt start := by
  obtain ⟨left, heq, hleft⟩ := BTNode.Ok.seek (downward_le start) h
  have htake : bt.entries.take (bt.entries.length - (bt.seek fun k => k ≤ start).length) = left := by
    rw [heq, length_append, Nat.add_sub_cancel, take_left']
    rfl
  unfold btree_missed btree_seek_scan
  rw [htake, heq, filter_append]
  congr 1
  · apply filter_congr
    intro e he
    have := hleft e he
    simp only [decide_eq_true_eq] at this
    exact decide_eq_decide.mpr (by omega)
  · apply filter_congr
    intro e _
    rw [← decide_not]
    exact decide_eq_decide.mpr (by omega)

/-! ### Insertion -/

/-- One more entry somewhere, the others in the order they had. -/
def Adds (e : Int × Int) (es es' : List (Int × Int)) : Prop :=
  ∃ pre post, es = pre ++ post ∧ es' = pre ++ e :: post

theorem Adds.perm (h : Adds e es es') : es'.Perm (e :: es) := by
  obtain ⟨pre, post, rfl, rfl⟩ := h
  exact perm_middle

theorem Adds.append_left (h : Adds e es es') (l : List (Int × Int)) :
    Adds e (l ++ es) (l ++ es') := by
  obtain ⟨pre, post, rfl, rfl⟩ := h
  exact ⟨l ++ pre, post, by simp, by simp⟩

theorem Adds.append_right (h : Adds e es es') (l : List (Int × Int)) :
    Adds e (es ++ l) (es' ++ l) := by
  obtain ⟨pre, post, rfl, rfl⟩ := h
  exact ⟨pre, post ++ l, by simp, by simp⟩

/-- The two halves of a node that may have been split. -/
def SplitOk (lo hi : Option Int) (es : List (Int × Int)) : BTNode × Option (Int × BTNode) → Prop
  | (n, none) => n.Ok lo hi ∧ n.entries = es
  | (n, some (sep, r)) => AtLeast lo sep ∧ AtMost hi sep ∧ n.Ok lo (some sep) ∧
      r.Ok (some sep) hi ∧ n.entries ++ r.entries = es

theorem leaf_split_ok (hasc : Ascending es) (hbet : KeysBetween lo hi es) :
    SplitOk lo hi es (leaf_split es) := by
  unfold leaf_split
  split
  · exact ⟨⟨hasc, hbet⟩, rfl⟩
  next hfull =>
  have hlt : es.length / 2 < es.length := by
    unfold BT_MAX_KEYS at hfull
    omega
  -- the first key of the right half separates
  have hget : es[es.length / 2]? = some es[es.length / 2] := getElem?_eq_getElem hlt
  have hsplit : es.take (es.length / 2) ++ es.drop (es.length / 2) = es := take_append_drop _ _
  have hdrop : es.drop (es.length / 2) = es[es.length / 2] :: es.drop (es.length / 2 + 1) :=
    drop_eq_getElem_cons hlt
  have hpair := hasc
  rw [← hsplit] at hpair
  obtain ⟨hl, hr, hcross⟩ := pairwise_append.mp hpair
  have hmem : es[es.length / 2] ∈ es.drop (es.length / 2) := by
    rw [hdrop]
    exact mem_cons_self
  have hsep := hbet _ (mem_of_mem_drop hmem)
  dsimp only
  rw [hget, map_some, getD_some]
  refine ⟨hsep.1, hsep.2, ⟨hl, fun e he => ⟨(hbet e (mem_of_mem_take he)).1, ?_⟩⟩,
    ⟨hr, fun e he => ⟨?_, (hbet e (mem_of_mem_drop he)).2⟩⟩, hsplit⟩
  · exact AtMost.some.mpr (hcross e he _ hmem)
  · rw [hdrop] at he hr
    rcases mem_cons.mp he with rfl | he
    · exact AtLeast.some.mpr (Int.le_refl _)
    · exact AtLeast.some.mpr ((pairwise_cons.mp hr).1 e he)

/-- The place of a key among ascending entries. -/
theorem Ascending.around (hasc : Ascending es) (key : Int) :
    (∀ e ∈ es.takeWhile (·.1 < key), e.1 < key) ∧ (∀ e ∈ es.dropWhile (·.1 < key), key ≤ e.1) ∧
      Ascending (es.takeWhile (·.1 < key)) ∧ Ascending (es.dropWhile (·.1 < key)) := by
  have hsplit : es.takeWhile (·.1 < key) ++ es.dropWhile (·.1 < key) = es :=
    takeWhile_append_dropWhile
  have hpair := hasc
  rw [← hsplit] at hpair
  obtain ⟨hl, hr, -⟩ := pairwise_append.mp hpair
  refine ⟨fun e he => by simpa using mem_takeWhile_imp he, fun e he => ?_, hl, hr⟩
  have hnot := Framework.of_mem_dropWhile (fun {x y} hle hx => by simp at hx ⊢; omega) hasc he
  simpa using hnot

/-- An entry between smaller and larger ones. -/
theorem Ascending.insert (h : Ascending es) (h' : Ascending es')
    (hlt : ∀ e ∈ es, e.1 < key) (hge : ∀ e ∈ es', key ≤ e.1) :
    Ascending (es ++ (key, val) :: es') := by
  refine Ascending.append h (pairwise_cons.mpr ⟨hge, h'⟩) (fun e he => Int.le_of_lt (hlt e he)) ?_
  intro e he
  rcases mem_cons.mp he with rfl | he
  · exact Int.le_refl _
  · exact hge e he

theorem KeysBetween.insert (h : KeysBetween lo hi es)
    (h' : KeysBetween lo hi es') (hlo : AtLeast lo key) (hhi : AtMost hi key) :
    KeysBetween lo hi (es ++ (key, val) :: es') := by
  intro e he
  rcases mem_append.mp he with he | he
  · exact h e he
  rcases mem_cons.mp he with rfl | he
  · exact ⟨hlo, hhi⟩
  · exact h' e he

/-- A leaf takes the entry at the first place that keeps the order. -/
theorem leaf_insert_ok (dup : Bool) (hasc : Ascending es)
    (hbet : KeysBetween lo hi es) (hlo : AtLeast lo key) (hhi : AtMost hi key) :
    ∃ es', (dup = true → Adds (key, val) es es') ∧ SplitOk lo hi es' (leaf_insert es key val dup) := by
  have hsplit : es.takeWhile (·.1 < key) ++ es.dropWhile (·.1 < key) = es :=
    takeWhile_append_dropWhile
  obtain ⟨hlt, hge, hl, hr⟩ := hasc.around key
  have hbl : KeysBetween lo hi (es.takeWhile (·.1 < key)) := fun e he =>
    hbet e ((List.takeWhile_prefix _).subset he)
  have hbr : KeysBetween lo hi (es.dropWhile (·.1 < key)) := fun e he =>
    hbet e ((dropWhile_suffix _).subset he)
  unfold leaf_insert
  dsimp only
  split
  · next hsame =>
    have htail := tail_sublist (es.dropWhile (·.1 < key))
    refine ⟨_, fun hdup => ?_, ⟨hl.insert val (hr.sublist htail) hlt fun e he =>
      hge e (htail.subset he), hbl.insert val (fun e he => hbr e (htail.subset he)) hlo hhi⟩, rfl⟩
    rw [hdup] at hsame
    cases hsame
  · exact ⟨_, fun _ => ⟨_, _, hsplit.symm, rfl⟩,
      leaf_split_ok (hl.insert val hr hlt hge) (hbl.insert val hbr hlo hhi)⟩

theorem chain_entries_append (cs cs' : List BTNode) :
    chain_entries (cs ++ cs') = chain_entries cs ++ chain_entries cs' := by
  induction cs with
  | nil => rfl
  | cons c cs ih => rw [cons_append, chain_entries, chain_entries, ih, append_assoc]

/-- A chain may be cut at any separator. -/
theorem ChainOk.split (mid : Nat) {sep : Int}
    (h : ChainOk cs lo ks hi) (hsep : ks[mid]? = some sep) :
    AtLeast lo sep ∧ AtMost hi sep ∧ ChainOk (cs.take (mid + 1)) lo (ks.take mid) (some sep) ∧
      ChainOk (cs.drop (mid + 1)) (some sep) (ks.drop (mid + 1)) hi := by
  induction mid generalizing cs ks lo with
  | zero =>
    cases ks with
    | nil => cases hsep
    | cons k ks =>
      cases cs with
      | nil => unfold ChainOk at h; exact h.elim
      | cons c cs =>
        unfold ChainOk at h
        obtain rfl : k = sep := some.inj hsep
        refine ⟨h.1, h.2.1, ?_, h.2.2.2⟩
        show ChainOk [c] lo [] (some k)
        unfold ChainOk
        exact ⟨rfl, h.2.2.1⟩
  | succ mid ih =>
    cases ks with
    | nil => cases hsep
    | cons k ks =>
      cases cs with
      | nil => unfold ChainOk at h; exact h.elim
      | cons c cs =>
        unfold ChainOk at h
        obtain ⟨hlo, hhi, hc, hcs⟩ := h
        obtain ⟨hge, hle, hleft, hright⟩ := ih hcs hsep
        refine ⟨hlo.trans (AtLeast.some.mp hge), hle, ?_, hright⟩
        show ChainOk (c :: cs.take (mid + 1)) lo (k :: ks.take mid) (some sep)
        unfold ChainOk
        exact ⟨hlo, AtMost.some.mpr (AtLeast.some.mp hge), hc, hleft⟩

theorem node_split_ok (h : ChainOk cs lo ks hi) :
    SplitOk lo hi (chain_entries cs) (node_split ks cs) := by
  unfold node_split
  split
  · exact ⟨h, rfl⟩
  next hfull =>
  have hlt : ks.length / 2 < ks.length := by
    unfold BT_MAX_KEYS at hfull
    omega
  have hget : ks[ks.length / 2]? = some ks[ks.length / 2] := getElem?_eq_getElem hlt
  obtain ⟨hge, hle, hleft, hright⟩ := h.split _ hget
  dsimp only
  rw [hget, getD_some]
  refine ⟨hge, hle, hleft, hright, ?_⟩
  show chain_entries _ ++ chain_entries _ = _
  rw [← chain_entries_append, take_append_drop]

mutual

theorem node_insert_ok (key val : Int) (dup : Bool) : ∀ {n : BTNode} {lo hi : Option Int}, n.Ok lo hi →
    AtLeast lo key → AtMost hi key →
    ∃ es', (dup = true → Adds (key, val) n.entries es') ∧
      SplitOk lo hi es' (node_insert key val dup n)
  | .leaf es, _, _, h, hlo, hhi => by
    unfold BTNode.Ok at h
    exact leaf_insert_ok val dup h.1 h.2 hlo hhi
  | .node keys children, lo, hi, h, hlo, hhi => by
    unfold BTNode.Ok at h
    obtain ⟨es', hadds, hres⟩ := child_insert_ok key val dup h hlo hhi
    refine ⟨es', hadds, ?_⟩
    unfold node_insert
    dsimp only
    generalize child_insert key val dup children (keys.takeWhile (· ≤ key)).length = r at hres
    rcases r with ⟨cs', _ | ⟨sep, r⟩⟩
    · exact hres
    · obtain ⟨hchain, rfl⟩ := hres
      exact node_split_ok hchain

/-- The chain after an insertion below it, with the right half of a split child
    in its place. -/
theorem child_insert_ok (key val : Int) (dup : Bool) : ∀ {cs : List BTNode} {lo hi : Option Int}
    {ks : List Int},
    ChainOk cs lo ks hi → AtLeast lo key → AtMost hi key →
    ∃ es', (dup = true → Adds (key, val) (chain_entries cs) es') ∧
      match child_insert key val dup cs (ks.takeWhile (· ≤ key)).length with
      | (cs', none) => ChainOk cs' lo ks hi ∧ chain_entries cs' = es'
      | (cs', some (sep, r)) =>
        ChainOk (cs'.insertIdx ((ks.takeWhile (· ≤ key)).length + 1) r) lo
          (ks.insertIdx (ks.takeWhile (· ≤ key)).length sep) hi ∧
        chain_entries (cs'.insertIdx ((ks.takeWhile (· ≤ key)).length + 1) r) = es'
  | [], _, _, _, h, _, _ => by
    unfold ChainOk at h
    exact h.elim
  | c :: cs, lo, hi, [], h, hlo, hhi => by
    unfold ChainOk at h
    obtain ⟨rfl, hc⟩ := h
    obtain ⟨es', hadds, hres⟩ := node_insert_ok key val dup hc hlo hhi
    refine ⟨es', by rw [chain_entries, chain_entries, append_nil]; exact hadds, ?_⟩
    rw [takeWhile_nil, length_nil, child_insert]
    rcases hsplit : node_insert key val dup c with ⟨c', _ | ⟨sep, r⟩⟩
    · rw [hsplit] at hres
      obtain ⟨hc', rfl⟩ := hres
      exact ⟨by unfold ChainOk; exact ⟨rfl, hc'⟩, by simp [chain_entries]⟩
    · rw [hsplit] at hres
      obtain ⟨hge, hle, hc', hr, rfl⟩ := hres
      refine ⟨?_, by simp [chain_entries]⟩
      show ChainOk [c', r] lo [sep] hi
      unfold ChainOk ChainOk
      exact ⟨hge, hle, hc', rfl, hr⟩
  | c :: cs, lo, hi, k :: ks, h, hlo, hhi => by
    unfold ChainOk at h
    obtain ⟨hk1, hk2, hc, hcs⟩ := h
    by_cases hk : k ≤ key
    · -- the entry goes right of this separator
      obtain ⟨es', hadds, hres⟩ := child_insert_ok key val dup hcs (AtLeast.some.mpr hk) hhi
      rw [takeWhile_cons_of_pos (by simpa using hk), length_cons, child_insert]
      refine ⟨c.entries ++ es', by rw [chain_entries]; exact fun hdup => (hadds hdup).append_left _, ?_⟩
      rcases hsplit : child_insert key val dup cs (ks.takeWhile (· ≤ key)).length with
        ⟨cs', _ | ⟨sep, r⟩⟩
      · rw [hsplit] at hres
        obtain ⟨hcs', rfl⟩ := hres
        refine ⟨?_, by rw [chain_entries]⟩
        unfold ChainOk
        exact ⟨hk1, hk2, hc, hcs'⟩
      · rw [hsplit] at hres
        obtain ⟨hcs', rfl⟩ := hres
        refine ⟨?_, by rw [insertIdx_succ_cons, chain_entries]⟩
        rw [insertIdx_succ_cons, insertIdx_succ_cons]
        unfold ChainOk
        exact ⟨hk1, hk2, hc, hcs'⟩
    · obtain ⟨es', hadds, hres⟩ := node_insert_ok key val dup hc hlo (AtMost.some.mpr (by omega))
      rw [takeWhile_cons_of_neg (by simpa using hk), length_nil, child_insert]
      refine ⟨es' ++ chain_entries cs, by rw [chain_entries]; exact fun hdup => (hadds hdup).append_right _, ?_⟩
      rcases hsplit : node_insert key val dup c with ⟨c', _ | ⟨sep, r⟩⟩
      · rw [hsplit] at hres
        obtain ⟨hc', rfl⟩ := hres
        refine ⟨?_, by rw [chain_entries]⟩
        unfold ChainOk
        exact ⟨hk1, hk2, hc', hcs⟩
      · rw [hsplit] at hres
        obtain ⟨hge, hle, hc', hr, rfl⟩ := hres
        refine ⟨?_, by simp [chain_entries]⟩
        show ChainOk (c' :: r :: cs) lo (sep :: k :: ks) hi
        unfold ChainOk ChainOk
        exact ⟨hge, hk2.trans (AtMost.some.mp hle), hc', AtLeast.some.mpr (AtMost.some.mp hle), hk2,
          hr, hcs⟩

end

theorem BTNode.Valid.insert_root (h : bt.Valid) (key val : Int) (dup : Bool) :
    (insert_root bt key val dup).Valid ∧
      (dup = true → Adds (key, val) bt.entries (insert_root bt key val dup).entries) := by
  obtain ⟨es', hadds, hres⟩ := node_insert_ok key val dup h nofun nofun
  unfold MiniDb.insert_root
  rcases hsplit : node_insert key val dup bt with ⟨root, _ | ⟨sep, r⟩⟩
  · rw [hsplit] at hres
    obtain ⟨hok, rfl⟩ := hres
    exact ⟨hok, hadds⟩
  · rw [hsplit] at hres
    obtain ⟨hge, hle, hl, hr, rfl⟩ := hres
    refine ⟨?_, by simpa [BTNode.entries, chain_entries] using hadds⟩
    show ChainOk [root, r] none [sep] none
    unfold ChainOk ChainOk
    exact ⟨hge, hle, hl, rfl, hr⟩

/-- An insertion adds one entry to a valid tree. -/
theorem BTNode.Valid.insert_dup (h : bt.Valid) (key val : Int) :
    (btree_insert_dup bt key val).Valid ∧
      Adds (key, val) bt.entries (btree_insert_dup bt key val).entries :=
  ⟨(h.insert_root key val true).1, (h.insert_root key val true).2 rfl⟩

/-! ### Deletion -/

/-- What a walk that looks for one entry does to the entries it passes. -/
def WalkOk (e : Int × Int) (es es' : List (Int × Int)) : Walk → Prop
  | .removed => ∃ pre post, es = pre ++ e :: post ∧ es' = pre ++ post
  | .past => es' = es ∧ e ∉ es ∧ ∃ x ∈ es, e.1 < x.1
  | .on => es' = es ∧ e ∉ es

theorem WalkOk.append_left {l : List (Int × Int)} {w : Walk} (h : WalkOk e es es' w) (hl : e ∉ l) :
    WalkOk e (l ++ es) (l ++ es') w := by
  have hnot : e ∉ es → e ∉ l ++ es := fun hes hmem => (mem_append.mp hmem).elim hl hes
  cases w with
  | removed =>
    obtain ⟨pre, post, rfl, rfl⟩ := h
    exact ⟨l ++ pre, post, by simp, by simp⟩
  | past =>
    obtain ⟨rfl, hes, x, hx, hlt⟩ := h
    exact ⟨rfl, hnot hes, x, mem_append_right l hx, hlt⟩
  | on =>
    obtain ⟨rfl, hes⟩ := h
    exact ⟨rfl, hnot hes⟩

theorem leaf_delete_ok (key val : Int) (h : Ascending es) :
    WalkOk (key, val) es (leaf_delete key val es).1 (leaf_delete key val es).2 := by
  induction es with
  | nil => exact ⟨rfl, nofun⟩
  | cons e es ih =>
    obtain ⟨k, v⟩ := e
    obtain ⟨hle, hrest⟩ := pairwise_cons.mp h
    unfold leaf_delete
    split
    · next hlt =>
      refine ⟨rfl, fun hmem => ?_, (k, v), mem_cons_self, hlt⟩
      rcases mem_cons.mp hmem with heq | hmem
      · have : key = k := congrArg Prod.fst heq
        omega
      · have := hle _ hmem
        simp only at this
        omega
    split
    · next heq =>
      rw [heq.1, heq.2]
      exact ⟨[], es, rfl, rfl⟩
    · next hne =>
      have hwalk := (ih hrest).append_left (l := [(k, v)]) (fun hmem => hne (by
        have heq := mem_singleton.mp hmem
        simp only [Prod.mk.injEq] at heq
        exact ⟨heq.1.symm, heq.2.symm⟩))
      exact hwalk

/-- What remains of the entries lies where they lay. -/
theorem WalkOk.subset {w : Walk} (h : WalkOk e es es' w) : es'.Sublist es := by
  cases w with
  | removed =>
    obtain ⟨pre, post, rfl, rfl⟩ := h
    exact (List.Sublist.refl pre).append (sublist_cons_self e post)
  | past =>
    obtain ⟨rfl, -⟩ := h
    exact .refl _
  | on =>
    obtain ⟨rfl, -⟩ := h
    exact .refl _

mutual

theorem node_delete_ok (key val : Int) : ∀ {n : BTNode} (seeking : Bool) {lo hi : Option Int},
    n.Ok lo hi → (node_delete key val seeking n).1.Ok lo hi ∧
      WalkOk (key, val) n.entries (node_delete key val seeking n).1.entries
        (node_delete key val seeking n).2
  | .leaf es, seeking, lo, hi, h => by
    unfold BTNode.Ok at h
    have hwalk := leaf_delete_ok key val h.1
    unfold node_delete
    refine ⟨?_, hwalk⟩
    show Ascending (leaf_delete key val es).1 ∧ KeysBetween lo hi (leaf_delete key val es).1
    exact ⟨h.1.sublist hwalk.subset, fun e he => h.2 e (hwalk.subset.subset he)⟩
  | .node keys children, seeking, lo, hi, h => by
    unfold BTNode.Ok at h
    have hchain := chain_delete_ok key val seeking h
    unfold node_delete
    exact hchain

theorem chain_delete_ok (key val : Int) : ∀ {cs : List BTNode} (seeking : Bool)
    {lo hi : Option Int} {ks : List Int}, ChainOk cs lo ks hi →
    ChainOk (chain_delete key val seeking cs
        (if seeking then (ks.takeWhile (· < key)).length else 0)).1 lo ks hi ∧
      WalkOk (key, val) (chain_entries cs) (chain_entries (chain_delete key val seeking cs
          (if seeking then (ks.takeWhile (· < key)).length else 0)).1)
        (chain_delete key val seeking cs
          (if seeking then (ks.takeWhile (· < key)).length else 0)).2
  | [], _, _, _, _, h => by
    unfold ChainOk at h
    exact h.elim
  | c :: cs, seeking, lo, hi, [], h => by
    unfold ChainOk at h
    obtain ⟨rfl, hc⟩ := h
    have hnode := node_delete_ok key val seeking hc
    have hidx : (if seeking then (([] : List Int).takeWhile (· < key)).length else 0) = 0 := by
      simp
    rw [hidx, chain_delete]
    rcases hd : node_delete key val seeking c with ⟨c', _ | _ | _⟩ <;>
      (rw [hd] at hnode
       refine ⟨?_, by simpa [chain_entries, chain_delete] using hnode.2⟩
       show ChainOk [c'] lo [] hi
       unfold ChainOk
       exact ⟨rfl, hnode.1⟩)
  | c :: cs, seeking, lo, hi, k :: ks, h => by
    unfold ChainOk at h
    obtain ⟨hk1, hk2, hc, hcs⟩ := h
    have hcs' := hcs.sorted.2
    by_cases hskip : seeking = true ∧ k < key
    · -- the entries of this child are too small
      obtain ⟨rfl, hk⟩ := hskip
      have hrest := chain_delete_ok key val true hcs
      simp only [if_true] at hrest ⊢
      rw [takeWhile_cons_of_pos (by simpa using hk), length_cons, chain_delete,
        chain_entries, chain_entries]
      refine ⟨?_, hrest.2.append_left fun hmem => ?_⟩
      · unfold ChainOk
        exact ⟨hk1, hk2, hc, hrest.1⟩
      · have := AtMost.some.mp (hc.sorted.2 _ hmem).2
        simp only at this
        omega
    have hidx : (if seeking then ((k :: ks).takeWhile (· < key)).length else 0) = 0 := by
      cases seeking with
      | false => rfl
      | true =>
        have hk : ¬k < key := fun hk => hskip ⟨rfl, hk⟩
        rw [if_pos rfl, takeWhile_cons_of_neg (by simpa using hk), length_nil]
    have hnode := node_delete_ok key val seeking hc
    rw [hidx, chain_delete, chain_entries]
    rcases hd : node_delete key val seeking c with ⟨c', w⟩
    rw [hd] at hnode
    obtain ⟨hc', hwalk⟩ := hnode
    cases w with
    | removed =>
      obtain ⟨pre, post, heq, heq'⟩ := hwalk
      dsimp only at heq'
      refine ⟨by unfold ChainOk; exact ⟨hk1, hk2, hc', hcs⟩, pre, post ++ chain_entries cs, ?_, ?_⟩
      · rw [heq, append_assoc, cons_append]
      · rw [chain_entries, heq', append_assoc]
    | past =>
      obtain ⟨heq, hnot, x, hx, hlt⟩ := hwalk
      dsimp only at heq
      refine ⟨by unfold ChainOk; exact ⟨hk1, hk2, hc', hcs⟩, ?_, ?_, x,
        mem_append_left _ hx, hlt⟩
      · rw [chain_entries, heq]
      · intro hmem
        rcases mem_append.mp hmem with hmem | hmem
        · exact hnot hmem
        · have h1 := AtMost.some.mp (hc.sorted.2 x hx).2
          have h2 := AtLeast.some.mp (hcs' _ hmem).1
          simp only at h2 hlt
          omega
    | on =>
      obtain ⟨heq, hnot⟩ := hwalk
      dsimp only at heq
      have hrest := chain_delete_ok key val false hcs
      simp only [Bool.false_eq_true, if_false] at hrest
      refine ⟨by unfold ChainOk; exact ⟨hk1, hk2, hc', hrest.1⟩, ?_⟩
      dsimp only
      rw [chain_entries, heq]
      exact hrest.2.append_left hnot

end

/-- A deletion takes one entry out of a valid tree, if it is there. -/
theorem BTNode.Valid.delete_val (h : bt.Valid) (key val : Int) :
    (btree_delete_val bt key val).Valid ∧
      (btree_delete_val bt key val).entries.Perm (bt.entries.erase (key, val)) := by
  obtain ⟨hok, hwalk⟩ := node_delete_ok key val true h
  refine ⟨hok, ?_⟩
  unfold btree_delete_val
  cases hw : (node_delete key val true bt).2 with
  | removed =>
    rw [hw] at hwalk
    obtain ⟨pre, post, heq, heq'⟩ := hwalk
    rw [heq', heq]
    have hperm : (pre ++ (key, val) :: post).Perm ((key, val) :: (pre ++ post)) := perm_middle
    have herase := hperm.erase (key, val)
    rw [erase_cons_head] at herase
    exact herase.symm
  | past =>
    rw [hw] at hwalk
    rw [hwalk.1, erase_of_not_mem hwalk.2.1]
  | on =>
    rw [hw] at hwalk
    rw [hwalk.1, erase_of_not_mem hwalk.2]

end MiniDb
