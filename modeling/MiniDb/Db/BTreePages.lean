import Mathlib.Data.List.Nodup
import Mathlib.Data.List.Perm.Subperm
import MiniDb.Db.BTree
import MiniDb.Framework.Run

/-! # The B+Tree in its pages

  The index file is a sequence of pages: a meta page with the id of the root,
  leaves that are chained by the id of their right neighbour, and inner nodes
  that hold the ids of their children.  `Repr` says which tree the page of a
  node stands for, and that the leaf chain runs through its leaves from left to
  right.  Every operation on the pages is the operation of `MiniDb.Db.Index` on
  the tree they stand for. -/

namespace MiniDb

open List

namespace Paged

inductive BTPage where
  | info (root : Nat)
  | leaf (entries : List (Int × Int)) (next_leaf : Nat)
  | node (keys : List Int) (children : List Nat)
  deriving DecidableEq

/-- The pages, and the root as it is kept in memory. -/
structure BTree where
  pages : List BTPage
  root : Nat
  deriving DecidableEq

/-- A new index: page 0 is the meta page, page 1 an empty leaf. -/
def btree_open : BTree := ⟨[.info 1, .leaf [] 0], 1⟩

/-! ### Insertion -/

/-- The separator and the page of the right half, if the node was split.  The
    descent is bounded by `fuel`; `none` is a page that is not a node. -/
def node_insert (key val : Int) (allow_dup : Bool) :
    Nat → List BTPage → Nat → Option (List BTPage × Option (Int × Nat))
  | 0, _, _ => none
  | fuel + 1, pages, pid =>
    match pages[pid]? with
    | some (.leaf es next) =>
      let before := es.takeWhile (·.1 < key)
      let after := es.dropWhile (·.1 < key)
      if !allow_dup && after.head?.map Prod.fst == some key then
        some (pages.set pid (.leaf (before ++ (key, val) :: after.tail) next), none)
      else
        let es := before ++ (key, val) :: after
        if es.length ≤ BT_MAX_KEYS then some (pages.set pid (.leaf es next), none)
        else
          let left := es.length / 2
          -- the new leaf is the last page, and comes next in the chain
          let rpid := pages.length
          some (pages.set pid (.leaf (es.take left) rpid) ++ [.leaf (es.drop left) next],
            some ((es[left]?.map Prod.fst).getD 0, rpid))
    | some (.node keys children) =>
      let i := (keys.takeWhile (· ≤ key)).length
      match children[i]? with
      | none => none
      | some child =>
        match node_insert key val allow_dup fuel pages child with
        | none => none
        | some (pages, none) => some (pages, none)
        | some (pages, some (sep, cr)) =>
          let keys := keys.insertIdx i sep
          let children := children.insertIdx (i + 1) cr
          if keys.length ≤ BT_MAX_KEYS then some (pages.set pid (.node keys children), none)
          else
            let mid := keys.length / 2
            let rpid := pages.length
            some (pages.set pid (.node (keys.take mid) (children.take (mid + 1))) ++
                [.node (keys.drop (mid + 1)) (children.drop (mid + 1))],
              some (keys[mid]?.getD 0, rpid))
    | _ => none

/-- A split root gets a new root above it. -/
def insert_root (bt : BTree) (key val : Int) (allow_dup : Bool) : Option BTree :=
  match node_insert key val allow_dup bt.pages.length bt.pages bt.root with
  | none => none
  | some (pages, none) => some ⟨pages, bt.root⟩
  | some (pages, some (sep, right)) =>
    let nr := pages.length
    some ⟨(pages ++ [BTPage.node [sep] [bt.root, right]]).set 0 (.info nr), nr⟩

def btree_insert_dup (bt : BTree) (key val : Int) : Option BTree := insert_root bt key val true

/-! ### The leaf chain -/

/-- The leaf that a descent comes to; `right` says for which separators it goes
    right of them. -/
def descend (right : Int → Bool) (pages : List BTPage) : Nat → Nat → Option Nat
  | 0, _ => none
  | fuel + 1, pid =>
    match pages[pid]? with
    | some (.leaf _ _) => some pid
    | some (.node keys children) =>
      match children[(keys.takeWhile right).length]? with
      | none => none
      | some child => descend right pages fuel child
    | _ => none

/-- The entries of one leaf with the key, and whether a larger key ended the
    walk. -/
def leaf_find (key : Int) : List (Int × Int) → List Int × Bool
  | [] => ([], false)
  | (k, v) :: es =>
    if k < key then leaf_find key es
    else if key < k then ([], true)
    else (v :: (leaf_find key es).1, (leaf_find key es).2)

/-- Page id 0 ends the chain. -/
def find_chain (key : Int) (pages : List BTPage) : Nat → Nat → Option (List Int)
  | fuel, pid =>
    if pid = 0 then some []
    else
      match fuel with
      | 0 => none
      | fuel + 1 =>
        match pages[pid]? with
        | some (.leaf es next) =>
          match leaf_find key es with
          | (vals, true) => some vals
          | (vals, false) => (find_chain key pages fuel next).map (vals ++ ·)
        | _ => none

def btree_find_all (bt : BTree) (key : Int) : Option (List Int) :=
  (descend (fun k => k < key) bt.pages bt.pages.length bt.root).bind
    (find_chain key bt.pages bt.pages.length)

def scan_chain (pages : List BTPage) : Nat → Nat → Option (List (Int × Int))
  | fuel, pid =>
    if pid = 0 then some []
    else
      match fuel with
      | 0 => none
      | fuel + 1 =>
        match pages[pid]? with
        | some (.leaf es next) => (scan_chain pages fuel next).map (es ++ ·)
        | _ => none

/-- The descent to the leftmost leaf takes the first child everywhere. -/
def btree_scan (bt : BTree) : Option (List (Int × Int)) :=
  (descend (fun _ => false) bt.pages bt.pages.length bt.root).bind
    (scan_chain bt.pages bt.pages.length)

/-! ### Deletion -/

/-- Whether the pair was found, and the pages without it. -/
def delete_chain (key val : Int) (pages : List BTPage) : Nat → Nat → Option (List BTPage × Bool)
  | fuel, pid =>
    if pid = 0 then some (pages, false)
    else
      match fuel with
      | 0 => none
      | fuel + 1 =>
        match pages[pid]? with
        | some (.leaf es next) =>
          match leaf_delete key val es with
          | (es, .removed) => some (pages.set pid (.leaf es next), true)
          | (_, .past) => some (pages, false)
          | (_, .on) => delete_chain key val pages fuel next
        | _ => none

def btree_delete_val (bt : BTree) (key val : Int) : Option (BTree × Bool) :=
  (descend (fun k => k < key) bt.pages bt.pages.length bt.root).bind fun pid =>
    (delete_chain key val bt.pages bt.pages.length pid).map fun r => (⟨r.1, bt.root⟩, r.2)

/-! ### What the pages stand for -/

mutual

/-- Page `pid` is the root of the tree, `d` levels above the leaves.  Its leaf
    chain starts at page `first` and goes on at page `next`; `ids` are the pages
    of its nodes. -/
inductive Repr (pages : List BTPage) : Nat → BTNode → Nat → Nat → Nat → List Nat → Prop where
  | leaf {es : List (Int × Int)} {pid next : Nat} (hpage : pages[pid]? = some (.leaf es next)) :
      Repr pages 0 (.leaf es) pid pid next [pid]
  | node {d pid first next : Nat} {keys : List Int} {children : List BTNode} {cids ids : List Nat}
      (hpage : pages[pid]? = some (.node keys cids))
      (hchain : ReprChain pages d children cids first next ids) :
      Repr pages (d + 1) (.node keys children) pid first next (pid :: ids)

/-- The children of one node: the chain of each goes on at the next one. -/
inductive ReprChain (pages : List BTPage) :
    Nat → List BTNode → List Nat → Nat → Nat → List Nat → Prop where
  | nil {d next : Nat} : ReprChain pages d [] [] next next []
  | cons {d cid first mid next : Nat} {c : BTNode} {cs : List BTNode} {cids ids ids' : List Nat}
      (hc : Repr pages d c cid first mid ids) (hcs : ReprChain pages d cs cids mid next ids') :
      ReprChain pages d (c :: cs) (cid :: cids) first next (ids ++ ids')

end

section Repr

variable {pages pages' : List BTPage} {d pid first next : Nat}

mutual

/-- A subtree depends on its own pages only. -/
theorem Repr.congr : ∀ {d : Nat} {n : BTNode} {pid first next : Nat} {ids : List Nat},
    Repr pages d n pid first next ids → (∀ q ∈ ids, pages'[q]? = pages[q]?) →
    Repr pages' d n pid first next ids
  | _, _, _, _, _, _, .leaf hpage, hsame =>
    .leaf ((hsame _ mem_cons_self).trans hpage)
  | _, _, _, _, _, _, .node hpage hchain, hsame =>
    .node ((hsame _ mem_cons_self).trans hpage)
      (ReprChain.congr hchain fun q hq => hsame q (mem_cons_of_mem _ hq))

theorem ReprChain.congr : ∀ {d : Nat} {cs : List BTNode} {cids : List Nat} {first next : Nat}
    {ids : List Nat}, ReprChain pages d cs cids first next ids →
    (∀ q ∈ ids, pages'[q]? = pages[q]?) → ReprChain pages' d cs cids first next ids
  | _, _, _, _, _, _, .nil, _ => .nil
  | _, _, _, _, _, _, .cons hc hcs, hsame =>
    .cons (Repr.congr hc fun q hq => hsame q (mem_append_left _ hq))
      (ReprChain.congr hcs fun q hq => hsame q (mem_append_right _ hq))

end

mutual

theorem Repr.lt : ∀ {d : Nat} {n : BTNode} {pid first next : Nat} {ids : List Nat},
    Repr pages d n pid first next ids → ∀ q ∈ ids, q < pages.length
  | _, _, _, _, _, _, .leaf hpage, q, hq => by
    rw [mem_singleton.mp hq]
    exact (List.getElem?_eq_some_iff.mp hpage).1
  | _, _, _, _, _, _, .node hpage hchain, q, hq => by
    rcases mem_cons.mp hq with rfl | hq
    · exact (List.getElem?_eq_some_iff.mp hpage).1
    · exact ReprChain.lt hchain q hq

theorem ReprChain.lt : ∀ {d : Nat} {cs : List BTNode} {cids : List Nat} {first next : Nat}
    {ids : List Nat}, ReprChain pages d cs cids first next ids → ∀ q ∈ ids, q < pages.length
  | _, _, _, _, _, _, .nil, _, hq => by cases hq
  | _, _, _, _, _, _, .cons hc hcs, q, hq => by
    rcases mem_append.mp hq with hq | hq
    · exact Repr.lt hc q hq
    · exact ReprChain.lt hcs q hq

end

variable {cs : List BTNode} {cids ids : List Nat}

theorem ReprChain.append {mid : Nat} {cs' : List BTNode} {cids' ids ids' : List Nat}
    (h : ReprChain pages d cs cids first mid ids) (h' : ReprChain pages d cs' cids' mid next ids') :
    ReprChain pages d (cs ++ cs') (cids ++ cids') first next (ids ++ ids') := by
  induction cs generalizing cids first ids with
  | nil =>
    cases h
    exact h'
  | cons c cs ih =>
    cases h with
    | cons hc hcs =>
      rw [append_assoc]
      exact .cons hc (ih hcs)

variable (h : ReprChain pages d cs cids first next ids)

include h

/-- A chain may be cut anywhere. -/
theorem ReprChain.cut (k : Nat) :
    ∃ mid ids₁ ids₂, ids = ids₁ ++ ids₂ ∧
      ReprChain pages d (cs.take k) (cids.take k) first mid ids₁ ∧
      ReprChain pages d (cs.drop k) (cids.drop k) mid next ids₂ := by
  induction k generalizing cs cids first ids with
  | zero => exact ⟨first, [], ids, rfl, .nil, h⟩
  | succ k ih =>
    cases h with
    | nil => exact ⟨_, [], [], rfl, .nil, .nil⟩
    | cons hc hcs =>
      obtain ⟨mid, ids₁, ids₂, rfl, h₁, h₂⟩ := ih hcs
      exact ⟨mid, _ ++ ids₁, ids₂, (append_assoc ..).symm, .cons hc h₁, h₂⟩

theorem ReprChain.length_eq :
    cids.length = cs.length := by
  induction cs generalizing cids first ids with
  | nil =>
    cases h
    rfl
  | cons c cs ih =>
    cases h with
    | cons hc hcs => rw [length_cons, length_cons, ih hcs]

/-- The chain around one of its children. -/
theorem ReprChain.around {i : Nat} {c : BTNode} (hc : cs[i]? = some c) :
    ∃ cid m₁ m₂ ids₁ ids₂ ids₃, cids[i]? = some cid ∧ ids = ids₁ ++ (ids₂ ++ ids₃) ∧
      ReprChain pages d (cs.take i) (cids.take i) first m₁ ids₁ ∧
      Repr pages d c cid m₁ m₂ ids₂ ∧
      ReprChain pages d (cs.drop (i + 1)) (cids.drop (i + 1)) m₂ next ids₃ := by
  obtain ⟨m₁, ids₁, rest, rfl, h₁, h₂⟩ := h.cut i
  have hi : i < cs.length := (List.getElem?_eq_some_iff.mp hc).1
  have hi' : i < cids.length := h.length_eq ▸ hi
  rw [drop_eq_getElem_cons hi, drop_eq_getElem_cons hi'] at h₂
  cases h₂ with
  | cons hchild hrest =>
    rw [(List.getElem?_eq_some_iff.mp hc).2] at hchild
    exact ⟨_, m₁, _, ids₁, _, _, List.getElem?_eq_getElem hi', rfl, h₁, hchild, hrest⟩

end Repr

/-! ### Insertion refines insertion -/

/-- Only pages of the subtree have changed; its pages now are its old ones and
    new ones at the end of the file. -/
structure Grown (pages pages' : List BTPage) (ids ids' : List Nat) : Prop where
  length : pages.length ≤ pages'.length
  frame : ∀ q < pages.length, q ∉ ids → pages'[q]? = pages[q]?
  nodup : ids'.Nodup
  new : ∀ q ∈ ids', q ∈ ids ∨ pages.length ≤ q

/-- The result of an insertion into the pages stands for the result of the
    insertion into the tree. -/
def InsertRepr (pages : List BTPage) (d pid first next : Nat) (ids : List Nat) :
    BTNode × Option (Int × BTNode) → List BTPage × Option (Int × Nat) → Prop
  | (n, none), (pages', none) =>
    ∃ ids', Repr pages' d n pid first next ids' ∧ Grown pages pages' ids ids'
  | (n, some (sep, r)), (pages', some (sep', rpid)) =>
    sep' = sep ∧ ∃ mid ids₁ ids₂, Repr pages' d n pid first mid ids₁ ∧
      Repr pages' d r rpid mid next ids₂ ∧ Grown pages pages' ids (ids₁ ++ ids₂)
  | _, _ => False

section Insert

variable {pages : List BTPage} {d pid first next : Nat} {page last : BTPage}

theorem getElem?_set_last {pid q : Nat}
    (hq : q < pages.length) :
    (pages.set pid page ++ [last])[q]? = if q = pid then some page else pages[q]? := by
  rw [getElem?_append_left (by rwa [length_set]), getElem?_set]
  by_cases h : pid = q
  · rw [if_pos h, if_pos h.symm, if_pos (h ▸ hq)]
  · rw [if_neg h, if_neg (Ne.symm h)]

theorem getElem?_last {pid : Nat} :
    (pages.set pid page ++ [last])[pages.length]? = some last := by
  rw [getElem?_append_right (by rw [length_set]), length_set, Nat.sub_self]
  rfl

/-- A leaf after an insertion, split if it is overfull. -/
theorem leaf_split_repr (es : List (Int × Int)) {old : List (Int × Int)}
    (hpage : pages[pid]? = some (.leaf old next)) :
    InsertRepr pages 0 pid pid next [pid] (leaf_split es)
      (if es.length ≤ BT_MAX_KEYS then (pages.set pid (.leaf es next), none)
      else
        (pages.set pid (.leaf (es.take (es.length / 2)) pages.length) ++
            [.leaf (es.drop (es.length / 2)) next],
          some ((es[es.length / 2]?.map Prod.fst).getD 0, pages.length))) := by
  have hlt : pid < pages.length := (List.getElem?_eq_some_iff.mp hpage).1
  unfold leaf_split
  by_cases hfull : es.length ≤ BT_MAX_KEYS
  · rw [if_pos hfull, if_pos hfull]
    refine ⟨[pid], .leaf (List.getElem?_set_self hlt), ?_, fun q _ hq => ?_, nodup_singleton pid,
      fun q hq => .inl hq⟩
    · rw [length_set]
    · exact List.getElem?_set_ne fun h => hq (mem_singleton.mpr h.symm)
  · rw [if_neg hfull, if_neg hfull]
    refine ⟨rfl, pages.length, [pid], [pages.length], .leaf ?_, .leaf getElem?_last, ?_, ?_, ?_, ?_⟩
    · rw [getElem?_set_last hlt, if_pos rfl]
    · rw [length_append, length_set]
      exact Nat.le_add_right ..
    · intro q hq hne
      rw [getElem?_set_last hq, if_neg fun h => hne (mem_singleton.mpr h)]
    · simp [ne_of_lt hlt]
    · intro q hq
      rcases mem_append.mp hq with hq | hq
      · exact .inl hq
      · exact .inr (le_of_eq (mem_singleton.mp hq).symm)

variable {cs : List BTNode} {ids₁ ids : List Nat} {lo hi : Option Int} {c : BTNode}
  {α : Type} {pages' : List BTPage} {i : Nat} {ks : List Int}

/-- An inner node with a new separator and child, split if it is overfull. -/
theorem node_split_repr (keys : List Int) {cids ids : List Nat} (hpid : pid < pages.length)
    (hchain : ReprChain pages d cs cids first next ids) (hnot : pid ∉ ids) (hnodup : ids.Nodup) :
    InsertRepr pages (d + 1) pid first next (pid :: ids) (node_split keys cs)
      (if keys.length ≤ BT_MAX_KEYS then (pages.set pid (.node keys cids), none)
      else
        (pages.set pid (.node (keys.take (keys.length / 2)) (cids.take (keys.length / 2 + 1))) ++
            [.node (keys.drop (keys.length / 2 + 1)) (cids.drop (keys.length / 2 + 1))],
          some (keys[keys.length / 2]?.getD 0, pages.length))) := by
  have hne : ∀ q ∈ ids, q ≠ pid := fun q hq h => hnot (h ▸ hq)
  unfold node_split
  by_cases hfull : keys.length ≤ BT_MAX_KEYS
  · rw [if_pos hfull, if_pos hfull]
    refine ⟨pid :: ids, .node (getElem?_set_self hpid) (hchain.congr fun q hq => ?_), ?_,
      fun q _ hq => ?_, nodup_cons.mpr ⟨hnot, hnodup⟩, fun q hq => .inl hq⟩
    · exact getElem?_set_ne (hne q hq).symm
    · rw [length_set]
    · exact getElem?_set_ne fun h : pid = q => hq (h ▸ mem_cons_self)
  · rw [if_neg hfull, if_neg hfull]
    obtain ⟨mid, ids₁, ids₂, rfl, h₁, h₂⟩ := hchain.cut (keys.length / 2 + 1)
    have hsame : ∀ page last, ∀ q ∈ ids₁ ++ ids₂, (pages.set pid page ++ [last])[q]? = pages[q]? := by
      intro page last q hq
      rw [getElem?_set_last (hchain.lt q hq), if_neg (hne q hq)]
    -- the right half is the new last page
    refine ⟨rfl, mid, pid :: ids₁, pages.length :: ids₂, .node ?_ (h₁.congr fun q hq => ?_),
      .node getElem?_last (h₂.congr fun q hq => ?_), ?_, ?_, ?_, ?_⟩
    · rw [getElem?_set_last hpid, if_pos rfl]
    · exact hsame _ _ q (mem_append_left _ hq)
    · exact hsame _ _ q (mem_append_right _ hq)
    · rw [length_append, length_set]
      exact Nat.le_add_right ..
    · intro q hq hmem
      rw [getElem?_set_last hq, if_neg fun h : q = pid => hmem (h ▸ mem_cons_self)]
    · have hlast : pages.length ∉ ids₁ ++ ids₂ := fun h => lt_irrefl _ (hchain.lt _ h)
      have hperm : (pid :: ids₁ ++ pages.length :: ids₂).Perm
          (pages.length :: pid :: (ids₁ ++ ids₂)) := perm_middle
      rw [hperm.nodup_iff, nodup_cons, nodup_cons]
      refine ⟨fun h => ?_, hnot, hnodup⟩
      rcases mem_cons.mp h with h | h
      · exact Nat.ne_of_gt hpid h
      · exact hlast h
    · intro q hq
      rcases mem_append.mp hq with hq | hq
      · rcases mem_cons.mp hq with rfl | hq
        · exact .inl mem_cons_self
        · exact .inl (mem_cons_of_mem _ (mem_append_left _ hq))
      · rcases mem_cons.mp hq with rfl | hq
        · exact .inr le_rfl
        · exact .inl (mem_cons_of_mem _ (mem_append_right _ hq))

theorem chain_ok_length (h : ChainOk cs lo ks hi) :
    cs.length = ks.length + 1 := by
  induction ks generalizing cs lo with
  | nil =>
    cases cs with
    | nil => exact absurd h id
    | cons c cs => rw [h.1]; rfl
  | cons k ks ih =>
    cases cs with
    | nil => exact absurd h id
    | cons c cs => rw [length_cons, ih h.2.2.2, length_cons]

theorem chain_ok_child (h : ChainOk cs lo ks hi) :
    ∀ c ∈ cs, ∃ lo hi, c.Ok lo hi := by
  induction ks generalizing cs lo with
  | nil =>
    cases cs with
    | nil => exact absurd h id
    | cons c cs =>
      rw [h.1]
      intro c' hc'
      exact ⟨lo, hi, mem_singleton.mp hc' ▸ h.2⟩
  | cons k ks ih =>
    cases cs with
    | nil => exact absurd h id
    | cons c cs =>
      intro c' hc'
      rcases mem_cons.mp hc' with rfl | hc'
      · exact ⟨lo, some k, h.2.2.1⟩
      · exact ih h.2.2.2 c' hc'

/-- The insertion below child `i`. -/
theorem child_insert_eq (key val : Int) (dup : Bool) (hc : cs[i]? = some c) :
    child_insert key val dup cs i =
      (cs.take i ++ (MiniDb.node_insert key val dup c).1 :: cs.drop (i + 1),
        (MiniDb.node_insert key val dup c).2) := by
  induction cs generalizing i with
  | nil => cases hc
  | cons c₀ cs ih =>
    cases i with
    | zero =>
      cases hc
      rw [child_insert]
      rfl
    | succ i =>
      rw [child_insert, ih hc]
      rfl

theorem insertIdx_after (xs zs : List α) (y a : α) (i : Nat) (hi : xs.length = i) :
    (xs ++ y :: zs).insertIdx (i + 1) a = xs ++ y :: a :: zs := by
  subst hi
  induction xs with
  | nil => rfl
  | cons x xs ih => exact congrArg (x :: ·) ih

theorem Repr.one (h : Repr pages d c pid first next ids) :
    ReprChain pages d [c] [pid] first next ids := by
  rw [← append_nil ids]
  exact .cons h .nil

theorem take_cons_drop {xs : List α} {x : α} (h : xs[i]? = some x) :
    xs.take i ++ x :: xs.drop (i + 1) = xs := by
  obtain ⟨hi, rfl⟩ := List.getElem?_eq_some_iff.mp h
  rw [← drop_eq_getElem_cons hi, take_append_drop]

/-- A change of more pages than the subtree had. -/
theorem Grown.trans {pages₁ pages₂ : List BTPage} {ids ids₂ : List Nat}
    (hlength : pages.length ≤ pages₁.length)
    (hframe : ∀ q < pages.length, q ∉ ids → pages₁[q]? = pages[q]?)
    (hnew : ∀ q ∈ ids₁, q ∈ ids ∨ pages.length ≤ q) (h : Grown pages₁ pages₂ ids₁ ids₂) :
    Grown pages pages₂ ids ids₂ where
  length := le_trans hlength h.length
  frame q hq hmem := by
    have hmem₁ : q ∉ ids₁ := fun hq₁ => (hnew q hq₁).elim hmem fun hle =>
      lt_irrefl _ (lt_of_lt_of_le hq hle)
    rw [h.frame q (lt_of_lt_of_le hq hlength) hmem₁, hframe q hq hmem]
  nodup := h.nodup
  new q hq := by
    rcases h.new q hq with hq | hq
    · exact hnew q hq
    · exact .inr (le_trans hlength hq)

theorem InsertRepr.trans {pages₁ : List BTPage}
    {r : BTNode × Option (Int × BTNode)} {res : List BTPage × Option (Int × Nat)}
    (h : InsertRepr pages₁ d pid first next ids₁ r res) (hlength : pages.length ≤ pages₁.length)
    (hframe : ∀ q < pages.length, q ∉ ids → pages₁[q]? = pages[q]?)
    (hnew : ∀ q ∈ ids₁, q ∈ ids ∨ pages.length ≤ q) :
    InsertRepr pages d pid first next ids r res := by
  obtain ⟨n, _ | ⟨sep, right⟩⟩ := r <;> obtain ⟨pages₂, _ | ⟨sep', rpid⟩⟩ := res
  · obtain ⟨ids', hn, hg⟩ := h
    exact ⟨ids', hn, Grown.trans hlength hframe hnew hg⟩
  · exact h.elim
  · exact h.elim
  · obtain ⟨hsep, mid, ids', ids'', hn, hr, hg⟩ := h
    exact ⟨hsep, mid, ids', ids'', hn, hr, Grown.trans hlength hframe hnew hg⟩

theorem mem_around {x : α} {xs ys zs : List α} :
    x ∈ xs ++ (ys ++ zs) ↔ x ∈ xs ∨ x ∈ ys ∨ x ∈ zs := by
  rw [mem_append, mem_append]

/-- A change below a node is a change of the node's subtree, and leaves the
    node's own page alone. -/
theorem Grown.around {ids₂ ids₃ ids' : List Nat}
    (hg : Grown pages pages' ids₂ ids') (hpid : pid < pages.length)
    (hnot : pid ∉ ids₁ ++ (ids₂ ++ ids₃)) :
    (∀ q < pages.length, q ∉ pid :: (ids₁ ++ (ids₂ ++ ids₃)) → pages'[q]? = pages[q]?) ∧
      (∀ q ∈ pid :: (ids₁ ++ (ids' ++ ids₃)),
        q ∈ pid :: (ids₁ ++ (ids₂ ++ ids₃)) ∨ pages.length ≤ q) ∧ pid ∉ ids₁ ++ (ids' ++ ids₃) := by
  simp only [mem_cons, mem_around, not_or] at hnot ⊢
  refine ⟨fun q hq hmem => hg.frame q hq hmem.2.2.1, fun q hq => ?_, hnot.1, fun hq => ?_, hnot.2.2⟩
  · rcases hq with hq | hq | hq | hq
    · exact .inl (.inl hq)
    · exact .inl (.inr (.inl hq))
    · exact (hg.new q hq).imp_left fun hq => .inr (.inr (.inl hq))
    · exact .inl (.inr (.inr (.inr hq)))
  · rcases hg.new pid hq with hq | hq
    · exact hnot.2.1 hq
    · exact lt_irrefl _ (lt_of_lt_of_le hpid hq)

/-- The chain with a child and what its insertion left of it. -/
theorem Grown.chain {cids ids₂ ids₃ ids' : List Nat} {m₁ m₂ : Nat}
    {mids : List Nat} {mcs : List BTNode} (hg : Grown pages pages' ids₂ ids')
    (hnodup : (ids₁ ++ (ids₂ ++ ids₃)).Nodup)
    (hleft : ReprChain pages d (cs.take i) (cids.take i) first m₁ ids₁)
    (hmid : ReprChain pages' d mcs mids m₁ m₂ ids')
    (hright : ReprChain pages d (cs.drop (i + 1)) (cids.drop (i + 1)) m₂ next ids₃) :
    ReprChain pages' d (cs.take i ++ (mcs ++ cs.drop (i + 1)))
        (cids.take i ++ (mids ++ cids.drop (i + 1))) first next (ids₁ ++ (ids' ++ ids₃)) ∧
      (ids₁ ++ (ids' ++ ids₃)).Nodup := by
  obtain ⟨hn₁, hn₂₃, hd₁⟩ := nodup_append.mp hnodup
  obtain ⟨hn₂, hn₃, hd₂⟩ := nodup_append.mp hn₂₃
  have hnot₁ : ∀ q ∈ ids₁, q ∉ ids₂ := fun q hq hq' => hd₁ q hq q (mem_append_left _ hq') rfl
  have hnot₃ : ∀ q ∈ ids₃, q ∉ ids₂ := fun q hq hq' => hd₂ q hq' q hq rfl
  constructor
  · refine (hleft.congr fun q hq => hg.frame q (hleft.lt q hq) (hnot₁ q hq)).append (hmid.append ?_)
    exact hright.congr fun q hq => hg.frame q (hright.lt q hq) (hnot₃ q hq)
  · refine nodup_append.mpr ⟨hn₁, nodup_append.mpr ⟨hg.nodup, hn₃, ?_⟩, ?_⟩
    · rintro q hq' q' hq₃ rfl
      rcases hg.new q hq' with hq | hq
      · exact hnot₃ q hq₃ hq
      · exact lt_irrefl _ (lt_of_lt_of_le (hright.lt q hq₃) hq)
    · rintro q hq₁ q' hq' rfl
      rcases mem_append.mp hq' with hq' | hq'
      · rcases hg.new q hq' with hq | hq
        · exact hnot₁ q hq₁ hq
        · exact lt_irrefl _ (lt_of_lt_of_le (hleft.lt q hq₁) hq)
      · exact hd₁ q hq₁ q (mem_append_right _ hq') rfl

theorem node_insert_repr (key val : Int) (dup : Bool) {n : BTNode} {fuel : Nat}
    (h : Repr pages d n pid first next ids) (hnodup : ids.Nodup) (hok : n.Ok lo hi)
    (hfuel : d < fuel) :
    ∃ res, node_insert key val dup fuel pages pid = some res ∧
      InsertRepr pages d pid first next ids (MiniDb.node_insert key val dup n) res := by
  induction d generalizing n pid first next ids lo hi fuel with
  | zero =>
    obtain ⟨fuel, rfl⟩ := Nat.exists_eq_succ_of_ne_zero (Nat.ne_of_gt hfuel)
    cases h with
    | @leaf es _ _ hpage =>
      unfold node_insert MiniDb.node_insert leaf_insert
      rw [hpage]
      dsimp only
      by_cases hsame : (!dup && (es.dropWhile (·.1 < key)).head?.map Prod.fst == some key) = true
      · -- the value is replaced in place
        have hlt : pid < pages.length := (List.getElem?_eq_some_iff.mp hpage).1
        rw [if_pos hsame, if_pos hsame]
        refine ⟨_, rfl, [pid], .leaf (List.getElem?_set_self hlt), ?_, fun q _ hq => ?_,
          nodup_singleton pid, fun q hq => .inl hq⟩
        · rw [length_set]
        · exact List.getElem?_set_ne fun h => hq (mem_singleton.mpr h.symm)
      · rw [if_neg hsame, if_neg hsame]
        refine ⟨_, ?_, leaf_split_repr (es.takeWhile (·.1 < key) ++ (key, val) ::
          es.dropWhile (·.1 < key)) hpage⟩
        split <;> rfl
  | succ d ih =>
    obtain ⟨fuel, rfl⟩ := Nat.exists_eq_succ_of_ne_zero (Nat.ne_of_gt (lt_of_le_of_lt (Nat.zero_le _) hfuel))
    cases h with
    | @node _ _ _ _ keys cs cids ids hpage hchain =>
      obtain ⟨hnot, hnodup⟩ := nodup_cons.mp hnodup
      have hpid : pid < pages.length := (List.getElem?_eq_some_iff.mp hpage).1
      have hok : ChainOk cs lo keys hi := hok
      -- the child that the key belongs to
      generalize hi : (keys.takeWhile (· ≤ key)).length = i
      have hlt : i < cs.length := by
        rw [chain_ok_length hok, ← hi]
        exact Nat.lt_succ_of_le (takeWhile_sublist _).length_le
      obtain ⟨c, hc⟩ : ∃ c, cs[i]? = some c := ⟨cs[i], List.getElem?_eq_getElem hlt⟩
      obtain ⟨cid, m₁, m₂, ids₁, ids₂, ids₃, hcid, rfl, hleft, hchild, hright⟩ := hchain.around hc
      obtain ⟨lo', hi', hcok⟩ := chain_ok_child hok c (mem_of_getElem? hc)
      have hn₂ : ids₂.Nodup := (nodup_append.mp (nodup_append.mp hnodup).2.1).1
      obtain ⟨⟨pages', split⟩, hins, hrepr⟩ := ih hchild hn₂ hcok (Nat.lt_of_succ_lt_succ hfuel)
      have hpid₂ : pid ∉ ids₂ := fun hq => hnot (mem_around.mpr (.inr (.inl hq)))
      rw [MiniDb.node_insert, hi, child_insert_eq key val dup hc]
      unfold node_insert
      rw [hpage]
      dsimp only
      rw [hi, hcid]
      dsimp only
      rw [hins]
      rcases htree : MiniDb.node_insert key val dup c with ⟨c', _ | ⟨sep, r⟩⟩
      · rw [htree] at hrepr
        cases split with
        | some s => exact hrepr.elim
        | none =>
          obtain ⟨ids', hc', hg⟩ := hrepr
          obtain ⟨hchain', hnodup'⟩ := hg.chain hnodup hleft hc'.one hright
          rw [singleton_append, singleton_append, take_cons_drop hcid] at hchain'
          obtain ⟨hframe, hnew, hnot'⟩ := hg.around hpid hnot
          refine ⟨(pages', none), rfl, pid :: (ids₁ ++ (ids' ++ ids₃)), .node ?_ hchain', ?_⟩
          · rw [hg.frame pid hpid hpid₂, hpage]
          · exact ⟨hg.length, hframe, nodup_cons.mpr ⟨hnot', hnodup'⟩, hnew⟩
      · rw [htree] at hrepr
        cases split with
        | none => exact hrepr.elim
        | some s =>
          obtain ⟨sep', cr⟩ := s
          obtain ⟨rfl, mid, ids', ids'', hc', hr', hg⟩ := hrepr
          obtain ⟨hchain', hnodup'⟩ := hg.chain hnodup hleft (hc'.one.append hr'.one) hright
          obtain ⟨hframe, hnew, hnot'⟩ := hg.around hpid hnot
          have hlen : (cids.take i).length = i :=
            length_take_of_le (le_of_lt (List.getElem?_eq_some_iff.mp hcid).1)
          have hlen' : (cs.take i).length = i := length_take_of_le (le_of_lt hlt)
          have hsplit := (node_split_repr (keys.insertIdx i sep')
            (lt_of_lt_of_le hpid hg.length) hchain' hnot' hnodup').trans hg.length hframe hnew
          have hcids : cids.insertIdx (i + 1) cr = cids.take i ++ ([cid] ++ [cr] ++ cids.drop (i + 1)) := by
            conv_lhs => rw [← take_cons_drop hcid]
            exact insertIdx_after _ _ _ _ _ hlen
          dsimp only
          rw [insertIdx_after _ _ _ _ _ hlen', hcids]
          refine ⟨_, ?_, hsplit⟩
          split <;> rfl

mutual

/-- A tree has at least as many pages as levels. -/
theorem Repr.depth : ∀ {d : Nat} {n : BTNode} {pid first next : Nat} {ids : List Nat}
    {lo hi : Option Int}, Repr pages d n pid first next ids → n.Ok lo hi → d < ids.length
  | _, _, _, _, _, _, _, _, .leaf _, _ => Nat.one_pos
  | _, _, _, _, _, _, _, _, .node _ hchain, hok => Nat.succ_lt_succ (ReprChain.depth hchain hok)

theorem ReprChain.depth : ∀ {d : Nat} {cs : List BTNode} {cids : List Nat} {first next : Nat}
    {ids : List Nat} {lo hi : Option Int} {ks : List Int},
    ReprChain pages d cs cids first next ids → ChainOk cs lo ks hi → d < ids.length
  | _, _, _, _, _, _, _, _, _, .nil, hok => absurd hok id
  | _, _, _, _, _, _, _, _, _, .cons hc _, hok => by
    obtain ⟨lo, hi, hok⟩ := chain_ok_child hok _ mem_cons_self
    rw [length_append]
    exact Nat.lt_add_right _ (Repr.depth hc hok)

end

end Insert

/-! ### The leaf chain runs through the leaves -/

section Chain

variable {pages : List BTPage} {lo hi : Option Int} {cs : List BTNode} {c : BTNode}
  (right : Int → Bool) (key : Int)

mutual

def leaf_count : BTNode → Nat
  | .leaf _ => 1
  | .node _ children => chain_leaf_count children

def chain_leaf_count : List BTNode → Nat
  | [] => 0
  | c :: cs => leaf_count c + chain_leaf_count cs

end

theorem scan_chain_leaf {pid next fuel : Nat} {es r : List (Int × Int)}
    (hpage : pages[pid]? = some (.leaf es next)) (hpid : pid ≠ 0)
    (hnext : scan_chain pages fuel next = some r) :
    scan_chain pages (fuel + 1) pid = some (es ++ r) := by
  unfold scan_chain
  rw [if_neg hpid]
  dsimp only
  rw [hpage]
  dsimp only
  rw [hnext]
  rfl

mutual

theorem Repr.scan : ∀ {d : Nat} {n : BTNode} {pid first next : Nat} {ids : List Nat},
    Repr pages d n pid first next ids → 0 ∉ ids → ∀ {fuel : Nat} {r : List (Int × Int)},
    scan_chain pages fuel next = some r →
    scan_chain pages (fuel + leaf_count n) first = some (n.entries ++ r)
  | _, _, _, _, _, _, .leaf hpage, h0, _, _, hr => by
    unfold leaf_count BTNode.entries
    exact scan_chain_leaf hpage (fun h => h0 (h ▸ mem_cons_self)) hr
  | _, _, _, _, _, _, .node _ hchain, h0, _, _, hr => by
    unfold leaf_count BTNode.entries
    exact ReprChain.scan hchain (fun h => h0 (mem_cons_of_mem _ h)) hr

theorem ReprChain.scan : ∀ {d : Nat} {cs : List BTNode} {cids : List Nat} {first next : Nat}
    {ids : List Nat}, ReprChain pages d cs cids first next ids → 0 ∉ ids →
    ∀ {fuel : Nat} {r : List (Int × Int)}, scan_chain pages fuel next = some r →
    scan_chain pages (fuel + chain_leaf_count cs) first = some (chain_entries cs ++ r)
  | _, _, _, _, _, _, .nil, _, _, _, hr => by
    unfold chain_leaf_count chain_entries
    exact hr
  | _, _, _, _, _, _, .cons hc hcs, h0, _, _, hr => by
    have hrest := ReprChain.scan hcs (fun h => h0 (mem_append_right _ h)) hr
    have hall := Repr.scan hc (fun h => h0 (mem_append_left _ h)) hrest
    unfold chain_leaf_count chain_entries
    rw [append_assoc, Nat.add_comm (leaf_count _), ← Nat.add_assoc]
    exact hall

end

theorem chain_seek_eq {i : Nat}
    (hc : cs[i]? = some c) :
    chain_seek right cs i = c.seek right ++ chain_entries (cs.drop (i + 1)) := by
  induction cs generalizing i with
  | nil => cases hc
  | cons c₀ cs ih =>
    cases i with
    | zero =>
      cases hc
      rw [chain_seek]
      rfl
    | succ i =>
      rw [chain_seek, ih hc]
      rfl

theorem chain_leaf_count_drop {i : Nat} (hc : cs[i]? = some c) :
    leaf_count c + chain_leaf_count (cs.drop (i + 1)) ≤ chain_leaf_count cs := by
  induction cs generalizing i with
  | nil => cases hc
  | cons c₀ cs ih =>
    rw [chain_leaf_count]
    cases i with
    | zero =>
      cases hc
      exact le_rfl
    | succ i => exact le_trans (ih hc) (Nat.le_add_left ..)

/-- The child that a descent takes. -/
theorem chain_ok_getElem {ks : List Int}
    (h : ChainOk cs lo ks hi) (right : Int → Bool) :
    ∃ c, cs[(ks.takeWhile right).length]? = some c ∧ ∃ lo hi, c.Ok lo hi := by
  have hlt : (ks.takeWhile right).length < cs.length := by
    rw [chain_ok_length h]
    exact Nat.lt_succ_of_le (takeWhile_sublist _).length_le
  exact ⟨_, getElem?_eq_getElem hlt, chain_ok_child h _ (getElem_mem hlt)⟩

/-- A descent comes to the leaf where `seek` starts to read. -/
theorem Repr.seek {d pid first next fuel : Nat} {n : BTNode} {ids : List Nat}
    (h : Repr pages d n pid first next ids) (hok : n.Ok lo hi) (h0 : 0 ∉ ids)
    (hfuel : d < fuel) :
    ∃ leaf m, descend right pages fuel pid = some leaf ∧ m ≤ leaf_count n ∧
      ∀ {fuel : Nat} {r : List (Int × Int)}, scan_chain pages fuel next = some r →
        scan_chain pages (fuel + m) leaf = some (n.seek right ++ r) := by
  induction d generalizing n pid first next ids lo hi fuel with
  | zero =>
    obtain ⟨fuel, rfl⟩ := Nat.exists_eq_succ_of_ne_zero (Nat.ne_of_gt hfuel)
    cases h with
    | leaf hpage =>
      refine ⟨pid, 1, ?_, le_rfl, fun hr => ?_⟩
      · unfold descend
        rw [hpage]
      · unfold BTNode.seek
        exact scan_chain_leaf hpage (fun h => h0 (h ▸ mem_cons_self)) hr
  | succ d ih =>
    obtain ⟨fuel, rfl⟩ : ∃ f, fuel = f + 1 := ⟨fuel - 1, by omega⟩
    cases h with
    | @node _ _ _ _ keys cs cids ids hpage hchain =>
      obtain ⟨c, hc, lo', hi', hcok⟩ := chain_ok_getElem (show ChainOk cs lo keys hi from hok) right
      obtain ⟨cid, m₁, m₂, ids₁, ids₂, ids₃, hcid, rfl, hleft, hchild, hright⟩ := hchain.around hc
      have h0 : 0 ∉ ids₁ ++ (ids₂ ++ ids₃) := fun h => h0 (mem_cons_of_mem _ h)
      obtain ⟨leaf, m, hdesc, hm, hscan⟩ := ih hchild hcok
        (fun h => h0 (mem_around.mpr (.inr (.inl h)))) (Nat.lt_of_succ_lt_succ hfuel)
      refine ⟨leaf, m + chain_leaf_count (cs.drop ((keys.takeWhile right).length + 1)), ?_, ?_,
        fun {fuel r} hr => ?_⟩
      · unfold descend
        rw [hpage]
        dsimp only
        rw [hcid]
        exact hdesc
      · exact le_trans (Nat.add_le_add_right hm _) (chain_leaf_count_drop hc)
      · have hrest := hright.scan (fun h => h0 (mem_around.mpr (.inr (.inr h)))) hr
        have hall := hscan hrest
        rw [BTNode.seek, chain_seek_eq right hc, append_assoc, Nat.add_comm m, ← Nat.add_assoc]
        exact hall

theorem leaf_find_append (es r : List (Int × Int)) :
    find_loop key (es ++ r) =
      if (leaf_find key es).2 then (leaf_find key es).1 else (leaf_find key es).1 ++ find_loop key r := by
  induction es with
  | nil => rfl
  | cons e es ih =>
    obtain ⟨k, v⟩ := e
    rw [cons_append, find_loop, leaf_find]
    by_cases hlt : k < key
    · rw [if_pos hlt, if_pos hlt, ih]
    · rw [if_neg hlt, if_neg hlt]
      by_cases hgt : key < k
      · rw [if_pos hgt, if_pos hgt]
        rfl
      · rw [if_neg hgt, if_neg hgt, ih]
        dsimp only
        split <;> rfl

/-- Reading leaf by leaf finds what reading the whole chain finds. -/
theorem find_chain_eq {fuel pid : Nat} {es : List (Int × Int)}
    (h : scan_chain pages fuel pid = some es) : find_chain key pages fuel pid = some
    (find_loop key es) := by
  induction fuel generalizing pid es with
  | zero =>
    unfold scan_chain at h
    unfold find_chain
    split at h
    · next h0 =>
      cases h
      rw [if_pos h0]
      rfl
    · cases h
  | succ fuel ih =>
    unfold scan_chain at h
    unfold find_chain
    split at h
    · next h0 =>
      cases h
      rw [if_pos h0]
      rfl
    next h0 =>
    rw [if_neg h0]
    dsimp only at h ⊢
    split at h
    · next es₀ next hpage =>
      obtain ⟨r, hr, rfl⟩ := Option.map_eq_some_iff.mp h
      rw [leaf_find_append, ih hr]
      rcases leaf_find key es₀ with ⟨vals, _ | _⟩ <;> rfl
    · cases h

end Chain

/-! ### Deletion refines deletion -/

/-- How a walk that starts at page `start` and is to go on at page `next` ends,
    for a part of the tree that the pages `ids` stand for by `P`. -/
def DeleteRepr {α : Type} (key val : Int) (P : List BTPage → α → Prop) (pages : List BTPage)
    (ids : List Nat) (next start m : Nat) (a : α) : α × Walk → Prop
  | (a', .removed) =>
    ∃ pages', (∀ fuel, delete_chain key val pages (fuel + m) start = some (pages', true)) ∧
      P pages' a' ∧ ∀ q ∉ ids, pages'[q]? = pages[q]?
  | (a', .past) => a' = a ∧ ∀ fuel, delete_chain key val pages (fuel + m) start = some (pages, false)
  | (a', .on) => a' = a ∧ ∀ fuel, delete_chain key val pages (fuel + m) start =
      delete_chain key val pages fuel next

section Delete

variable {α β : Type} {key val : Int} {pages : List BTPage} {ids ids' : List Nat} {next start m : Nat}
  {cs : List BTNode} {c : BTNode}

/-- The part seen as a part of a larger one. -/
theorem DeleteRepr.map {P : List BTPage → α → Prop} {a : α} {r : α × Walk}
    (P' : List BTPage → β → Prop) (f : α → β) (h : DeleteRepr key val P pages ids next start m a r)
    (hP : ∀ pages' a', (∀ q ∉ ids, pages'[q]? = pages[q]?) → P pages' a' → P' pages' (f a'))
    (hsub : ∀ q ∈ ids, q ∈ ids') :
    DeleteRepr key val P' pages ids' next start m (f a) (f r.1, r.2) := by
  obtain ⟨a', _ | _ | _⟩ := r
  · obtain ⟨pages', hwalk, hp, hframe⟩ := h
    exact ⟨pages', hwalk, hP pages' a' hframe hp, fun q hq => hframe q fun h => hq (hsub q h)⟩
  · exact ⟨congrArg f h.1, h.2⟩
  · exact ⟨congrArg f h.1, h.2⟩

theorem leaf_delete_same (key val : Int) (es : List (Int × Int))
    (h : (leaf_delete key val es).2 ≠ .removed) : (leaf_delete key val es).1 = es := by
  induction es with
  | nil => rfl
  | cons e es ih =>
    obtain ⟨k, v⟩ := e
    rw [leaf_delete] at h ⊢
    split at h
    · next hlt => rw [if_pos hlt]
    next hlt =>
    rw [if_neg hlt]
    split at h
    · exact absurd rfl h
    next hne =>
    rw [if_neg hne]
    exact congrArg ((k, v) :: ·) (ih h)

theorem delete_leaf {pid : Nat} {es : List (Int × Int)}
    (hpage : pages[pid]? = some (.leaf es next)) (h0 : pid ≠ 0) :
    DeleteRepr key val (fun pages n => Repr pages 0 n pid pid next [pid]) pages [pid] next pid 1
      (.leaf es) (.leaf (leaf_delete key val es).1, (leaf_delete key val es).2) := by
  have hlt : pid < pages.length := (List.getElem?_eq_some_iff.mp hpage).1
  have hwalk : ∀ fuel, delete_chain key val pages (fuel + 1) pid =
      match leaf_delete key val es with
      | (es, .removed) => some (pages.set pid (.leaf es next), true)
      | (_, .past) => some (pages, false)
      | (_, .on) => delete_chain key val pages fuel next := by
    intro fuel
    rw [delete_chain, if_neg h0, hpage]
  rcases hdel : leaf_delete key val es with ⟨es', _ | _ | _⟩
  · refine ⟨pages.set pid (.leaf es' next), fun fuel => ?_, .leaf (List.getElem?_set_self hlt), fun q hq => ?_⟩
    · rw [hwalk, hdel]
    · exact List.getElem?_set_ne fun h => hq (mem_singleton.mpr h.symm)
  · have hsame := leaf_delete_same key val es (by rw [hdel]; nofun)
    rw [hdel] at hsame
    refine ⟨congrArg BTNode.leaf hsame, fun fuel => ?_⟩
    rw [hwalk, hdel]
  · have hsame := leaf_delete_same key val es (by rw [hdel]; nofun)
    rw [hdel] at hsame
    refine ⟨congrArg BTNode.leaf hsame, fun fuel => ?_⟩
    rw [hwalk, hdel]

/-- What a walk over a child and the chain to the right of it leaves. -/
def delete_on (cs : List BTNode) (rest : List BTNode × Walk) : BTNode × Walk → List BTNode × Walk
  | (c, .on) => (c :: rest.1, rest.2)
  | (c, w) => (c :: cs, w)

theorem chain_delete_cons (key val : Int) (seeking : Bool) (c : BTNode) (cs : List BTNode) :
    chain_delete key val seeking (c :: cs) 0 =
      delete_on cs (chain_delete key val false cs 0) (node_delete key val seeking c) := by
  rw [chain_delete]
  rcases node_delete key val seeking c with ⟨c', _ | _ | _⟩ <;> rfl

theorem delete_cons {d cid first mid m₁ m₂ : Nat} {cids : List Nat}
    {r : BTNode × Walk} (hnodup : (ids ++ ids').Nodup) (hc : Repr pages d c cid first mid ids)
    (hcs : ReprChain pages d cs cids mid next ids')
    (h₁ : DeleteRepr key val (fun pages n => Repr pages d n cid first mid ids) pages ids mid start m₁ c r)
    (h₂ : DeleteRepr key val (fun pages cs => ReprChain pages d cs cids mid next ids') pages ids' next
      mid m₂ cs (chain_delete key val false cs 0)) :
    DeleteRepr key val (fun pages cs => ReprChain pages d cs (cid :: cids) first next (ids ++ ids')) pages
      (ids ++ ids') next start (m₁ + m₂) (c :: cs)
      (delete_on cs (chain_delete key val false cs 0) r) := by
  have hapart := (nodup_append.mp hnodup).2.2
  have hfuel : ∀ fuel, fuel + (m₁ + m₂) = fuel + m₂ + m₁ := fun fuel => by omega
  obtain ⟨c', _ | _ | _⟩ := r
  · obtain ⟨pages', hwalk, hp, hframe⟩ := h₁
    refine ⟨pages', fun fuel => by rw [hfuel]; exact hwalk _, .cons hp (hcs.congr fun q hq => ?_),
      fun q hq => hframe q fun h => hq (mem_append_left _ h)⟩
    exact hframe q fun h => hapart q h q hq rfl
  · obtain ⟨rfl, hwalk⟩ := h₁
    exact ⟨rfl, fun fuel => by rw [hfuel]; exact hwalk _⟩
  · -- the walk goes on into the chain
    obtain ⟨rfl, hwalk⟩ := h₁
    unfold delete_on
    rcases hrest : chain_delete key val false cs 0 with ⟨cs', _ | _ | _⟩
    · rw [hrest] at h₂
      obtain ⟨pages', hwalk₂, hp, hframe⟩ := h₂
      refine ⟨pages', fun fuel => ?_, .cons (hc.congr fun q hq => ?_) hp,
        fun q hq => hframe q fun h => hq (mem_append_right _ h)⟩
      · rw [hfuel, hwalk, hwalk₂]
      · exact hframe q fun h => hapart q hq q h rfl
    · rw [hrest] at h₂
      refine ⟨congrArg (c' :: ·) h₂.1, fun fuel => ?_⟩
      rw [hfuel, hwalk, h₂.2]
    · rw [hrest] at h₂
      refine ⟨congrArg (c' :: ·) h₂.1, fun fuel => ?_⟩
      rw [hfuel, hwalk, h₂.2]

mutual

/-- A walk over all leaves of a subtree. -/
theorem Repr.delete : ∀ {d : Nat} {n : BTNode} {pid first next : Nat} {ids : List Nat},
    Repr pages d n pid first next ids → ids.Nodup → 0 ∉ ids →
    DeleteRepr key val (fun pages n => Repr pages d n pid first next ids) pages ids next first
      (leaf_count n) n (node_delete key val false n)
  | _, _, _, _, _, _, .leaf hpage, _, h0 => by
    rw [node_delete, leaf_count]
    exact delete_leaf hpage fun h => h0 (h ▸ mem_cons_self)
  | _, .node keys cs, pid, _, _, _, .node hpage hchain, hnodup, h0 => by
    obtain ⟨hnot, hnodup⟩ := nodup_cons.mp hnodup
    have hrec := ReprChain.delete hchain hnodup fun h => h0 (mem_cons_of_mem _ h)
    rw [node_delete, leaf_count]
    refine hrec.map _ (BTNode.node keys) (fun pages' cs' hframe hcs => Repr.node ?_ hcs) fun q hq =>
      mem_cons_of_mem _ hq
    rw [hframe pid hnot, hpage]

theorem ReprChain.delete : ∀ {d : Nat} {cs : List BTNode} {cids : List Nat} {first next : Nat}
    {ids : List Nat}, ReprChain pages d cs cids first next ids → ids.Nodup → 0 ∉ ids →
    DeleteRepr key val (fun pages cs => ReprChain pages d cs cids first next ids) pages ids next first
      (chain_leaf_count cs) cs (chain_delete key val false cs 0)
  | _, _, _, _, _, _, .nil, _, _ => by
    rw [chain_delete, chain_leaf_count]
    exact ⟨rfl, fun _ => rfl⟩
  | _, _, _, _, _, _, .cons hc hcs, hnodup, h0 => by
    obtain ⟨hn, hn', -⟩ := nodup_append.mp hnodup
    rw [chain_delete_cons, chain_leaf_count]
    exact delete_cons hnodup hc hcs (Repr.delete hc hn fun h => h0 (mem_append_left _ h))
      (ReprChain.delete hcs hn' fun h => h0 (mem_append_right _ h))

end

/-- The walk from the child that the descent takes. -/
theorem chain_delete_at (key val : Int) {i : Nat} (hc : cs[i]? = some c) :
    chain_delete key val true cs i =
      (cs.take i ++ (delete_on (cs.drop (i + 1)) (chain_delete key val false (cs.drop (i + 1)) 0)
          (node_delete key val true c)).1,
        (delete_on (cs.drop (i + 1)) (chain_delete key val false (cs.drop (i + 1)) 0)
          (node_delete key val true c)).2) := by
  induction cs generalizing i with
  | nil => cases hc
  | cons c₀ cs ih =>
    cases i with
    | zero =>
      cases hc
      rw [chain_delete_cons]
      rfl
    | succ i =>
      rw [chain_delete, ih hc]
      rfl

theorem Repr.seek_delete (key val : Int) {d pid first fuel : Nat} {n : BTNode} {lo hi : Option Int}
    (h : Repr pages d n pid first next ids) (hok : n.Ok lo hi) (hnodup : ids.Nodup) (h0 : 0 ∉ ids)
    (hfuel : d < fuel) :
    ∃ leaf m, descend (fun k => k < key) pages fuel pid = some leaf ∧ m ≤ leaf_count n ∧
      DeleteRepr key val (fun pages n => Repr pages d n pid first next ids) pages ids next leaf m n
        (node_delete key val true n) := by
  induction d generalizing n pid first next ids lo hi fuel with
  | zero =>
    obtain ⟨fuel, rfl⟩ := Nat.exists_eq_succ_of_ne_zero (Nat.ne_of_gt hfuel)
    cases h with
    | leaf hpage =>
      refine ⟨pid, 1, ?_, le_rfl, ?_⟩
      · unfold descend
        rw [hpage]
      · rw [node_delete]
        exact delete_leaf hpage fun h => h0 (h ▸ mem_cons_self)
  | succ d ih =>
    obtain ⟨fuel, rfl⟩ : ∃ f, fuel = f + 1 := ⟨fuel - 1, by omega⟩
    cases h with
    | @node _ _ _ _ keys cs cids ids hpage hchain =>
      obtain ⟨c, hc, lo', hi', hcok⟩ :=
        chain_ok_getElem (show ChainOk cs lo keys hi from hok) fun k => k < key
      obtain ⟨hnot, hnodup⟩ := nodup_cons.mp hnodup
      unfold descend
      rw [hpage, node_delete, if_pos rfl, chain_delete_at key val hc]
      dsimp only
      generalize (keys.takeWhile fun k => k < key).length = i at hc
      obtain ⟨cid, m₁, m₂, ids₁, ids₂, ids₃, hcid, rfl, hleft, hchild, hright⟩ := hchain.around hc
      have h0 : 0 ∉ ids₁ ++ (ids₂ ++ ids₃) := fun h => h0 (mem_cons_of_mem _ h)
      obtain ⟨hn₁, hn₂₃, hapart⟩ := nodup_append.mp hnodup
      obtain ⟨hn₂, hn₃, -⟩ := nodup_append.mp hn₂₃
      obtain ⟨leaf, m, hdesc, hm, hdel⟩ := ih hchild hcok hn₂
        (fun h => h0 (mem_around.mpr (.inr (.inl h)))) (Nat.lt_of_succ_lt_succ hfuel)
      have hboth := delete_cons hn₂₃ hchild hright hdel
        (hright.delete hn₃ fun h => h0 (mem_around.mpr (.inr (.inr h))))
      refine ⟨leaf, m + chain_leaf_count (cs.drop (i + 1)), ?_, ?_, ?_⟩
      · rw [hcid]
        exact hdesc
      · exact le_trans (Nat.add_le_add_right hm _) (chain_leaf_count_drop hc)
      · -- the part right of the descent, put back behind the part left of it
        have hcids : cids.take i ++ cid :: cids.drop (i + 1) = cids := take_cons_drop hcid
        have hback : ∀ pages' cs', (∀ q ∉ ids₂ ++ ids₃, pages'[q]? = pages[q]?) →
            ReprChain pages' d cs' (cid :: cids.drop (i + 1)) m₁ next (ids₂ ++ ids₃) →
            Repr pages' (d + 1) (.node keys (cs.take i ++ cs')) pid first next
              (pid :: (ids₁ ++ (ids₂ ++ ids₃))) := by
          intro pages' cs' hframe hcs
          have hchain' := (hleft.congr fun q hq => hframe q fun h => hapart q hq q h rfl).append hcs
          rw [hcids] at hchain'
          refine Repr.node ?_ hchain'
          rw [hframe pid fun h => hnot (mem_append_right _ h), hpage]
        have hnode := hboth.map
          (fun pages n => Repr pages (d + 1) n pid first next (pid :: (ids₁ ++ (ids₂ ++ ids₃))))
          (fun cs' => BTNode.node keys (cs.take i ++ cs')) hback
          fun q hq => mem_cons_of_mem pid (mem_append_right ids₁ hq)
        rw [take_cons_drop hc] at hnode
        exact hnode

end Delete

/-! ### The whole file -/

/-- The file stands for a tree in order; no page is used twice, and none is the
    meta page. -/
structure BTree.Holds (bt : BTree) (t : BTNode) (d first : Nat) (ids : List Nat) : Prop where
  repr : Repr bt.pages d t bt.root first 0 ids
  valid : t.Valid
  nodup : ids.Nodup
  zero : 0 ∉ ids
  info : bt.pages[0]? = some (.info bt.root)

section Holds

variable {bt : BTree} {t : BTNode} {d first : Nat} {ids : List Nat}

mutual

theorem Repr.leaf_count_le {pages : List BTPage} : ∀ {d : Nat} {n : BTNode} {pid first next : Nat}
    {ids : List Nat}, Repr pages d n pid first next ids → leaf_count n ≤ ids.length
  | _, _, _, _, _, _, .leaf _ => le_rfl
  | _, _, _, _, _, _, .node _ hchain => by
    rw [leaf_count]
    exact Nat.le_succ_of_le (ReprChain.leaf_count_le hchain)

theorem ReprChain.leaf_count_le {pages : List BTPage} : ∀ {d : Nat} {cs : List BTNode}
    {cids : List Nat} {first next : Nat} {ids : List Nat},
    ReprChain pages d cs cids first next ids → chain_leaf_count cs ≤ ids.length
  | _, _, _, _, _, _, .nil => le_rfl
  | _, _, _, _, _, _, .cons hc hcs => by
    rw [chain_leaf_count, length_append]
    exact Nat.add_le_add (Repr.leaf_count_le hc) (ReprChain.leaf_count_le hcs)

end

/-- The bound on the recursion is never reached. -/
theorem BTree.Holds.ids_le (h : bt.Holds t d first ids) : ids.length ≤ bt.pages.length := by
  have hsub : ids ⊆ List.range bt.pages.length := fun q hq => mem_range.mpr (h.repr.lt q hq)
  have hle := (subperm_of_subset h.nodup hsub).length_le
  rwa [length_range] at hle

theorem BTree.Holds.depth_lt (h : bt.Holds t d first ids) : d < bt.pages.length :=
  lt_of_lt_of_le (h.repr.depth h.valid) h.ids_le

theorem BTree.Holds.zero_lt (h : bt.Holds t d first ids) : 0 < bt.pages.length :=
  lt_of_le_of_lt (Nat.zero_le _) h.depth_lt

theorem Grown.zero_not_mem {pages pages' : List BTPage} {ids ids' : List Nat}
    (hg : Grown pages pages' ids ids') (h0 : 0 ∉ ids) (hpos : 0 < pages.length) : 0 ∉ ids' := by
  intro hmem
  rcases hg.new 0 hmem with hq | hq
  · exact h0 hq
  · exact lt_irrefl _ (lt_of_lt_of_le hpos hq)

/-- An insertion into the file is an insertion into the tree. -/
theorem BTree.Holds.insert_root (h : bt.Holds t d first ids) (key val : Int) (dup : Bool) :
    ∃ bt' d' ids', insert_root bt key val dup = some bt' ∧
      bt'.Holds (MiniDb.insert_root t key val dup) d' first ids' := by
  have hvalid := (h.valid.insert_root key val dup).1
  obtain ⟨⟨pages', split⟩, hins, hrepr⟩ :=
    node_insert_repr key val dup h.repr h.nodup h.valid h.depth_lt
  unfold Paged.insert_root
  unfold MiniDb.insert_root at hvalid ⊢
  rw [hins]
  rcases htree : MiniDb.node_insert key val dup t with ⟨root', _ | ⟨sep, r⟩⟩
  · rw [htree] at hrepr hvalid
    cases split with
    | some s => exact hrepr.elim
    | none =>
      obtain ⟨ids', hroot, hg⟩ := hrepr
      refine ⟨⟨pages', bt.root⟩, d, ids', rfl, hroot, hvalid, hg.nodup,
        hg.zero_not_mem h.zero h.zero_lt, ?_⟩
      rw [hg.frame 0 h.zero_lt h.zero, h.info]
  · rw [htree] at hrepr hvalid
    cases split with
    | none => exact hrepr.elim
    | some s =>
      obtain ⟨sep', right⟩ := s
      obtain ⟨rfl, mid, ids₁, ids₂, hroot, hright, hg⟩ := hrepr
      have h0 : 0 ∉ ids₁ ++ ids₂ := hg.zero_not_mem h.zero h.zero_lt
      have hpos : 0 < pages'.length := lt_of_lt_of_le h.zero_lt hg.length
      -- a new root and the changed meta page leave the two halves alone
      have hsame : ∀ q ∈ ids₁ ++ ids₂, ((pages' ++ [BTPage.node [sep'] [bt.root, right]]).set 0
          (.info pages'.length))[q]? = pages'[q]? := by
        intro q hq
        have hlt : q < pages'.length := by
          rcases mem_append.mp hq with hq | hq
          · exact hroot.lt q hq
          · exact hright.lt q hq
        rw [getElem?_set_ne fun h : 0 = q => h0 (h ▸ hq), getElem?_append_left hlt]
      have hchain := (hroot.congr fun q hq => hsame q (mem_append_left _ hq)).one.append
        (hright.congr fun q hq => hsame q (mem_append_right _ hq)).one
      refine ⟨_, d + 1, pages'.length :: (ids₁ ++ ids₂), rfl, .node ?_ hchain, hvalid,
        nodup_cons.mpr ⟨fun hmem => ?_, hg.nodup⟩, ?_, ?_⟩
      · rw [getElem?_set_ne (ne_of_lt hpos), getElem?_append_right le_rfl,
          Nat.sub_self]
        rfl
      · rcases mem_append.mp hmem with hq | hq
        · exact lt_irrefl _ (hroot.lt _ hq)
        · exact lt_irrefl _ (hright.lt _ hq)
      · intro hmem
        rcases mem_cons.mp hmem with hq | hq
        · exact ne_of_lt hpos hq
        · exact h0 hq
      · rw [getElem?_set_self]
        rw [length_append]
        exact Nat.lt_add_right _ hpos

/-- Descent and leaf chain read what `seek` reads in the tree. -/
theorem BTree.Holds.read (h : bt.Holds t d first ids) (right : Int → Bool) :
    ∃ leaf, descend right bt.pages bt.pages.length bt.root = some leaf ∧
      scan_chain bt.pages bt.pages.length leaf = some (t.seek right) := by
  obtain ⟨leaf, m, hdesc, hm, hscan⟩ := h.repr.seek right h.valid h.zero h.depth_lt
  have hle : m ≤ bt.pages.length := le_trans hm (le_trans h.repr.leaf_count_le h.ids_le)
  have hend : scan_chain bt.pages (bt.pages.length - m) 0 = some [] := by
    unfold scan_chain
    rw [if_pos rfl]
  have hread := hscan hend
  rw [Nat.sub_add_cancel hle, append_nil] at hread
  exact ⟨leaf, hdesc, hread⟩

theorem BTree.Holds.find_all (h : bt.Holds t d first ids) (key : Int) :
    btree_find_all bt key = some (MiniDb.btree_find_all t key) := by
  obtain ⟨leaf, hdesc, hread⟩ := h.read fun k => k < key
  unfold btree_find_all
  rw [hdesc]
  exact find_chain_eq key hread

mutual

theorem seek_leftmost : ∀ n : BTNode, n.seek (fun _ => false) = n.entries
  | .leaf es => by rw [BTNode.seek, BTNode.entries]
  | .node keys cs => by
    rw [BTNode.seek, BTNode.entries, takeWhile_eq_nil_iff.mpr (fun _ => Bool.false_ne_true)]
    exact chain_seek_leftmost cs

theorem chain_seek_leftmost : ∀ cs : List BTNode, chain_seek (fun _ => false) cs 0 = chain_entries cs
  | [] => by rw [chain_seek, chain_entries]
  | c :: cs => by rw [chain_seek, chain_entries, seek_leftmost c]

end

theorem BTree.Holds.scan (h : bt.Holds t d first ids) : btree_scan bt = some t.entries := by
  obtain ⟨leaf, hdesc, hread⟩ := h.read fun _ => false
  unfold btree_scan
  rw [hdesc, ← seek_leftmost t]
  exact hread

/-- A deletion from the file is a deletion from the tree; if the pair is not
    there, no page changes. -/
theorem BTree.Holds.delete_val (h : bt.Holds t d first ids) (key val : Int) :
    ∃ bt' found, btree_delete_val bt key val = some (bt', found) ∧
      bt'.Holds (MiniDb.btree_delete_val t key val) d first ids ∧
      (found = true ↔ (key, val) ∈ t.entries) ∧ (found = false → bt' = bt) := by
  obtain ⟨leaf, m, hdesc, hm, hdel⟩ :=
    Repr.seek_delete key val h.repr h.valid h.nodup h.zero h.depth_lt
  have hle : m ≤ bt.pages.length := le_trans hm (le_trans h.repr.leaf_count_le h.ids_le)
  have hvalid := (h.valid.delete_val key val).1
  have hwalk := (node_delete_ok key val true h.valid).2
  unfold btree_delete_val
  unfold MiniDb.btree_delete_val at hvalid ⊢
  rw [hdesc, Option.bind_some]
  rcases htree : node_delete key val true t with ⟨t', _ | _ | _⟩
  · rw [htree] at hdel hvalid hwalk
    obtain ⟨pages', hchain, hrepr, hframe⟩ := hdel
    obtain ⟨pre, post, hentries, -⟩ := hwalk
    have hrun := hchain (bt.pages.length - m)
    rw [Nat.sub_add_cancel hle] at hrun
    rw [hrun]
    refine ⟨⟨pages', bt.root⟩, true, rfl, ⟨hrepr, hvalid, h.nodup, h.zero, ?_⟩, ?_, nofun⟩
    · rw [hframe 0 h.zero, h.info]
    · rw [hentries]
      simp
  · rw [htree] at hdel hwalk
    obtain ⟨rfl, hchain⟩ := hdel
    have hrun := hchain (bt.pages.length - m)
    rw [Nat.sub_add_cancel hle] at hrun
    rw [hrun]
    exact ⟨bt, false, rfl, h, ⟨nofun, fun hmem => absurd hmem hwalk.2.1⟩, fun _ => rfl⟩
  · rw [htree] at hdel hwalk
    obtain ⟨rfl, hchain⟩ := hdel
    have hrun := hchain (bt.pages.length - m)
    have hend : ∀ fuel, delete_chain key val bt.pages fuel 0 = some (bt.pages, false) := by
      intro fuel
      unfold delete_chain
      rw [if_pos rfl]
    rw [Nat.sub_add_cancel hle, hend] at hrun
    rw [hrun]
    exact ⟨bt, false, rfl, h, ⟨nofun, fun hmem => absurd hmem hwalk.2⟩, fun _ => rfl⟩

end Holds

/-! ### Sequences of calls -/

open Framework

inductive BTCall where
  | insert_dup (key val : Int)
  | delete_val (key val : Int)

def BTree.call (bt : BTree) : BTCall → Option BTree
  | .insert_dup key val => btree_insert_dup bt key val
  | .delete_val key val => (btree_delete_val bt key val).map Prod.fst

/-- The multiset of pairs after a call. -/
def pairs_after (es : List (Int × Int)) : BTCall → List (Int × Int)
  | .insert_dup key val => (key, val) :: es
  | .delete_val key val => es.erase (key, val)

/-- The file stands for a tree with these pairs, in some order. -/
def BTree.Stores (bt : BTree) (es : List (Int × Int)) : Prop :=
  ∃ t d first ids, bt.Holds t d first ids ∧ t.entries.Perm es

theorem btree_open_stores : btree_open.Stores [] :=
  ⟨btree_empty, 0, 1, [1], ⟨.leaf rfl, btree_empty_valid, nodup_singleton 1, by simp, rfl⟩, .refl _⟩

variable {es : List (Int × Int)}

theorem BTree.Stores.call {bt : BTree} (h : bt.Stores es) (c : BTCall) :
    ∃ bt', bt.call c = some bt' ∧ bt'.Stores (pairs_after es c) := by
  obtain ⟨t, d, first, ids, hbt, hperm⟩ := h
  cases c with
  | insert_dup key val =>
    obtain ⟨bt', d', ids', hcall, hbt'⟩ := hbt.insert_root key val true
    refine ⟨bt', hcall, _, d', first, ids', hbt', ?_⟩
    exact (hbt.valid.insert_dup key val).2.perm.trans (hperm.cons _)
  | delete_val key val =>
    obtain ⟨bt', found, hcall, hbt', -⟩ := hbt.delete_val key val
    refine ⟨bt', ?_, _, d, first, ids, hbt', ?_⟩
    · show (btree_delete_val bt key val).map Prod.fst = some bt'
      rw [hcall]
      rfl
    · exact (hbt.valid.delete_val key val).2.trans (hperm.erase _)

theorem BTree.Stores.run {bt : BTree} (h : bt.Stores es) (calls : List BTCall) :
    ∃ bt', run BTree.call bt calls = some bt' ∧ bt'.Stores (calls.foldl pairs_after es) := by
  induction calls generalizing bt es with
  | nil => exact ⟨bt, rfl, h⟩
  | cons c calls ih =>
    obtain ⟨bt₁, hcall, h₁⟩ := h.call c
    obtain ⟨bt', hrun, h'⟩ := ih h₁
    refine ⟨bt', ?_, h'⟩
    rw [Framework.run, hcall]
    exact hrun

/-- A file that was written by any calls answers as the multiset of the pairs
    does: a lookup finds the values of its key, a scan every pair in the order
    of keys, and a deletion takes one pair out or changes nothing. -/
theorem btree_refines_multiset (calls : List BTCall) :
    ∃ bt, run BTree.call btree_open calls = some bt ∧
      (∀ key, ∃ vals, btree_find_all bt key = some vals ∧
        vals.Perm (((calls.foldl pairs_after []).filter (·.1 = key)).map Prod.snd)) ∧
      (∃ es, btree_scan bt = some es ∧ es.Perm (calls.foldl pairs_after []) ∧ Ascending es) ∧
      ∀ key val, ∃ bt' es', btree_delete_val bt key val =
          some (bt', decide ((key, val) ∈ calls.foldl pairs_after [])) ∧
        btree_scan bt' = some es' ∧ es'.Perm ((calls.foldl pairs_after []).erase (key, val)) ∧
        ((key, val) ∉ calls.foldl pairs_after [] → bt' = bt) := by
  obtain ⟨bt, hrun, t, d, first, ids, hbt, hperm⟩ := btree_open_stores.run calls
  refine ⟨bt, hrun, fun key => ?_, ?_, fun key val => ?_⟩
  · refine ⟨_, hbt.find_all key, ?_⟩
    rw [hbt.valid.find_all]
    exact (hperm.filter _).map _
  · exact ⟨_, hbt.scan, hperm, hbt.valid.sorted.1⟩
  · obtain ⟨bt', found, hdel, hbt', hfound, hsame⟩ := hbt.delete_val key val
    have hiff : found = decide ((key, val) ∈ calls.foldl pairs_after []) := by
      rw [Bool.eq_iff_iff, hfound, decide_eq_true_eq, hperm.mem_iff]
    refine ⟨bt', _, hiff ▸ hdel, hbt'.scan, ?_, fun hnot => hsame ?_⟩
    · exact (hbt.valid.delete_val key val).2.trans (hperm.erase _)
    · rw [hiff]
      exact decide_eq_false hnot

end Paged

end MiniDb
