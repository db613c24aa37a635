import MiniDb.Db.Heap

/-! # Indexes

  A B+Tree as a tree of nodes; the leaf chain is the left to right order of
  the leaves, so following `next_leaf` is reading on to the right.  Keys may
  repeat.  The LSM engine is represented by what it holds, the set of its
  (key, value) pairs in ascending order.

  An index maps a key to the addresses of the versions written with it; it
  knows nothing of visibility. -/

namespace MiniDb

def BT_MAX_KEYS : Nat := 8

inductive BTNode where
  | leaf (entries : List (Int × Int))
  | node (keys : List Int) (children : List BTNode)

/-- A fresh index is one empty leaf. -/
def btree_empty : BTNode := .leaf []

/-! ### Insertion -/

/-- What becomes of an overfull leaf. -/
def leaf_split (entries : List (Int × Int)) : BTNode × Option (Int × BTNode) :=
  if entries.length ≤ BT_MAX_KEYS then (.leaf entries, none)
  else
    let left := entries.length / 2
    (.leaf (entries.take left),
      some ((entries[left]?.map Prod.fst).getD 0, .leaf (entries.drop left)))

/-- A new entry goes before the equal keys of its leaf; without duplicates the
    value of an equal key is replaced. -/
def leaf_insert (entries : List (Int × Int)) (key val : Int) (allow_dup : Bool) :
    BTNode × Option (Int × BTNode) :=
  let before := entries.takeWhile (·.1 < key)
  let after := entries.dropWhile (·.1 < key)
  if !allow_dup && after.head?.map Prod.fst == some key then
    (.leaf (before ++ (key, val) :: after.tail), none)
  else leaf_split (before ++ (key, val) :: after)

/-- The middle key of an overfull inner node moves up. -/
def node_split (keys : List Int) (children : List BTNode) : BTNode × Option (Int × BTNode) :=
  if keys.length ≤ BT_MAX_KEYS then (.node keys children, none)
  else
    let mid := keys.length / 2
    (.node (keys.take mid) (children.take (mid + 1)),
      some (keys[mid]?.getD 0, .node (keys.drop (mid + 1)) (children.drop (mid + 1))))

mutual

/-- The node after the insertion, and the separator and right half of a split. -/
def node_insert (key val : Int) (allow_dup : Bool) : BTNode → BTNode × Option (Int × BTNode)
  | .leaf entries => leaf_insert entries key val allow_dup
  | .node keys children =>
    let i := (keys.takeWhile (· ≤ key)).length
    match child_insert key val allow_dup children i with
    | (children, none) => (.node keys children, none)
    | (children, some (sep, right)) =>
      node_split (keys.insertIdx i sep) (children.insertIdx (i + 1) right)

/-- Insert below child `i`. -/
def child_insert (key val : Int) (allow_dup : Bool) :
    List BTNode → Nat → List BTNode × Option (Int × BTNode)
  | [], _ => ([], none)
  | c :: cs, 0 =>
    match node_insert key val allow_dup c with
    | (c, split) => (c :: cs, split)
  | c :: cs, i + 1 =>
    match child_insert key val allow_dup cs i with
    | (cs, split) => (c :: cs, split)

end

def insert_root (bt : BTNode) (key val : Int) (allow_dup : Bool) : BTNode :=
  match node_insert key val allow_dup bt with
  | (root, none) => root
  | (root, some (sep, right)) => .node [sep] [root, right]

def btree_insert_dup (bt : BTNode) (key val : Int) : BTNode := insert_root bt key val true

/-! ### Reading along the leaf chain -/

mutual

/-- All entries, left to right. -/
def BTNode.entries : BTNode → List (Int × Int)
  | .leaf es => es
  | .node _ children => chain_entries children

def chain_entries : List BTNode → List (Int × Int)
  | [] => []
  | c :: cs => c.entries ++ chain_entries cs

end

mutual

/-- The entries from the leaf that the descent reaches on; `right` says for
    which separators it goes right of them. -/
def BTNode.seek (right : Int → Bool) : BTNode → List (Int × Int)
  | .leaf es => es
  | .node keys children => chain_seek right children (keys.takeWhile right).length

def chain_seek (right : Int → Bool) : List BTNode → Nat → List (Int × Int)
  | [], _ => []
  | c :: cs, 0 => c.seek right ++ chain_entries cs
  | _ :: cs, i + 1 => chain_seek right cs i

end

/-- Smaller keys are skipped; the first larger key ends the walk. -/
def find_loop (key : Int) : List (Int × Int) → List Int
  | [] => []
  | (k, v) :: es => if k < key then find_loop key es else if key < k then [] else v :: find_loop key es

/-- On an equal separator the descent goes left. -/
def btree_find_all (bt : BTNode) (key : Int) : List Int := find_loop key (bt.seek fun k => k < key)

def btree_scan (bt : BTNode) : List (Int × Int) := bt.entries

/-- On an equal separator the descent goes right. -/
def btree_seek_scan (bt : BTNode) (start : Int) : List (Int × Int) :=
  (bt.seek fun k => k ≤ start).filter fun e => !decide (e.1 < start)

/-! ### Deletion of one entry -/

/-- How a walk over some leaves ended: the pair was removed, a larger key was
    met, or the leaves ran out. -/
inductive Walk where
  | removed
  | past
  | on
  deriving DecidableEq

def leaf_delete (key val : Int) : List (Int × Int) → List (Int × Int) × Walk
  | [] => ([], .on)
  | (k, v) :: es =>
    if key < k then ((k, v) :: es, .past)
    else if k = key ∧ v = val then (es, .removed)
    else
      match leaf_delete key val es with
      | (es, w) => ((k, v) :: es, w)

mutual

/-- `seeking` while the walk has not reached its first leaf. -/
def node_delete (key val : Int) (seeking : Bool) : BTNode → BTNode × Walk
  | .leaf es =>
    match leaf_delete key val es with
    | (es, w) => (.leaf es, w)
  | .node keys children =>
    match chain_delete key val seeking children
      (if seeking then (keys.takeWhile (· < key)).length else 0) with
    | (children, w) => (.node keys children, w)

def chain_delete (key val : Int) (seeking : Bool) :
    List BTNode → Nat → List BTNode × Walk
  | [], _ => ([], .on)
  | c :: cs, 0 =>
    match node_delete key val seeking c with
    | (c, .on) =>
      match chain_delete key val false cs 0 with
      | (cs, w) => (c :: cs, w)
    | (c, w) => (c :: cs, w)
  | c :: cs, i + 1 =>
    match chain_delete key val seeking cs i with
    | (cs, w) => (c :: cs, w)

end

/-- The node structure stays; a leaf may become empty. -/
def btree_delete_val (bt : BTNode) (key val : Int) : BTNode := (node_delete key val true bt).1

/-! ### The LSM engine's content -/

/-- The tree of `Storage` is read as this list (`lsm_reads_eq`). -/
abbrev LSM := List (Int × Int)

/-- Ascending by key, then by value. -/
def pair_lt (a b : Int × Int) : Bool := a.1 < b.1 || (a.1 = b.1 && a.2 < b.2)

def lsm_put_dup (l : LSM) (key val : Int) : LSM :=
  if l.contains (key, val) then l
  else l.takeWhile (pair_lt · (key, val)) ++ (key, val) :: l.dropWhile (pair_lt · (key, val))

def lsm_delete_val (l : LSM) (key val : Int) : LSM := l.filter (· ≠ (key, val))

def lsm_find_all (l : LSM) (key : Int) : List Int := (l.filter (·.1 = key)).map Prod.snd

/-- The bounds that are present limit the scan. -/
def lsm_scan (l : LSM) (lo hi : Option Int) : List (Int × Int) :=
  l.filter fun e => lo.all (· ≤ e.1) && hi.all (e.1 ≤ ·)

/-! ### Addresses as index values -/

def rid_encode (rid : Rid) : Int := rid.page_id * 65536 + rid.slot

def rid_decode (v : Int) : Rid := ⟨(v / 65536).toNat, (v % 65536).toNat⟩

end MiniDb
