import Mathlib.Tactic.NormNum
import MiniDb.Framework.LogSteps
import MiniDb.Raft.Cluster

/-! # A node as a party of the replicated log

  `NodeRel` connects the state of a node to the replicated-log protocol: the
  node keeps the tail of its log behind the snapshot, the protocol keeps the
  whole log.  `MsgOk` says what a message on its way promises about the
  history of the protocol; history only grows, so the promise stays true
  until the message is delivered. -/

namespace MiniDb

open Framework List

instance : Termed RaftEntry := ⟨RaftEntry.term⟩

/-- Majorities of the nodes `0 … n - 1`. -/
def majorities (n : Nat) : QuorumSystem Nat where
  is_quorum := fun S => S ⊆ Finset.range n ∧ n < 2 * S.card
  meet := by
    rintro S S' ⟨hS, hcard⟩ ⟨hS', hcard'⟩
    by_contra hno
    push Not at hno
    have hdis : Disjoint S S' := Finset.disjoint_left.mpr fun x hx hx' => hno x hx hx'
    have hle := Finset.card_le_card (Finset.union_subset hS hS')
    rw [Finset.card_union_of_disjoint hdis, Finset.card_range] at hle
    omega

/-- The member mask of a cluster that never changes its membership. -/
def full_mask (n : Nat) : Nat := 2 ^ n - 1

theorem testBit_full_mask (n i : Nat) : (full_mask n).testBit i = decide (i < n) :=
  Nat.testBit_two_pow_sub_one n i

/-! ### The log behind a snapshot -/

/-- `r` keeps the entries of `L` behind its snapshot. -/
structure LogRel (r : Raft) (L : List RaftEntry) : Prop where
  base_le : r.log_base ≤ L.length
  entries : r.entries = L.drop r.log_base
  marker : r.marker.term = last_term (L.take r.log_base)

section Log

variable {r : Raft} {L : List RaftEntry}

variable (h : LogRel r L) {i : Nat}

include h

theorem LogRel.length_log : r.log.length = L.length - r.log_base + 1 := by
  simp [Raft.log, h.entries]

theorem LogRel.last_index : raft_last_log_index r = L.length := by
  have := h.base_le
  rw [raft_last_log_index, h.length_log]
  omega

/-- The entry at a logical index behind the snapshot. -/
theorem LogRel.ent (hb : r.log_base < i) (hi : i ≤ L.length) :
    L[i - 1]? = some (ent r i) := by
  have hlog : (r.log)[i - r.log_base]? = L[i - 1]? := by
    obtain ⟨k, hk⟩ : ∃ k, i - r.log_base = k + 1 := ⟨i - r.log_base - 1, by omega⟩
    rw [hk, Raft.log, List.getElem?_cons_succ, h.entries, List.getElem?_drop]
    congr 1
    omega
  unfold MiniDb.ent
  rw [hlog]
  have : i - 1 < L.length := by omega
  simp [this]

theorem LogRel.term_at (hb : r.log_base ≤ i) (hi : i ≤ L.length) :
    term_at r i = last_term (L.take i) := by
  rcases Nat.eq_or_lt_of_le hb with rfl | hlt
  · simp [MiniDb.term_at, Raft.log, h.marker]
  · have hent := h.ent hlt hi
    have heq : i - 1 + 1 = i := by omega
    rw [← heq, last_term_take hent, heq]
    rfl

theorem LogRel.last_term : raft_last_log_term r = last_term L := by
  have hlen := h.length_log
  have heq : raft_last_log_term r = MiniDb.term_at r (raft_last_log_index r) := by
    unfold raft_last_log_term MiniDb.term_at raft_last_log_index
    congr 3
    omega
  rw [heq, h.last_index, h.term_at h.base_le le_rfl, take_length]

theorem LogRel.drop (hi : r.log_base < i) :
    r.log.drop (i - r.log_base) = L.drop (i - 1) := by
  obtain ⟨k, hk⟩ : ∃ k, i - r.log_base = k + 1 := ⟨i - r.log_base - 1, by omega⟩
  rw [hk, Raft.log, drop_succ_cons, h.entries, drop_drop]
  congr 1
  omega

/-- Only the log fields matter. -/
theorem LogRel.congr {r' : Raft} (hb : r'.log_base = r.log_base) (he : r'.entries = r.entries)
    (hm : r'.marker = r.marker) : LogRel r' L where
  base_le := hb ▸ h.base_le
  entries := by rw [he, hb, h.entries]
  marker := by rw [hm, hb, h.marker]

/-- The part of the log behind the snapshot is replaced. -/
theorem LogRel.replace {L' : List RaftEntry} {es : List RaftEntry}
    (hsame : L'.take r.log_base = L.take r.log_base) (hlen : r.log_base ≤ L'.length)
    (hes : es = L'.drop r.log_base) : LogRel { r with entries := es } L' where
  base_le := hlen
  entries := hes
  marker := by
    change r.marker.term = _
    rw [hsame]
    exact h.marker

end Log

/-! ### Nodes -/

def role_of : RaftRole → Role
  | .RAFT_FOLLOWER => .follower
  | .RAFT_CANDIDATE => .candidate
  | .RAFT_LEADER => .leader

/-- How much of a cluster is followed.  A log can only make a voter refuse, so
    elections need no logs; and what is committed changes no log. -/
structure Scope where
  /-- Snapshots are taken at these indexes. -/
  compacts : Nat → Prop
  logs : Prop
  commits : Prop
  logs_of_commits : commits → logs
  /-- The snapshot of a followed log is committed, or there is none. -/
  whole : logs → commits ∨ ∀ k, compacts k → k = 0

/-- Node `f` of a cluster of `n` nodes with fixed membership plays its part in
    `p`, as far as `K` follows it. -/
structure NodeRel (n : Nat) (K : Scope) (p : Proto Nat RaftEntry) (f : Nat) (r : Raft) :
    Prop where
  id : r.id = f
  member : r.member_mask = full_mask n
  base_member : r.base_member_mask = full_mask n
  config_free : ∀ e ∈ r.entries, e.is_config = false
  term : r.current_term = p.term f
  role : role_of r.role = p.role f
  vote : r.voted_for = (p.vote (p.term f) f).map Vote.candidate
  bare : ¬K.logs → p.log f = []
  log : K.logs → LogRel r (p.log f)
  base : K.logs → K.compacts r.log_base
  base_commit : K.logs → r.log_base ≤ p.commit f
  matched : K.logs → r.role = .RAFT_LEADER → ∀ j < n, r.match_index j ≤ p.ack (p.term f) j
  next : K.logs → r.role = .RAFT_LEADER → ∀ j < n,
    1 ≤ r.next_index j ∧ r.next_index j ≤ (p.log f).length + 1
  commit : K.commits → r.commit_index = p.commit f
  last_applied : K.commits → r.last_applied = r.commit_index
  applied : K.commits → ∀ {i command}, .apply i command ∈ r.apply_ctx →
    ∃ k e, i = k + 1 ∧ Decided (majorities n) p k e ∧ e.command = command

/-- What a message on its way promises. -/
def MsgOk (n : Nat) (K : Scope) (p : Proto Nat RaftEntry) (m : RaftMsg) : Prop :=
  m.sender < n ∧
  match m.body with
  | .request_vote last_log_index last_log_term =>
      ∃ C, p.cand m.term m.sender = some C ∧
        (K.logs → C.length = last_log_index ∧ last_term C = last_log_term)
  | .request_vote_reply vote_granted => vote_granted = true →
      ∃ v, p.vote m.term m.sender = some v ∧ v.candidate = m.receiver
  | .append_entries prev_log_index prev_log_term leader_commit entries _ =>
      (∀ e ∈ entries, e.is_config = false) ∧
      (K.logs → p.leader m.term ≠ none ∧
        prev_log_index + entries.length ≤ (p.llog m.term).length ∧
        entries = ((p.llog m.term).drop prev_log_index).take entries.length ∧
        prev_log_term = last_term ((p.llog m.term).take prev_log_index)) ∧
      (K.commits → Settled (majorities n) p m.term (p.llog m.term) leader_commit)
  | .append_entries_reply success match_index _ =>
      K.logs → success = true → match_index ≤ p.ack m.term m.sender
  | .install_snapshot last_included_index last_included_term _ member_mask =>
      member_mask = full_mask n ∧
      (K.logs → p.leader m.term ≠ none ∧
        K.compacts last_included_index ∧
        last_included_term = last_term ((p.llog m.term).take last_included_index) ∧
        Settled (majorities n) p m.term (p.llog m.term) last_included_index)
  | .install_snapshot_reply match_index => K.logs → match_index ≤ p.ack m.term m.sender

/-- No leader has ever appended a configuration entry. -/
def Plain (p : Proto Nat RaftEntry) : Prop := ∀ t, ∀ e ∈ p.llog t, e.is_config = false

/-- Steps of node `f` lead from `p` to `p'`. -/
structure Moves (n f : Nat) (p p' : Proto Nat RaftEntry) : Prop where
  inv : Inv (majorities n) p'
  plain : Plain p'
  ext : Extends p p'
  term : ∀ g ≠ f, p'.term g = p.term g
  role : ∀ g ≠ f, p'.role g = p.role g
  log : ∀ g ≠ f, p'.log g = p.log g
  commit : ∀ g ≠ f, p'.commit g = p.commit g
  vote : ∀ g ≠ f, ∀ u, p'.vote u g = p.vote u g

section Stable

variable {n f : Nat} {K : Scope} {p p' p'' : Proto Nat RaftEntry} {r : Raft} {t k : Nat}

theorem Moves.refl (hinv : Inv (majorities n) p) (hplain : Plain p) : Moves n f p p where
  inv := hinv
  plain := hplain
  ext := Extends.refl p
  term := fun _ _ => rfl
  role := fun _ _ => rfl
  log := fun _ _ => rfl
  commit := fun _ _ => rfl
  vote := fun _ _ _ => rfl

theorem Moves.trans (h : Moves n f p p') (h' : Moves n f p' p'') : Moves n f p p'' where
  inv := h'.inv
  plain := h'.plain
  ext := h.ext.trans h'.ext
  term := fun g hg => (h'.term g hg).trans (h.term g hg)
  role := fun g hg => (h'.role g hg).trans (h.role g hg)
  log := fun g hg => (h'.log g hg).trans (h.log g hg)
  commit := fun g hg => (h'.commit g hg).trans (h.commit g hg)
  vote := fun g hg u => (h'.vote g hg u).trans (h.vote g hg u)

/-- The part of the log of a leader that a message shows stays where it is. -/
theorem llog_take_extends (hext : Extends p p') (hl : p.leader t ≠ none)
    (hk : k ≤ (p.llog t).length) : (p'.llog t).take k = (p.llog t).take k :=
  take_eq_of_isPrefix (hext.llog hl) hk

theorem settled_llog_extends (hinv : Inv (majorities n) p) (hext : Extends p p')
    (hl : p.leader t ≠ none) (hset : Settled (majorities n) p t (p.llog t) k) :
    Settled (majorities n) p' t (p'.llog t) k :=
  hset.extends hinv hext (Nat.le_refl t) fun _ _ _ _ _ hpre => hpre.trans (hext.llog hl)

/-- The promise of a message stays true. -/
theorem MsgOk.extends {m : RaftMsg} (h : MsgOk n K p m) (hinv : Inv (majorities n) p)
    (hext : Extends p p') : MsgOk n K p' m := by
  obtain ⟨sender, receiver, t, body⟩ := m
  obtain ⟨hs, h⟩ := h
  refine ⟨hs, ?_⟩
  cases body with
  | request_vote idx term =>
    obtain ⟨C, hC, hrest⟩ := h
    exact ⟨C, hext.cand hC, hrest⟩
  | request_vote_reply granted =>
    intro hg
    obtain ⟨v, hv, hc⟩ := h hg
    exact ⟨v, hext.vote hv, hc⟩
  | append_entries prev prev_term commit es epoch =>
    obtain ⟨hplain, hlogs, hset⟩ := h
    refine ⟨hplain, fun hK => ?_, fun hK => settled_llog_extends hinv hext
      (hlogs (K.logs_of_commits hK)).1 (hset hK)⟩
    obtain ⟨hl, hlen, hes, hterm⟩ := hlogs hK
    have hpre : (p.llog t).length ≤ (p'.llog t).length := (hext.llog hl).length_le
    refine ⟨hext.elected hl, le_trans hlen hpre, ?_, ?_⟩
    · show es = ((p'.llog t).drop prev).take es.length
      rw [take_drop, llog_take_extends hext hl hlen, ← take_drop]
      exact hes
    · show prev_term = last_term ((p'.llog t).take prev)
      rw [llog_take_extends hext hl (le_trans (Nat.le_add_right _ _) hlen)]
      exact hterm
  | append_entries_reply success m epoch =>
    intro hK hsucc
    exact le_trans (h hK hsucc) (hext.ack _ _)
  | install_snapshot idx term value mask =>
    refine ⟨h.1, fun hK => ?_⟩
    obtain ⟨hl, hbase, hterm, hset⟩ := h.2 hK
    refine ⟨hext.elected hl, hbase, ?_, settled_llog_extends hinv hext hl hset⟩
    show term = last_term ((p'.llog t).take idx)
    rw [llog_take_extends hext hl hset.le_length]
    exact hterm
  | install_snapshot_reply m => exact fun hK => le_trans (h hK) (hext.ack _ _)

/-- A node is not affected by the steps of another one. -/
theorem NodeRel.other {g : Nat} (h : NodeRel n K p g r) (hinv : Inv (majorities n) p)
    (hm : Moves n f p p') (hg : g ≠ f) : NodeRel n K p' g r where
  __ := h
  term := by rw [hm.term g hg, h.term]
  role := by rw [hm.role g hg, h.role]
  vote := by rw [hm.term g hg, hm.vote g hg, h.vote]
  bare := by rw [hm.log g hg]; exact h.bare
  log := by rw [hm.log g hg]; exact h.log
  base_commit := by rw [hm.commit g hg]; exact h.base_commit
  matched := fun hK hl j hj => by
    rw [hm.term g hg]
    exact le_trans (h.matched hK hl j hj) (hm.ext.ack _ _)
  next := by rw [hm.log g hg]; exact h.next
  commit := by rw [hm.commit g hg]; exact h.commit
  applied := fun hK _ _ ha => by
    obtain ⟨k, e, hi, hd, hc⟩ := h.applied hK ha
    exact ⟨k, e, hi, hd.extends hinv hm.ext, hc⟩

end Stable

end MiniDb
