import Mathlib.Tactic.IntervalCases
import MiniDb.Raft.Relation

/-! # The calls of a node are steps of the protocol

  `NodeCall` says what one call on node `f` does: the protocol moves from `p` to
  some `p'` by steps of `f` alone, the new state of the node is related to
  `p'`, and the messages sent keep their promises there.  One lemma per
  function of the node; elections and replication have modules of their own. -/

namespace MiniDb

open Framework List Function Option

/-! ### Masks, peers and loops -/

theorem mask_count_full_mask {n : Nat} (hn : n ≤ RAFT_MAX_NODES) : mask_count (full_mask n) = n := by
  unfold RAFT_MAX_NODES at hn
  interval_cases n <;> decide

variable {r : Raft}

theorem majority_full_mask {n : Nat} (hn : n ≤ RAFT_MAX_NODES)
    (hr : r.member_mask = full_mask n) : majority r = n / 2 + 1 := by
  rw [majority, member_count, hr, mask_count_full_mask hn]

theorem raft_is_member_iff {n i : Nat} (hr : r.member_mask = full_mask n) :
    raft_is_member r i = true ↔ i < n := by
  rw [raft_is_member, hr, testBit_full_mask, decide_eq_true_iff]

/-- The members with a property, counted. -/
theorem members_card {n : Nat} (hn : n ≤ RAFT_MAX_NODES)
    (hr : r.member_mask = full_mask n) (P : Nat → Bool) :
    (List.range RAFT_MAX_NODES).countP (fun i => raft_is_member r i && P i) =
      ((Finset.range n).filter fun i => P i = true).card := by
  have hcount : (List.range RAFT_MAX_NODES).countP (fun i => raft_is_member r i && P i) =
      ((Finset.range RAFT_MAX_NODES).filter fun i => (raft_is_member r i && P i) = true).card := by
    rw [countP_eq_length_filter]
    show _ = ((List.range RAFT_MAX_NODES).filter fun i => decide (_ = true)).length
    simp only [Bool.decide_eq_true]
  rw [hcount]
  congr 1
  ext i
  simp only [Finset.mem_filter, Finset.mem_range, Bool.and_eq_true, raft_is_member_iff hr]
  constructor
  · rintro ⟨-, hi, hk⟩
    exact ⟨hi, hk⟩
  · rintro ⟨hi, hk⟩
    exact ⟨lt_of_lt_of_le hi hn, hi, hk⟩

/-- The members that have reached `k`. -/
theorem acked_by_card {n k : Nat} (hn : n ≤ RAFT_MAX_NODES)
    (hr : r.member_mask = full_mask n) :
    acked_by r k = ((Finset.range n).filter fun i => k ≤ r.match_index i).card := by
  rw [acked_by, members_card hn hr]
  simp only [decide_eq_true_iff]

variable {out : List RaftMsg}

theorem mem_push_msg {m x : RaftMsg} (h : x ∈ push_msg out m) : x ∈ out ∨ x = m := by
  unfold push_msg at h
  split at h
  · simpa using h
  · exact .inl h

/-- What holds of every message sent to one peer holds of all. -/
theorem for_peers_all {send : Nat → List RaftMsg → List RaftMsg} {P : RaftMsg → Prop}
    (hsend : ∀ i out, i ≠ r.id → raft_is_member r i = true → (∀ m ∈ out, P m) →
      ∀ m ∈ send i out, P m) (hout : ∀ m ∈ out, P m) : ∀ m ∈ for_peers r send out, P m := by
  unfold for_peers
  -- by induction on the peers that are left
  generalize List.range RAFT_MAX_NODES = peers
  induction peers generalizing out with
  | nil => exact hout
  | cons i peers ih =>
    rw [foldl_cons]
    by_cases hi : i ≠ r.id ∧ raft_is_member r i = true
    · rw [if_pos hi]
      exact ih (hsend i out hi.1 hi.2 hout)
    · rw [if_neg hi]
      exact ih hout

/-- The calls for the entries `es`, which come after index `k`, without those that `skip` names. -/
def callbacks (skip : RaftEntry → Bool) (k : Nat) (es : List RaftEntry) : List Applied :=
  (es.zipIdx (k + 1)).filterMap fun e => if skip e.1 then none else some (.apply e.2 e.1.command)

theorem callbacks_cons (skip : RaftEntry → Bool) (k : Nat) (e : RaftEntry) (es : List RaftEntry) :
    callbacks skip k (e :: es) =
      (if skip e then [] else [.apply (k + 1) e.command]) ++ callbacks skip (k + 1) es := by
  cases hskip : skip e <;> simp [callbacks, zipIdx_cons, hskip]

theorem mem_callbacks {skip : RaftEntry → Bool} {k : Nat} {es : List RaftEntry} {a : Applied}
    (ha : a ∈ callbacks skip k es) :
    ∃ i e, k < i ∧ es[i - (k + 1)]? = some e ∧ a = .apply i e.command := by
  obtain ⟨⟨e, i⟩, hmem, hsome⟩ := mem_filterMap.mp ha
  obtain ⟨hlt, he⟩ := mk_mem_zipIdx_iff_le_and_getElem?_sub.mp hmem
  obtain ⟨-, hsome⟩ := ite_none_left_eq_some.mp hsome
  exact ⟨i, e, hlt, he, (some.inj hsome).symm⟩

/-- `apply_committed` moves `last_applied` and calls the callback for the entries it passes
    that are no no-ops. -/
theorem apply_loop_eq (k : Nat) (r : Raft) : apply_loop k r = { r with
    last_applied := r.last_applied + k
    apply_ctx := r.apply_ctx ++ callbacks RaftEntry.is_noop r.last_applied
      ((range' (r.last_applied + 1) k).map (ent r)) } := by
  induction k generalizing r with
  | zero => simp [apply_loop, callbacks]
  | succ k ih =>
    have hlast : r.last_applied + (k + 1) = r.last_applied + 1 + k := by omega
    rw [hlast, range'_succ, map_cons, callbacks_cons]
    by_cases hnoop : (ent r (r.last_applied + 1)).is_noop = true
    · rw [if_pos hnoop]
      exact (congrArg (apply_loop k) (if_pos hnoop)).trans (ih _)
    · rw [if_neg hnoop, ← append_assoc]
      exact (congrArg (apply_loop k) (if_neg hnoop)).trans (ih _)

theorem apply_loop_spec (k : Nat) (r : Raft) :
    ∃ calls, apply_loop k r =
        { r with last_applied := r.last_applied + k, apply_ctx := r.apply_ctx ++ calls } ∧
      ∀ a ∈ calls, ∃ i, r.last_applied < i ∧ i ≤ r.last_applied + k ∧
        a = .apply i (ent r i).command := by
  refine ⟨_, apply_loop_eq k r, fun a ha => ?_⟩
  obtain ⟨i, e, hlt, he, rfl⟩ := mem_callbacks ha
  obtain ⟨j, hj, rfl⟩ := map_eq_some_iff.mp (getElem?_map (f := ent r) ▸ he)
  obtain ⟨hjk, rfl⟩ := List.getElem?_eq_some_iff.mp hj
  rw [length_range'] at hjk
  have hi : (range' (r.last_applied + 1) k)[i - (r.last_applied + 1)] = i := by
    rw [getElem_range']
    omega
  exact ⟨i, hlt, by omega, by rw [hi]⟩

/-! ### Ballots in the network -/

/-- The vote a message asks for or grants: voter, candidate and term. -/
def ballot_of (m : RaftMsg) : Option (Nat × Nat × Nat) :=
  match m.body with
  | .request_vote _ _ => some (m.receiver, m.sender, m.term)
  | .request_vote_reply true => some (m.sender, m.receiver, m.term)
  | _ => none

def ballots (net : List RaftMsg) : List (Nat × Nat × Nat) := net.filterMap ballot_of

theorem ballots_append (net out : List RaftMsg) : ballots (net ++ out) = ballots net ++ ballots out :=
  filterMap_append

theorem ballots_tail (msg : RaftMsg) (rest : List RaftMsg) :
    (ballots rest).Sublist (ballots (msg :: rest)) :=
  (sublist_cons_self msg rest).filterMap ballot_of

theorem ballots_eq_nil (h : ∀ m ∈ out, ballot_of m = none) : ballots out = [] := by
  unfold ballots
  rw [filterMap_eq_nil_iff]
  exact h

theorem ballot_of_send_append_entries {i : Nat} (hout : ∀ m ∈ out, ballot_of m = none) :
    ∀ m ∈ send_append_entries r i out, ballot_of m = none := by
  intro m hm
  unfold send_append_entries send_install_snapshot at hm
  split at hm <;> rcases mem_push_msg hm with hm | rfl
  · exact hout m hm
  · rfl
  · exact hout m hm
  · rfl

/-- Heartbeats carry no ballots. -/
theorem ballots_heartbeat (r r' : Raft) : ballots (for_peers r (send_append_entries r') []) = [] :=
  ballots_eq_nil (for_peers_all (fun _ _ _ _ hout => ballot_of_send_append_entries hout) (by simp))

/-- A candidate asks every peer once. -/
theorem ballots_request_vote (r : Raft) :
    (ballots (for_peers r (send_request_vote r) [])).Sublist
      (((List.range RAFT_MAX_NODES).filter (· ≠ r.id)).map fun i => (i, r.id, r.current_term)) := by
  have aux : ∀ (peers : List Nat) (out : List RaftMsg),
      (ballots (peers.foldl (fun out i => if i ≠ r.id ∧ raft_is_member r i = true then
        send_request_vote r i out else out) out)).Sublist
        (ballots out ++ (peers.filter (· ≠ r.id)).map fun i => (i, r.id, r.current_term)) := by
    intro peers
    induction peers with
    | nil => intro out; simp
    | cons i peers ih =>
      intro out
      rw [foldl_cons]
      refine (ih _).trans ?_
      by_cases hi : i ≠ r.id ∧ raft_is_member r i = true
      · rw [if_pos hi, filter_cons_of_pos (by simpa using hi.1), map_cons]
        unfold send_request_vote push_msg
        split
        · rw [ballots_append, append_assoc]
          exact .refl _
        · exact .append_left (sublist_cons_self _ _) _
      · rw [if_neg hi]
        refine .append_left (.map _ ?_) _
        exact (sublist_cons_self i peers).filter _
  have hall := aux (List.range RAFT_MAX_NODES) []
  exact hall

/-! ### Calls -/

/-- Node `f` in state `r`, in a cluster whose history is `p`. -/
structure Party (n : Nat) (K : Scope) (p : Proto Nat RaftEntry) (f : Nat) (r : Raft) : Prop
    extends NodeRel n K p f r where
  inv : Inv (majorities n) p
  plain : Plain p
  lt : f < n
  small : n ≤ RAFT_MAX_NODES

/-- A candidate after the call was the same candidate before it. -/
def KeepsBallot (r r' : Raft) : Prop :=
  r'.role = .RAFT_CANDIDATE → r.role = .RAFT_CANDIDATE ∧ r'.current_term = r.current_term ∧
    r'.votes_granted = r.votes_granted

theorem KeepsBallot.refl (r : Raft) : KeepsBallot r r := fun h => ⟨h, rfl, rfl⟩

theorem KeepsBallot.trans {r r' r'' : Raft} (h : KeepsBallot r r') (h' : KeepsBallot r' r'') :
    KeepsBallot r r'' := by
  intro hrole
  obtain ⟨hrole', hterm', hvotes'⟩ := h' hrole
  obtain ⟨hrole, hterm, hvotes⟩ := h hrole'
  exact ⟨hrole, hterm'.trans hterm, hvotes'.trans hvotes⟩

/-- A call takes node `f` from `r` to `r'` and sends `out`. -/
structure NodeCall (n : Nat) (K : Scope) (p p' : Proto Nat RaftEntry) (f : Nat) (r : Raft)
    (res : Raft × List RaftMsg) : Prop where
  moves : Moves n f p p'
  party : Party n K p' f res.1
  msgs : ∀ m ∈ res.2, MsgOk n K p' m
  ballot : KeepsBallot r res.1

section Steps

variable {n f : Nat} {K : Scope} {p p' p'' : Proto Nat RaftEntry} {r : Raft}

variable (h : Party n K p f r) {r' : Raft} {L : List RaftEntry}

include h

/-- The node does nothing the protocol sees. -/
theorem Party.stay : Moves n f p p := Moves.refl h.inv h.plain

theorem Party.id_lt : r.id < n := h.id ▸ h.lt

theorem Party.idle : NodeCall n K p p f r (r, []) :=
  ⟨h.stay, h, by simp, KeepsBallot.refl r⟩

omit h in
/-- One call after another that has sent nothing. -/
theorem NodeCall.andThen {res : Raft × List RaftMsg} (h : NodeCall n K p p' f r (r', []))
    (h' : NodeCall n K p' p'' f r' res) : NodeCall n K p p'' f r res :=
  ⟨h.moves.trans h'.moves, h'.party, h'.msgs, h.ballot.trans h'.ballot⟩

omit h in
/-- A call that has sent nothing sends one message. -/
theorem NodeCall.send {m : RaftMsg} (h : NodeCall n K p p' f r (r', []))
    (hm : MsgOk n K p' m) : NodeCall n K p p' f r (r', [m]) :=
  ⟨h.moves, h.party, by simpa using hm, h.ballot⟩

omit h in
/-- A node that keeps its log keeps its connection to it. -/
theorem NodeRel.keep_log (h : NodeRel n K p f r) (hb : r'.log_base = r.log_base)
    (he : r'.entries = r.entries) (hm : r'.marker = r.marker) (hK : K.logs) : LogRel r' (p.log f) :=
  (h.log hK).congr hb he hm

/-- If logs are not followed, a call may do to them what it likes. -/
theorem Party.unlogged (hK : ¬K.logs) (hfree : ∀ e ∈ r'.entries, e.is_config = false)
    (hsame : (r'.id, r'.member_mask, r'.base_member_mask, r'.current_term, r'.role, r'.voted_for,
      r'.votes_granted) = (r.id, r.member_mask, r.base_member_mask, r.current_term, r.role,
      r.voted_for, r.votes_granted)) : NodeCall n K p p f r (r', []) := by
  simp only [Prod.mk.injEq] at hsame
  obtain ⟨hid, hmem, hbase, hterm, hrole, hvoted, hvotes⟩ := hsame
  have hno : ¬K.commits := fun hc => hK (K.logs_of_commits hc)
  refine ⟨h.stay, { h with
    id := hid.trans h.id
    member := hmem.trans h.member
    base_member := hbase.trans h.base_member
    config_free := hfree
    term := hterm.trans h.term
    role := hrole ▸ h.role
    vote := hvoted.trans h.vote
    log := fun hl => absurd hl hK
    base := fun hl => absurd hl hK
    base_commit := fun hl => absurd hl hK
    matched := fun hl => absurd hl hK
    next := fun hl => absurd hl hK
    commit := fun hc => absurd hc hno
    last_applied := fun hc => absurd hc hno
    applied := fun hc => absurd hc hno }, by simp, fun hc => ⟨hrole ▸ hc, hterm, hvotes⟩⟩

omit h in
/-- Entries of a log that leaders back are not configuration entries. -/
theorem Plain.of_backed (hplain : Plain p) (hL : Backed p L) :
    ∀ e ∈ L, e.is_config = false := by
  intro e he
  obtain ⟨i, hi⟩ := List.getElem?_of_mem he
  obtain ⟨-, -, hpre⟩ := hL i e hi
  refine hplain _ e (hpre.subset (mem_of_getElem? (i := i) ?_))
  rw [List.getElem?_take_of_lt (Nat.lt_succ_self i)]
  exact hi

theorem Party.advance {u : Nat} (hu : p.term f < u) :
    Moves n f p (p.advance f u) where
  inv := h.inv.advance hu
  plain := h.plain
  ext := extends_advance hu
  term := fun g hg => by simp [Proto.advance, upd_apply, hg]
  role := fun g hg => by simp [Proto.advance, upd_apply, hg]
  log := fun _ _ => rfl
  commit := fun _ _ => rfl
  vote := fun _ _ _ => rfl

theorem Party.cast {c : Nat} {C : List RaftEntry} (hfree : p.vote (p.term f) f = none)
    (hc : p.cand (p.term f) c = some C) (hup : UpToDate C (p.log f)) :
    Moves n f p (p.cast f c) where
  inv := h.inv.cast hfree hc hup
  plain := h.plain
  ext := extends_cast hfree
  term := fun _ _ => rfl
  role := fun _ _ => rfl
  log := fun _ _ => rfl
  commit := fun _ _ => rfl
  vote := fun g hg u => by simp [Proto.cast, upd2_apply, hg]

theorem Party.stand : Moves n f p (p.stand f) where
  inv := h.inv.stand f
  plain := h.plain
  ext := extends_stand h.inv f
  term := fun g hg => by simp [Proto.stand, upd_apply, hg]
  role := fun g hg => by simp [Proto.stand, upd_apply, hg]
  log := fun _ _ => rfl
  commit := fun _ _ => rfl
  vote := fun g hg u => by simp [Proto.stand, upd2_apply, hg]

theorem Party.elect {S : Finset Nat} (hrole : p.role f = .candidate)
    (hS : (majorities n).is_quorum S)
    (hvotes : ∀ g ∈ S, ∃ v, p.vote (p.term f) g = some v ∧ v.candidate = f) :
    Moves n f p (p.elect f) where
  inv := h.inv.elect hrole hS hvotes
  plain := by
    intro t e he
    simp only [Proto.elect, upd_apply] at he
    split at he
    · exact h.plain.of_backed (h.inv.log_backed f) e he
    · exact h.plain t e he
  ext := extends_elect h.inv (h.inv.vacant_of_votes hrole hS hvotes)
  term := fun _ _ => rfl
  role := fun g hg => by simp [Proto.elect, upd_apply, hg]
  log := fun _ _ => rfl
  commit := fun _ _ => rfl
  vote := fun _ _ _ => rfl

variable {e : RaftEntry} {k : Nat}

theorem Party.append (hrole : p.role f = .leader) (he : e.term = p.term f)
    (hconf : e.is_config = false) : Moves n f p (p.append f e) where
  inv := h.inv.append hrole he
  plain := by
    intro t e' he'
    simp only [Proto.append, upd_apply] at he'
    split at he'
    · rcases mem_append.mp he' with he' | he'
      · exact h.plain.of_backed (h.inv.log_backed f) e' he'
      · rw [mem_singleton.mp he']
        exact hconf
    · exact h.plain t e' he'
  ext := extends_append h.inv hrole
  term := fun _ _ => rfl
  role := fun _ _ => rfl
  log := fun g hg => by simp [Proto.append, upd_apply, hg]
  commit := fun _ _ => rfl
  vote := fun _ _ _ => rfl

theorem Party.accept {m : Nat} (hl : p.leader (p.term f) ≠ none)
    (hm : m ≤ (p.llog (p.term f)).length) : Moves n f p (p.accept f m) where
  inv := h.inv.accept hl hm
  plain := h.plain
  ext := extends_accept
  term := fun _ _ => rfl
  role := fun g hg => by simp [Proto.accept, upd_apply, hg]
  log := fun g hg => by simp [Proto.accept, upd_apply, hg]
  commit := fun _ _ => rfl
  vote := fun _ _ _ => rfl

theorem Party.set_commit (hk : Settled (majorities n) p (p.term f) (p.log f) k) :
    Moves n f p (p.set_commit f k) where
  inv := h.inv.set_commit hk
  plain := h.plain
  ext := extends_set_commit
  term := fun _ _ => rfl
  role := fun _ _ => rfl
  log := fun _ _ => rfl
  commit := fun g hg => by simp [Proto.set_commit, upd_apply, hg]
  vote := fun _ _ _ => rfl

theorem Party.restart (hk : k ≤ p.commit f) :
    Moves n f p (p.restart f k) where
  inv := h.inv.restart hk
  plain := h.plain
  ext := extends_restart
  term := fun _ _ => rfl
  role := fun g hg => by simp [Proto.restart, upd_apply, hg]
  log := fun _ _ => rfl
  commit := fun g hg => by simp [Proto.restart, upd_apply, hg]
  vote := fun _ _ _ => rfl

/-- What was applied stays decided. -/
theorem Party.applied_extends (hext : Extends p p') (hK : K.commits) {i : Nat} {command : Int}
    (ha : .apply i command ∈ r.apply_ctx) :
    ∃ k e, i = k + 1 ∧ Decided (majorities n) p' k e ∧ e.command = command := by
  obtain ⟨k, e, hi, hd, hc⟩ := h.applied hK ha
  exact ⟨k, e, hi, hd.extends h.inv hext, hc⟩

/-! ### Roles -/

theorem Party.become_follower {u : Nat} (hu : r.current_term < u) :
    NodeCall n K p (p.advance f u) f r (become_follower r u, []) := by
  have hu' : p.term f < u := h.term ▸ hu
  have hm := h.advance hu'
  have hfree : p.vote u f = none := by
    -- nobody has voted in a term it has not reached
    by_contra hne
    obtain ⟨v, hv⟩ := ne_none_iff_exists'.mp hne
    have := h.inv.vote_le hv
    omega
  refine ⟨hm, { h with
    term := ?_
    role := ?_
    log := h.keep_log rfl rfl rfl
    vote := ?_
    matched := nofun
    next := nofun
    applied := h.applied_extends hm.ext
    inv := hm.inv
    plain := hm.plain }, by simp, nofun⟩
  · show u = upd p.term f u f
    rw [upd_self]
  · show Role.follower = upd p.role f .follower f
    rw [upd_self]
  · show none = (p.vote (upd p.term f u f) f).map Vote.candidate
    rw [upd_self, hfree]
    rfl

omit h in
theorem le_step_down (r : Raft) (u : Nat) : u ≤ (step_down_if_higher r u).current_term := by
  unfold step_down_if_higher
  split
  · exact Nat.le_refl u
  · omega

theorem Party.step_down (u : Nat) : ∃ p', NodeCall n K p p' f r (step_down_if_higher r u, []) := by
  unfold step_down_if_higher
  by_cases hu : r.current_term < u
  · rw [if_pos hu]
    exact ⟨_, h.become_follower hu⟩
  · rw [if_neg hu]
    exact ⟨p, h.idle⟩

/-- A node that hears from the leader of its term follows it. -/
theorem Party.follow :
    NodeCall n K p (p.restart f (p.commit f)) f r
      ({ r with role := .RAFT_FOLLOWER, election_elapsed := 0 }, []) := by
  have hm := h.restart (Nat.le_refl (p.commit f))
  refine ⟨hm, { h with
    role := ?_
    log := h.keep_log rfl rfl rfl
    base_commit := ?_
    commit := ?_
    matched := nofun
    next := nofun
    applied := h.applied_extends hm.ext
    inv := hm.inv
    plain := hm.plain }, by simp, nofun⟩
  · show Role.follower = upd p.role f .follower f
    rw [upd_self]
  · show K.logs → r.log_base ≤ upd p.commit f (p.commit f) f
    rw [upd_self]
    exact h.base_commit
  · show K.commits → r.commit_index = upd p.commit f (p.commit f) f
    rw [upd_self]
    exact h.commit

theorem Party.raft_crash_restart : ∃ p', NodeCall n K p p' f r (raft_crash_restart r, []) := by
  -- a followed log comes back with its snapshot committed
  obtain ⟨k, hk, hbase⟩ : ∃ k ≤ p.commit f, K.logs → k = r.log_base := by
    by_cases hK : K.logs
    · exact ⟨_, h.base_commit hK, fun _ => rfl⟩
    · exact ⟨0, Nat.zero_le _, fun hl => absurd hl hK⟩
  have hm := h.restart hk
  have hcommit : (p.restart f k).commit f = k := upd_self _ _ _
  refine ⟨_, hm, { h with
    role := ?_
    log := h.keep_log rfl rfl rfl
    base_commit := fun hK => by rw [hcommit, hbase hK]; exact le_rfl
    commit := fun hK => by rw [hcommit, hbase (K.logs_of_commits hK)]; rfl
    last_applied := fun _ => rfl
    matched := nofun
    next := nofun
    applied := h.applied_extends hm.ext
    inv := hm.inv
    plain := hm.plain }, by simp, nofun⟩
  show Role.follower = upd p.role f .follower f
  rw [upd_self]

/-! ### Committing -/

/-- The commit index moves up to `k`, and the callback sees the new entries. -/
theorem Party.commit_apply (pending : Option Nat) (hk : K.commits → r.commit_index ≤ k)
    (hset : K.commits → Settled (majorities n) p (p.term f) (p.log f) k) :
    ∃ p', NodeCall n K p p' f r
      (apply_committed { r with commit_index := k, pending_config_index := pending }, []) := by
  obtain ⟨calls, heq, hcalls⟩ := apply_loop_spec (k - r.last_applied)
    { r with commit_index := k, pending_config_index := pending }
  have happ : apply_committed { r with commit_index := k, pending_config_index := pending } = _ := heq
  rw [happ]
  by_cases hK : K.commits
  swap
  · exact ⟨p, h.stay, { h with
      log := h.keep_log rfl rfl rfl
      commit := fun hc => absurd hc hK
      last_applied := fun hc => absurd hc hK
      applied := fun hc => absurd hc hK }, by simp, KeepsBallot.refl r⟩
  have hL := K.logs_of_commits hK
  have hm := h.set_commit (hset hK)
  have hset' : Settled (majorities n) (p.set_commit f k) (p.term f) (p.log f) k :=
    (hset hK).extends_same h.inv hm.ext le_rfl
  have hcommit : (p.set_commit f k).commit f = k := upd_self _ _ _
  have hlast := h.last_applied hK
  have hbase : r.log_base ≤ r.commit_index := h.commit hK ▸ h.base_commit hL
  have hk := hk hK
  refine ⟨_, hm, { h with
    log := h.keep_log rfl rfl rfl
    base_commit := fun _ => by rw [hcommit]; exact le_trans hbase hk
    commit := fun _ => hcommit.symm
    last_applied := fun _ => ?_
    applied := ?_
    inv := hm.inv
    plain := hm.plain }, by simp, KeepsBallot.refl r⟩
  · show r.last_applied + (k - r.last_applied) = k
    omega
  · intro _ i command ha
    rcases mem_append.mp ha with ha | ha
    · exact h.applied_extends hm.ext hK ha
    · -- a new call: its entry lies in the settled part of the log
      obtain ⟨j, hlo, hhi, hj⟩ := hcalls _ ha
      cases hj
      have hlo' : r.last_applied < i := hlo
      have hhi' : i ≤ r.last_applied + (k - r.last_applied) := hhi
      have hlen := (hset hK).le_length
      have hent := (h.log hL).ent (i := i) (by omega) (by omega)
      exact ⟨i - 1, ent r i, by omega, hset'.decided (by omega) hent, rfl⟩

omit h in
theorem apply_committed_frame (r : Raft) :
    (apply_committed r).role = r.role ∧ (apply_committed r).id = r.id ∧
      (apply_committed r).member_mask = r.member_mask := by
  obtain ⟨calls, heq, -⟩ := apply_loop_spec (r.commit_index - r.last_applied) r
  rw [apply_committed, heq]
  exact ⟨rfl, rfl, rfl⟩

variable (hl : r.role = .RAFT_LEADER) {out : List RaftMsg}

include hl

theorem Party.leads : p.leader (p.term f) = some f ∧ p.llog (p.term f) = p.log f := by
  refine h.inv.role_lead ?_
  rw [← h.role, hl]
  rfl

omit hl in
/-- An entry of the leader's own term that a majority holds is chosen. -/
theorem Party.chosen (hK : K.logs) (hl : r.role = .RAFT_LEADER) (hbase : r.log_base ≤ k)
    (hk : k + 1 ≤ raft_last_log_index r) (hterm : term_at r (k + 1) = r.current_term)
    (hacks : majority r ≤ acked_by r (k + 1)) : Chosen (majorities n) p (p.term f) (k + 1) := by
  obtain ⟨-, hllog⟩ := h.leads hl
  rw [(h.log hK).last_index] at hk
  refine ⟨⟨ent r (k + 1), ?_, ?_⟩, Nat.succ_pos k,
    (Finset.range n).filter fun i => k + 1 ≤ r.match_index i, ⟨Finset.filter_subset _ _, ?_⟩, ?_⟩
  · rw [hllog]
    exact (h.log hK).ent (Nat.lt_succ_of_le hbase) hk
  · show (ent r (k + 1)).term = _
    rw [← h.term, ← hterm]
    rfl
  · rw [majority_full_mask h.small h.member, acked_by_card h.small h.member] at hacks
    omega
  · intro j hj
    obtain ⟨hjn, hjk⟩ := Finset.mem_filter.mp hj
    exact le_trans hjk (h.matched hK hl j (Finset.mem_range.mp hjn))

theorem Party.commit_to (hk : K.commits → r.commit_index ≤ k)
    (hset : K.commits → Settled (majorities n) p (p.term f) (p.log f) k) :
    ∃ p', NodeCall n K p p' f r (commit_to r k, []) ∧ (commit_to r k).role = .RAFT_LEADER := by
  obtain ⟨p', hc⟩ := h.commit_apply (r.pending_config_index.filter (k < ·)) hk hset
  have hself : raft_is_member (apply_committed { r with
      commit_index := k
      pending_config_index := r.pending_config_index.filter (k < ·) })
      (apply_committed { r with
        commit_index := k
        pending_config_index := r.pending_config_index.filter (k < ·) }).id = true := by
    rw [raft_is_member_iff hc.party.member]
    exact hc.party.id ▸ h.lt
  have heq : MiniDb.commit_to r k = apply_committed { r with
      commit_index := k
      pending_config_index := r.pending_config_index.filter (k < ·) } := by
    unfold MiniDb.commit_to
    exact if_pos hself
  rw [heq, (apply_committed_frame _).1]
  exact ⟨p', hc, hl⟩

theorem Party.advance_loop (k : Nat) (hk : k ≤ raft_last_log_index r) :
    ∃ p', NodeCall n K p p' f r (advance_loop r k, []) ∧ (advance_loop r k).role = .RAFT_LEADER := by
  induction k with
  | zero => exact ⟨p, h.idle, hl⟩
  | succ k ih =>
    unfold MiniDb.advance_loop
    by_cases hdone : k + 1 ≤ r.commit_index
    · rw [if_pos hdone]
      exact ⟨p, h.idle, hl⟩
    rw [if_neg hdone]
    by_cases hterm : term_at r (k + 1) ≠ r.current_term
    · rw [if_pos hterm]
      exact ih (by omega)
    rw [if_neg hterm]
    by_cases hacks : majority r ≤ acked_by r (k + 1)
    · rw [if_pos hacks]
      refine h.commit_to hl (fun _ => by omega) fun hK => ?_
      have hL := K.logs_of_commits hK
      have hbase := h.commit hK ▸ h.base_commit hL
      have hc := h.chosen hL hl (by omega) hk (by simpa using hterm) hacks
      refine .inr ⟨_, _, hc, le_rfl, le_rfl, ?_⟩
      rw [(h.leads hl).2]
      exact take_prefix _ _
    · rw [if_neg hacks]
      exact ih (by omega)

theorem Party.leader_advance_commit :
    ∃ p', NodeCall n K p p' f r (leader_advance_commit r, []) ∧
      (leader_advance_commit r).role = .RAFT_LEADER :=
  h.advance_loop hl _ le_rfl

/-! ### Messages of a leader -/

omit hl in
omit h in
/-- What a leader sends lies behind its snapshot. -/
theorem mem_entries_of_drop {i : Nat} (hi : r.log_base < i) (he : e ∈ r.log.drop (i - r.log_base)) :
    e ∈ r.entries := by
  obtain ⟨k, hk⟩ : ∃ k, i - r.log_base = k + 1 := ⟨i - r.log_base - 1, by omega⟩
  rw [hk, Raft.log, drop_succ_cons] at he
  exact mem_of_mem_drop he

theorem Party.send_append_entries {i : Nat} (hi : i < n)
    (hout : ∀ m ∈ out, MsgOk n K p m) : ∀ m ∈ send_append_entries r i out, MsgOk n K p m := by
  obtain ⟨hlead, hllog⟩ := h.leads hl
  have hne : p.leader r.current_term ≠ none := by rw [h.term, hlead]; simp
  have hcommit : Settled (majorities n) p r.current_term (p.llog r.current_term) (p.commit f) := by
    rw [h.term, hllog]
    exact h.inv.committed f
  intro m hm
  unfold MiniDb.send_append_entries at hm
  by_cases hsnap : r.next_index i < r.log_base + 1
  · -- what the peer needs is only in the snapshot
    rw [if_pos hsnap] at hm
    rcases mem_push_msg hm with hm | rfl
    · exact hout m hm
    · refine ⟨h.id ▸ h.lt, h.base_member, fun hK =>
        ⟨hne, h.base hK, ?_, hcommit.le (h.base_commit hK)⟩⟩
      show r.marker.term = last_term ((p.llog r.current_term).take r.log_base)
      rw [h.term, hllog]
      exact (h.log hK).marker
  · rw [if_neg hsnap] at hm
    rcases mem_push_msg hm with hm | rfl
    · exact hout m hm
    · refine ⟨h.id ▸ h.lt, ?_, fun hK => ?_, fun hK => ?_⟩
      · intro e he
        exact h.config_free e (mem_entries_of_drop (by omega) (mem_of_mem_take he))
      · obtain ⟨hpos, hnext⟩ := h.next hK hl i hi
        have hdrop := (h.log hK).drop (i := r.next_index i) (by omega)
        refine ⟨hne, ?_, ?_, ?_⟩
        · show r.next_index i - 1 + ((r.log.drop (r.next_index i - r.log_base)).take
            RAFT_MAX_BATCH).length ≤ (p.llog r.current_term).length
          rw [hdrop, h.term, hllog, length_take, length_drop]
          omega
        · show (r.log.drop (r.next_index i - r.log_base)).take RAFT_MAX_BATCH =
            ((p.llog r.current_term).drop (r.next_index i - 1)).take
              ((r.log.drop (r.next_index i - r.log_base)).take RAFT_MAX_BATCH).length
          rw [hdrop, h.term, hllog, take_eq_take_iff, length_take]
          omega
        · show term_at r (r.next_index i - 1) =
            last_term ((p.llog r.current_term).take (r.next_index i - 1))
          rw [h.term, hllog]
          exact (h.log hK).term_at (by omega) (by omega)
      · show Settled _ _ _ _ r.commit_index
        rw [h.commit hK]
        exact hcommit

theorem Party.heartbeat (hout : ∀ m ∈ out, MsgOk n K p m) :
    ∀ m ∈ for_peers r (MiniDb.send_append_entries r) out, MsgOk n K p m :=
  for_peers_all (fun _ _ _ hi hout =>
    h.send_append_entries hl ((raft_is_member_iff h.member).mp hi) hout) hout

/-! ### A leader's own log -/

omit hl in
omit h in
theorem LogRel.append (h : LogRel r L) (e : RaftEntry) :
    LogRel { r with entries := r.entries ++ [e] } (L ++ [e]) := by
  have hb := h.base_le
  refine h.replace (take_append_of_le_length hb) (by simp; omega) ?_
  rw [drop_append_of_le_length hb, h.entries]

omit hl in
omit h in
theorem log_append_plain (he : e.is_config = false) :
    log_append r e = { r with entries := r.entries ++ [e] } := by
  simp [log_append, maybe_adopt_config, he]

omit hl in
/-- A leader counts itself. -/
theorem Party.own_match (hack : K.logs → (p.log f).length ≤ p.ack (p.term f) f) :
    Party n K p f { r with match_index := update r.match_index r.id (raft_last_log_index r) } := by
  refine { h with
    log := h.keep_log rfl rfl rfl
    matched := ?_ }
  intro hK hl j hj
  show update r.match_index r.id (raft_last_log_index r) j ≤ p.ack (p.term f) j
  by_cases hjf : j = r.id
  · rw [hjf, update_self, (h.log hK).last_index, h.id]
    exact hack hK
  · rw [update_of_ne hjf]
    exact h.matched hK hl j hj

theorem Party.lead_append (he : e.term = r.current_term) (hconf : e.is_config = false) :
    ∃ p', NodeCall n K p p' f r
      ({ log_append r e with
          match_index := update (log_append r e).match_index (log_append r e).id
            (raft_last_log_index (log_append r e)) }, []) := by
  rw [log_append_plain hconf]
  have hfree : ∀ e' ∈ r.entries ++ [e], e'.is_config = false := by
    intro e' he'
    rcases mem_append.mp he' with he' | he'
    · exact h.config_free e' he'
    · rw [mem_singleton.mp he']
      exact hconf
  by_cases hK : K.logs
  swap
  · exact ⟨p, h.unlogged hK hfree rfl⟩
  have hrole : p.role f = .leader := by rw [← h.role, hl]; rfl
  have hm := h.append hrole (h.term ▸ he) hconf
  have hlog : (p.append f e).log f = p.log f ++ [e] := upd_self _ _ _
  have happ : Party n K (p.append f e) f { r with entries := r.entries ++ [e] } := by
    refine { h with
      config_free := hfree
      bare := fun hno => absurd hK hno
      log := ?_
      matched := ?_
      next := ?_
      applied := h.applied_extends hm.ext
      inv := hm.inv
      plain := hm.plain }
    · rw [hlog]
      exact fun _ => (h.log hK).append e
    · intro _ hlead j hj
      exact le_trans (h.matched hK hlead j hj) (hm.ext.ack _ _)
    · intro _ hlead j hj
      obtain ⟨hpos, hle⟩ := h.next hK hlead j hj
      rw [hlog, length_append]
      exact ⟨hpos, by show r.next_index j ≤ _; omega⟩
  refine ⟨_, hm, happ.own_match ?_, by simp, ?_⟩
  · show _ → ((p.append f e).log f).length ≤
      upd2 p.ack (p.term f) f (p.log f ++ [e]).length (p.term f) f
    rw [hlog, upd2_apply, if_pos ⟨rfl, rfl⟩]
    exact fun _ => le_rfl
  · intro hcand
    cases (hl.symm.trans hcand : RaftRole.RAFT_LEADER = .RAFT_CANDIDATE)

omit hl in
theorem Party.raft_submit (command : Int) :
    ∃ p', NodeCall n K p p' f r ((raft_submit r command).1, []) := by
  unfold MiniDb.raft_submit
  by_cases hl : r.role ≠ .RAFT_LEADER
  · rw [if_pos hl]
    exact ⟨p, h.idle⟩
  · rw [if_neg hl]
    exact h.lead_append (not_not.mp hl) rfl rfl

end Steps

end MiniDb
