import MiniDb.Raft.Frames

/-! # Elections

  Standing for election is `Proto.stand`, granting a vote is `Proto.cast` and
  taking office is `Proto.elect`, followed by the no-op of the new leader. -/

namespace MiniDb

open Framework List Function

section Steps

variable {n f : Nat} {K : Scope} {p : Proto Nat RaftEntry} {r : Raft}

/-! ### Taking office -/

/-- The state of a new leader before it looks at its own log. -/
def claim_office (r : Raft) : Raft :=
  { r with
    role := .RAFT_LEADER
    read_barrier_index := none
    read_confirmed_index := none
    next_index := fun i => if i < RAFT_MAX_NODES ∧ raft_is_member r i = true then
      raft_last_log_index r + 1 else r.next_index i
    match_index := fun i => if i < RAFT_MAX_NODES ∧ raft_is_member r i = true then 0
      else r.match_index i }

variable (h : Party n K p f r) {S : Finset Nat}

include h

variable (hrole : r.role = .RAFT_CANDIDATE)

include hrole

theorem Party.claim_office
    (hS : (majorities n).is_quorum S)
    (hvotes : ∀ g ∈ S, ∃ v, p.vote (p.term f) g = some v ∧ v.candidate = f) :
    NodeCall n K p (p.elect f) f r (claim_office r, []) := by
  have hm := h.elect (by rw [← h.role, hrole]; rfl) hS hvotes
  have hmem : ∀ j < n, j < RAFT_MAX_NODES ∧ raft_is_member r j = true := fun j hj =>
    ⟨lt_of_lt_of_le hj h.small, (raft_is_member_iff h.member).mpr hj⟩
  refine ⟨hm, { h with
    role := ?_
    log := h.keep_log rfl rfl rfl
    matched := ?_
    next := ?_
    applied := h.applied_extends hm.ext
    inv := hm.inv
    plain := hm.plain }, by simp, nofun⟩
  · show Role.leader = upd p.role f .leader f
    rw [upd_self]
  · intro _ _ j hj
    show (if _ then 0 else r.match_index j) ≤ _
    rw [if_pos (hmem j hj)]
    exact Nat.zero_le _
  · intro hK _ j hj
    show 1 ≤ (if _ then raft_last_log_index r + 1 else r.next_index j) ∧
      (if _ then raft_last_log_index r + 1 else r.next_index j) ≤ (p.log f).length + 1
    rw [if_pos (hmem j hj), (h.log hK).last_index]
    omega

theorem Party.take_office
    (hS : (majorities n).is_quorum S)
    (hvotes : ∀ g ∈ S, ∃ v, p.vote (p.term f) g = some v ∧ v.candidate = f) :
    ∃ p', NodeCall n K p p' f r (take_office r, []) ∧ (take_office r).role = .RAFT_LEADER := by
  have hclaim := h.claim_office hrole hS hvotes
  have hlast : raft_last_log_index (MiniDb.claim_office r) = raft_last_log_index r := rfl
  by_cases htail : r.commit_index < raft_last_log_index r
  · -- a tail of earlier terms: the new leader puts a no-op on top
    obtain ⟨p', hnoop⟩ :=
      hclaim.party.lead_append (e := ⟨r.current_term, 0, false, true⟩) rfl rfl rfl
    have heq : MiniDb.take_office r =
        { log_append (MiniDb.claim_office r) ⟨r.current_term, 0, false, true⟩ with
          read_gate_index := raft_last_log_index
            (log_append (MiniDb.claim_office r) ⟨r.current_term, 0, false, true⟩)
          match_index := update
            (log_append (MiniDb.claim_office r) ⟨r.current_term, 0, false, true⟩).match_index
            (log_append (MiniDb.claim_office r) ⟨r.current_term, 0, false, true⟩).id
            (raft_last_log_index
              (log_append (MiniDb.claim_office r) ⟨r.current_term, 0, false, true⟩)) } := by
      unfold MiniDb.take_office
      simp only [htail, if_true]
      rfl
    rw [heq]
    have hgate := (hclaim.andThen hnoop)
    exact ⟨_, ⟨hgate.moves, { hgate.party with log := hgate.party.keep_log rfl rfl rfl },
      by simp, hgate.ballot⟩, rfl⟩
  · have heq : MiniDb.take_office r =
        { MiniDb.claim_office r with
          read_gate_index := raft_last_log_index r
          match_index := update (MiniDb.claim_office r).match_index r.id
            (raft_last_log_index r) } := by
      unfold MiniDb.take_office
      simp only [htail, if_false]
      rfl
    have hown := hclaim.party.own_match (by
      show _ → (p.log f).length ≤ upd2 p.ack (p.term f) f (p.log f).length (p.term f) f
      rw [upd2_apply, if_pos ⟨rfl, rfl⟩]
      exact fun _ => le_rfl)
    rw [heq]
    exact ⟨_, ⟨hclaim.moves, { hown with log := hown.keep_log rfl rfl rfl }, by simp, nofun⟩, rfl⟩

theorem Party.become_leader
    (hS : (majorities n).is_quorum S)
    (hvotes : ∀ g ∈ S, ∃ v, p.vote (p.term f) g = some v ∧ v.candidate = f) :
    ∃ p', NodeCall n K p p' f r (become_leader r []) ∧
      (become_leader r []).1.role = .RAFT_LEADER := by
  obtain ⟨p₁, hoffice, hlead⟩ := h.take_office hrole hS hvotes
  obtain ⟨p₂, hcommit, hlead⟩ := hoffice.party.leader_advance_commit hlead
  have hcall := hoffice.andThen hcommit
  have hparty : Party n K p₂ f
      { MiniDb.leader_advance_commit (MiniDb.take_office r) with heartbeat_elapsed := 0 } :=
    { hcall.party with log := hcall.party.keep_log rfl rfl rfl }
  exact ⟨p₂, ⟨hcall.moves, hparty, hparty.heartbeat hlead (by simp), hcall.ballot⟩, hlead⟩

omit hrole

omit h in
theorem ballots_become_leader (r : Raft) : ballots (become_leader r []).2 = [] :=
  ballots_heartbeat _ _

/-! ### Standing for election -/

/-- The state of a node that stands for election. -/
def stand_for (r : Raft) : Raft :=
  { r with
    current_term := r.current_term + 1
    role := .RAFT_CANDIDATE
    voted_for := some r.id
    votes_granted := 1
    election_elapsed := 0 }

theorem Party.stand_for :
    Party n K (p.stand f) f (stand_for r) ∧
      ∃ v, (p.stand f).vote ((p.stand f).term f) f = some v ∧ v.candidate = f := by
  have hm := h.stand
  have hterm : (p.stand f).term f = p.term f + 1 := upd_self _ _ _
  have hvote : (p.stand f).vote (p.term f + 1) f =
      some ⟨f, p.log f, p.leader (p.term f + 1) = none⟩ := by
    show upd2 p.vote (p.term f + 1) f _ (p.term f + 1) f = _
    rw [upd2_apply, if_pos ⟨rfl, rfl⟩]
  refine ⟨{ h with
    term := ?_
    role := ?_
    log := h.keep_log rfl rfl rfl
    vote := ?_
    matched := nofun
    next := nofun
    applied := h.applied_extends hm.ext
    inv := hm.inv
    plain := hm.plain }, _, by rw [hterm]; exact hvote, rfl⟩
  · rw [hterm, ← h.term]
    rfl
  · show Role.candidate = upd p.role f .candidate f
    rw [upd_self]
  · rw [hterm, hvote, Option.map_some, ← h.id]
    rfl

omit h in
theorem become_candidate_eq (r : Raft) (out : List RaftMsg) :
    become_candidate r out = if majority (stand_for r) ≤ 1 then become_leader (stand_for r) out
      else (stand_for r, for_peers (stand_for r) (send_request_vote (stand_for r)) out) := rfl

/-- A node that stands alone wins at once. -/
theorem Party.become_candidate_alone
    (halone : majority (MiniDb.stand_for r) ≤ 1) :
    ∃ p', NodeCall n K p p' f r (become_candidate r []) ∧ ballots (become_candidate r []).2 = [] := by
  rw [become_candidate_eq, if_pos halone]
  obtain ⟨hparty, hvote⟩ := h.stand_for
  rw [majority_full_mask h.small hparty.member] at halone
  have hlt := h.lt
  obtain ⟨p', hcall, hrole⟩ := hparty.become_leader (S := {f}) rfl
    ⟨by simpa using h.lt, by rw [Finset.card_singleton]; omega⟩ (by
      intro g hg
      rw [Finset.mem_singleton.mp hg]
      exact hvote)
  refine ⟨p', ⟨h.stand.trans hcall.moves, hcall.party, hcall.msgs, ?_⟩, ballots_become_leader _⟩
  intro hcand
  rw [hrole] at hcand
  cases hcand

/-- A candidate among others asks for their votes. -/
theorem Party.request_votes :
    ∀ m ∈ for_peers (MiniDb.stand_for r) (send_request_vote (MiniDb.stand_for r)) [],
      MsgOk n K (p.stand f) m := by
  obtain ⟨hparty, -⟩ := h.stand_for
  have hcand : (p.stand f).cand (MiniDb.stand_for r).current_term f = some (p.log f) := by
    show upd2 p.cand (p.term f + 1) f (some (p.log f)) (r.current_term + 1) f = _
    rw [h.term, upd2_apply, if_pos ⟨rfl, rfl⟩]
  refine for_peers_all ?_ (by simp)
  intro i out _ _ hout m hm
  rcases mem_push_msg hm with hm | rfl
  · exact hout m hm
  · refine ⟨hparty.id ▸ h.lt, p.log f, ?_, fun hK => ⟨?_, ?_⟩⟩
    · show (p.stand f).cand (MiniDb.stand_for r).current_term (MiniDb.stand_for r).id = _
      rw [hparty.id]
      exact hcand
    · exact (hparty.log hK).last_index.symm
    · exact (hparty.log hK).last_term.symm

/-! ### Votes -/

omit h in
theorem candidate_log_up_to_date_iff {L C : List RaftEntry} (hr : LogRel r L) :
    candidate_log_up_to_date r C.length (last_term C) = true ↔ UpToDate C L := by
  unfold candidate_log_up_to_date UpToDate
  rw [hr.last_term, hr.last_index]
  by_cases heq : last_term C = last_term L
  · simp [heq]
  · simp only [ne_eq, heq, not_false_eq_true, if_true, decide_eq_true_iff]
    omega

omit h in
theorem upToDate_nil (C : List RaftEntry) : UpToDate C [] := by
  unfold UpToDate
  show 0 < last_term C ∨ 0 = last_term C ∧ 0 ≤ C.length
  omega

theorem Party.grant {c : Nat} {C : List RaftEntry}
    (hc : p.cand (p.term f) c = some C) (hup : UpToDate C (p.log f))
    (hfree : r.voted_for = none ∨ r.voted_for = some c) :
    ∃ p', NodeCall n K p p' f r ({ r with voted_for := some c, election_elapsed := 0 }, []) ∧
      ∃ v, p'.vote r.current_term f = some v ∧ v.candidate = c := by
  rcases hfree with hnone | hsome
  · have hnovote : p.vote (p.term f) f = none := by
      have hvote := h.vote
      rw [hnone] at hvote
      exact Option.map_eq_none_iff.mp hvote.symm
    have hm := h.cast hnovote hc hup
    have hcast : (p.cast f c).vote (p.term f) f =
        some ⟨c, p.log f, p.leader (p.term f) = none⟩ := by
      show upd2 p.vote (p.term f) f _ (p.term f) f = _
      rw [upd2_apply, if_pos ⟨rfl, rfl⟩]
    refine ⟨p.cast f c, ⟨hm, { h with
      log := h.keep_log rfl rfl rfl
      vote := ?_
      __ := h
      applied := h.applied_extends hm.ext
      inv := hm.inv
      plain := hm.plain }, by simp, KeepsBallot.refl r⟩, _, by rw [h.term]; exact hcast, rfl⟩
    show some c = ((p.cast f c).vote (p.term f) f).map Vote.candidate
    rw [hcast]
    rfl
  · -- the vote was given before
    have hvote := h.vote
    rw [hsome] at hvote
    obtain ⟨v, hv, hvc⟩ := Option.map_eq_some_iff.mp hvote.symm
    refine ⟨p, ⟨h.stay, { h with
      log := h.keep_log rfl rfl rfl
      vote := hvote }, by simp, KeepsBallot.refl r⟩, v, by rw [h.term]; exact hv, hvc⟩

variable {msg : RaftMsg} {p' : Proto Nat RaftEntry} {net rest : List RaftMsg} {net' : List RaftMsg}
  {r' : Raft}

/-- A vote is granted: the answer carries the ballot back. -/
theorem Party.vote_granted {idx term : Nat}
    (hbody : msg.body = .request_vote idx term) (hok : MsgOk n K p msg) (hto : msg.receiver = f)
    (hold : ¬msg.term < (step_down_if_higher r msg.term).current_term)
    (hfree : (step_down_if_higher r msg.term).voted_for = none ∨
      (step_down_if_higher r msg.term).voted_for = some msg.sender)
    (hgood : candidate_log_up_to_date (step_down_if_higher r msg.term) idx term = true) :
    ∃ p', NodeCall n K p p' f r ({ step_down_if_higher r msg.term with
          voted_for := some msg.sender
          election_elapsed := 0 },
        [answer (step_down_if_higher r msg.term) msg (.request_vote_reply true)]) ∧
      ballot_of (answer (step_down_if_higher r msg.term) msg (.request_vote_reply true)) =
        ballot_of msg := by
  obtain ⟨p₁, hdown⟩ := h.step_down msg.term
  have hle := le_step_down r msg.term
  obtain ⟨-, hcand⟩ := hok.extends h.inv hdown.moves.ext
  generalize step_down_if_higher r msg.term = r₁ at *
  have hr₁ := hdown.party
  have hterm : msg.term = r₁.current_term := by omega
  rw [hbody] at hcand
  obtain ⟨C, hC, hlast⟩ := hcand
  rw [hterm, hr₁.term] at hC
  have hup : UpToDate C (p₁.log f) := by
    by_cases hK : K.logs
    · obtain ⟨rfl, rfl⟩ := hlast hK
      exact (candidate_log_up_to_date_iff (hr₁.log hK)).mp hgood
    · -- every log is as good as one that is not followed
      rw [hr₁.bare hK]
      exact upToDate_nil C
  obtain ⟨p₂, hcast, v, hv, hvc⟩ := hr₁.grant hC hup hfree
  refine ⟨p₂, (hdown.andThen hcast).send ⟨hr₁.id_lt, fun _ => ⟨v, ?_, hvc⟩⟩, ?_⟩
  · show p₂.vote r₁.current_term r₁.id = some v
    rw [hr₁.id]
    exact hv
  · show some (r₁.id, msg.sender, r₁.current_term) = ballot_of msg
    rw [ballot_of, hbody, hto, hr₁.id, hterm]

/-- The votes a candidate has counted: distinct nodes that voted for it, none
    of which has another ballot in the network. -/
def Ballot (n : Nat) (p : Proto Nat RaftEntry) (f : Nat) (r : Raft) (net : List RaftMsg) : Prop :=
  r.role = .RAFT_CANDIDATE → ∃ S ⊆ Finset.range n, S.card = r.votes_granted ∧
    ∀ g ∈ S, (∃ v, p.vote r.current_term g = some v ∧ v.candidate = f) ∧
      (g, f, r.current_term) ∉ ballots net

omit h in
theorem Ballot.keep (h : Ballot n p f r net) (hext : Extends p p')
    (hkeep : KeepsBallot r r') (hnet : ∀ g, (g, f, r'.current_term) ∈ ballots net' →
      (g, f, r'.current_term) ∈ ballots net) : Ballot n p' f r' net' := by
  intro hrole
  obtain ⟨hrole', hterm, hvotes⟩ := hkeep hrole
  obtain ⟨S, hS, hcard, hall⟩ := h hrole'
  refine ⟨S, hS, hcard.trans hvotes.symm, fun g hg => ?_⟩
  obtain ⟨⟨v, hv, hvc⟩, hno⟩ := hall g hg
  rw [← hterm] at hv hno
  exact ⟨⟨v, hext.vote hv, hvc⟩, fun hmem => hno (hnet g hmem)⟩

omit h in
theorem Ballot.mono (h : Ballot n p f r net)
    (hsub : ∀ b ∈ ballots net', b ∈ ballots net) : Ballot n p f r net' :=
  h.keep (Extends.refl p) (KeepsBallot.refl r) fun _ hmem => hsub _ hmem

omit h in
/-- A granted vote is counted once, because its ballot leaves the network. -/
theorem Ballot.count (h : Ballot n p f r (msg :: rest))
    (hbody : msg.body = .request_vote_reply true) (hok : MsgOk n K p msg) (hto : msg.receiver = f)
    (hterm : msg.term = r.current_term) (hnodup : (ballots (msg :: rest)).Nodup) :
    Ballot n p f { r with votes_granted := r.votes_granted + 1 } rest := by
  intro hrole
  obtain ⟨S, hS, hcard, hall⟩ := h hrole
  obtain ⟨hsender, hvote⟩ := hok
  rw [hbody] at hvote
  obtain ⟨v, hv, hvc⟩ := hvote rfl
  have hballots : ballots (msg :: rest) = (msg.sender, f, r.current_term) :: ballots rest := by
    have hb : ballot_of msg = some (msg.sender, f, r.current_term) := by
      rw [ballot_of, hbody, hto, hterm]
    exact filterMap_cons_some hb
  rw [hballots] at hnodup
  have hfresh : msg.sender ∉ S := by
    intro hmem
    refine (hall _ hmem).2 ?_
    rw [hballots]
    exact mem_cons_self
  refine ⟨insert msg.sender S, ?_, ?_, ?_⟩
  · exact Finset.insert_subset (Finset.mem_range.mpr hsender) hS
  · rw [Finset.card_insert_of_notMem hfresh, hcard]
  · intro g hg
    rcases Finset.mem_insert.mp hg with rfl | hg
    · exact ⟨⟨v, hterm ▸ hv, hvc.trans hto⟩, (nodup_cons.mp hnodup).1⟩
    · obtain ⟨hv, hno⟩ := hall g hg
      refine ⟨hv, fun hmem => hno ?_⟩
      rw [hballots]
      exact mem_cons_of_mem _ hmem

/-! ### Turns

  A turn is a call with its effect on the ballots in the network: the call
  leaves the messages `rest` of `net` and adds its own. -/

structure Turn (n : Nat) (K : Scope) (p p' : Proto Nat RaftEntry) (f : Nat)
    (net rest : List RaftMsg) (res : Raft × List RaftMsg) : Prop where
  moves : Moves n f p p'
  party : Party n K p' f res.1
  msgs : ∀ m ∈ res.2, MsgOk n K p' m
  ballot : Ballot n p' f res.1 (rest ++ res.2)
  nodup : (ballots (rest ++ res.2)).Nodup
  asked : ∀ b ∈ ballots (rest ++ res.2), b ∈ ballots net ∨
    b.2.1 = f ∧ b.2.2 ≤ res.1.current_term

omit h in
/-- A call that sends no ballots. -/
theorem NodeCall.turn {res : Raft × List RaftMsg} (h : NodeCall n K p p' f r res)
    (hquiet : ballots res.2 = []) (hb : Ballot n p f r rest) (hnodup : (ballots rest).Nodup)
    (hsub : ∀ b ∈ ballots rest, b ∈ ballots net) : Turn n K p p' f net rest res := by
  have heq : ballots (rest ++ res.2) = ballots rest := by
    rw [ballots_append, hquiet, append_nil]
  refine ⟨h.moves, h.party, h.msgs, hb.keep h.moves.ext h.ballot ?_, heq ▸ hnodup, ?_⟩
  · intro g hg
    exact heq ▸ hg
  · intro b hmem
    exact .inl (hsub b (heq ▸ hmem))

omit h in
/-- A vote that is granted replaces the request for it. -/
theorem NodeCall.turn_vote {reply : RaftMsg} (h : NodeCall n K p p' f r (r', [reply]))
    (hreply : ballot_of reply = ballot_of msg)
    (hb : Ballot n p f r (msg :: rest)) (hnodup : (ballots (msg :: rest)).Nodup) :
    Turn n K p p' f (msg :: rest) rest (r', [reply]) := by
  have hperm : (ballots (rest ++ [reply])).Perm (ballots (msg :: rest)) := by
    have hone : ballots [reply] = ballots [msg] := by
      simp only [ballots, filterMap_cons, hreply]
    rw [ballots_append, hone, ← ballots_append]
    exact (perm_append_singleton msg rest).filterMap ballot_of
  refine ⟨h.moves, h.party, h.msgs, hb.keep h.moves.ext h.ballot ?_, hperm.nodup_iff.mpr hnodup, ?_⟩
  · intro g hg
    exact hperm.subset hg
  · intro b hmem
    exact .inl (hperm.subset hmem)

/-- The counted votes are a majority. -/
theorem Party.elected (hrole : r.role = .RAFT_CANDIDATE) (hb : Ballot n p f r net)
    (hwon : majority r ≤ r.votes_granted) : ∃ p', NodeCall n K p p' f r (MiniDb.become_leader r []) := by
  rw [majority_full_mask h.small h.member] at hwon
  obtain ⟨S, hS, hcard, hall⟩ := hb hrole
  obtain ⟨p', hcall, -⟩ := h.become_leader (S := S) hrole ⟨hS, by omega⟩ (by
    intro g hg
    rw [← h.term]
    exact (hall g hg).1)
  exact ⟨p', hcall⟩

/-- A node that stands among others. -/
theorem Party.become_candidate (hnodup : (ballots net).Nodup)
    (hfresh : ∀ b ∈ ballots net, b.2.1 = f → b.2.2 ≤ r.current_term) (hb : Ballot n p f r net) :
    ∃ p', Turn n K p p' f net net (become_candidate r []) := by
  by_cases halone : majority (MiniDb.stand_for r) ≤ 1
  · obtain ⟨p', hcall, hquiet⟩ := h.become_candidate_alone halone
    exact ⟨p', hcall.turn hquiet hb hnodup fun _ => id⟩
  rw [become_candidate_eq, if_neg halone]
  obtain ⟨hparty, hvote⟩ := h.stand_for
  have hsub := ballots_request_vote (MiniDb.stand_for r)
  have hout : ∀ b ∈ ballots (for_peers (MiniDb.stand_for r)
      (send_request_vote (MiniDb.stand_for r)) []),
      b.1 ≠ f ∧ b.2.1 = f ∧ b.2.2 = r.current_term + 1 := by
    intro b hmem
    obtain ⟨i, hi, rfl⟩ := mem_map.mp (hsub.subset hmem)
    have hne : i ≠ (MiniDb.stand_for r).id := by simpa using (mem_filter.mp hi).2
    exact ⟨h.id ▸ hne, h.id, rfl⟩
  -- the term is new, so the network has no ballot of it yet
  have hnew : ∀ b ∈ ballots net, b.2.1 = f → b.2.2 ≠ r.current_term + 1 := by
    intro b hmem hbf
    have := hfresh b hmem hbf
    omega
  refine ⟨p.stand f, h.stand, hparty, h.request_votes, ?_, ?_, ?_⟩
  · intro _
    refine ⟨{f}, by simpa using h.lt, rfl, ?_⟩
    intro g hg
    rw [Finset.mem_singleton.mp hg]
    refine ⟨hparty.term ▸ hvote, ?_⟩
    rw [ballots_append]
    intro hmem
    rcases mem_append.mp hmem with hmem | hmem
    · exact hnew _ hmem rfl rfl
    · exact (hout _ hmem).1 rfl
  · rw [ballots_append]
    refine hnodup.append (List.Nodup.sublist hsub ?_) ?_
    · refine List.Nodup.map ?_ (nodup_range.filter _)
      intro i j hij
      exact (Prod.mk.inj hij).1
    · intro b hmem hmem'
      obtain ⟨-, hbf, hbt⟩ := hout b hmem'
      exact hnew b hmem hbf hbt
  · intro b hmem
    rw [ballots_append] at hmem
    rcases mem_append.mp hmem with hmem | hmem
    · exact .inl hmem
    · obtain ⟨-, hbf, hbt⟩ := hout b hmem
      exact .inr ⟨hbf, le_of_eq hbt⟩

/-! ### Ticks and reads -/

theorem Party.raft_tick (hnodup : (ballots net).Nodup)
    (hfresh : ∀ b ∈ ballots net, b.2.1 = f → b.2.2 ≤ r.current_term) (hb : Ballot n p f r net) :
    ∃ p', Turn n K p p' f net net (raft_tick r) := by
  -- a clock that moves is not seen by the protocol
  have hclock : ∀ e b, NodeCall n K p p f r
      ({ r with election_elapsed := e, heartbeat_elapsed := b }, []) := fun e b =>
    ⟨h.stay, { h with log := h.keep_log rfl rfl rfl }, by simp, KeepsBallot.refl r⟩
  unfold MiniDb.raft_tick
  by_cases hl : r.role = .RAFT_LEADER
  · rw [if_pos hl]
    dsimp only
    split
    · refine ⟨p, NodeCall.turn ⟨h.stay, (hclock r.election_elapsed 0).party, ?_, KeepsBallot.refl r⟩
        (ballots_heartbeat _ _) hb hnodup fun _ => id⟩
      exact (hclock r.election_elapsed 0).party.heartbeat hl (by simp)
    · exact ⟨p, (hclock r.election_elapsed _).turn rfl hb hnodup fun _ => id⟩
  rw [if_neg hl]
  split
  · dsimp only
    split
    · have hparty := (hclock (r.election_elapsed + 1) r.heartbeat_elapsed).party
      exact hparty.become_candidate hnodup hfresh hb
    · exact ⟨p, (hclock _ r.heartbeat_elapsed).turn rfl hb hnodup fun _ => id⟩
  · exact ⟨p, h.idle.turn rfl hb hnodup fun _ => id⟩

theorem Party.raft_read_index :
    NodeCall n K p p f r ((raft_read_index r).1, (raft_read_index r).2.1) ∧
      ballots (raft_read_index r).2.1 = [] := by
  unfold MiniDb.raft_read_index
  by_cases hl : r.role ≠ .RAFT_LEADER
  · rw [if_pos hl]
    exact ⟨h.idle, rfl⟩
  rw [if_neg hl]
  split
  · exact ⟨h.idle, rfl⟩
  · dsimp only
    have hlead := not_not.mp hl
    have hparty : ∀ b c m e, Party n K p f { r with
        read_barrier_index := b, read_confirmed_index := c, read_ack_mask := m, read_epoch := e } :=
      fun b c m e => { h with log := h.keep_log rfl rfl rfl }
    refine ⟨?_, ballots_heartbeat _ _⟩
    split
    · refine ⟨h.stay, hparty _ _ _ _, ?_, KeepsBallot.refl r⟩
      exact (hparty none _ _ _).heartbeat hlead (by simp)
    · refine ⟨h.stay, hparty _ _ _ _, ?_, KeepsBallot.refl r⟩
      exact (hparty _ none _ _).heartbeat hlead (by simp)

end Steps

end MiniDb
