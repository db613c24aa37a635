import MiniDb.Raft.Progress

/-! # One vote per node and term

  `become_follower` forgets the vote also when a leader steps down within its
  term, after it has committed its own removal.  What then keeps it from a
  second vote is its log: it ends in an entry of the term, and every other
  candidate of the term stood with a log that ends below.  That argument needs
  the log to stay: another leader of the same term may replace it.

  Runs here have everything that may happen to a node or a message: calls,
  restarts, saved states that are loaded again, and messages that are lost,
  delayed or duplicated. -/

namespace MiniDb

open Framework List Function Option

/-- A cluster with every message sent and every candidacy so far. -/
structure Polled extends Traced where
  /-- Node and term. -/
  stood : List (Nat × Nat)

inductive Fault where
  | event (ev : Event)
  /-- The network delivers the `k`-th message once more. -/
  | duplicate (k : Nat)
  /-- `raft_save`, then `raft_load` into a new node or into the node itself. -/
  | reload (i : Nat) (fresh : Bool)

/-- The node after `raft_save` and `raft_load`. -/
def reloaded (r : Raft) (fresh : Bool) : Raft :=
  raft_reload (if fresh then raft_start r.id r.n_nodes r.election_timeout r.heartbeat_timeout else r) r

/-- Only a candidate raises its own term. -/
def candidacies (c c' : Cluster) : Event → List (Nat × Nat)
  | .tick i =>
      if (c.nodes i).current_term < (c'.nodes i).current_term then [(i, (c'.nodes i).current_term)] else []
  | _ => []

def Polled.step (s : Polled) : Fault → Option Polled
  | .event ev =>
      (s.toTraced.step ev).map fun t => ⟨t, s.stood ++ candidacies s.cluster t.cluster ev⟩
  | .duplicate k =>
      s.cluster.net[k]?.map fun m =>
        { s with cluster := { s.cluster with net := s.cluster.net ++ [m] } }
  | .reload i fresh =>
      if i < s.cluster.size then
        some { s with cluster := s.cluster.put i (reloaded (s.cluster.nodes i) fresh, []) }
      else none

/-- Node `i` has voted for `c` in term `t`: it has sent a granted reply, or has
    been a candidate itself. -/
def Polled.Voted (s : Polled) (i t c : Nat) : Prop :=
  (∃ m ∈ s.sent, m.sender = i ∧ m.term = t ∧ m.receiver = c ∧ m.body = .request_vote_reply true) ∨
    ((i, t) ∈ s.stood ∧ c = i)

instance (s : Polled) (i t c : Nat) : Decidable (s.Voted i t c) := inferInstanceAs (Decidable (_ ∨ _))

/-- No node has voted for two candidates in one term. -/
def OneVote (s : Polled) : Prop := ∀ i t c c', s.Voted i t c → s.Voted i t c' → c = c'

/-! ### Terms in logs -/

section Terms

variable {r r' : Raft}

theorem last_log_term_mem (r : Raft) : ∃ e ∈ r.log, e.term = raft_last_log_term r := by
  have hlt : r.log.length - 1 < r.log.length := Nat.sub_lt (Nat.succ_pos _) Nat.one_pos
  refine ⟨(r.log)[r.log.length - 1], getElem_mem hlt, ?_⟩
  unfold raft_last_log_term
  rw [getElem?_eq_getElem hlt]
  rfl

theorem term_at_mem {k : Nat} (hk : k ≤ raft_last_log_index r) : ∃ e ∈ r.log, e.term = term_at r k := by
  have hlt : k - r.log_base < r.log.length := by
    unfold raft_last_log_index at hk
    have hpos : 0 < r.log.length := Nat.succ_pos _
    omega
  refine ⟨(r.log)[k - r.log_base], getElem_mem hlt, ?_⟩
  unfold term_at
  rw [getElem?_eq_getElem hlt]
  rfl

theorem last_log_term_append (r : Raft) (e : RaftEntry) (h : r'.log = r.log ++ [e]) :
    raft_last_log_term r' = e.term := by
  unfold raft_last_log_term
  rw [h, length_append, length_singleton, Nat.add_sub_cancel, getElem?_concat_length]
  rfl

theorem last_log_term_congr (h : r'.log = r.log) : raft_last_log_term r' = raft_last_log_term r := by
  unfold raft_last_log_term
  rw [h]

/-- No entry is of a later term; a candidate's are all of earlier ones, and a
    leader's log ends in its own term as soon as it has an entry of it. -/
structure LogTerms (r : Raft) : Prop where
  le : ∀ e ∈ r.log, e.term ≤ r.current_term
  stands : r.role = .RAFT_CANDIDATE → ∀ e ∈ r.log, e.term < r.current_term
  leads : r.role = .RAFT_LEADER →
    raft_last_log_term r = r.current_term ∨ ∀ e ∈ r.log, e.term < r.current_term

theorem LogTerms.of_follower (hrole : r.role = .RAFT_FOLLOWER)
    (h : ∀ e ∈ r.log, e.term ≤ r.current_term) :
    LogTerms r := by
  refine ⟨h, fun hc => ?_, fun hl => ?_⟩
  · cases hrole.symm.trans hc
  · cases hrole.symm.trans hl

theorem LogTerms.same (h : LogTerms r) (hterm : r'.current_term = r.current_term)
    (hrole : r'.role = r.role) (hlog : r'.log = r.log) : LogTerms r' := by
  refine ⟨?_, ?_, ?_⟩
  · rw [hlog, hterm]
    exact h.le
  · rw [hlog, hterm, hrole]
    exact h.stands
  · rw [hlog, hterm, hrole, last_log_term_congr hlog]
    exact h.leads

/-- A leader appends entries of its own term. -/
theorem LogTerms.append (h : LogTerms r) {e : RaftEntry} (he : e.term = r.current_term)
    (hrole : r'.role = .RAFT_LEADER) (hterm : r'.current_term = r.current_term)
    (hlog : r'.log = r.log ++ [e]) : LogTerms r' := by
  refine ⟨fun x hx => ?_, fun hc => ?_, fun _ => .inl ?_⟩
  · rw [hlog] at hx
    rw [hterm]
    rcases mem_append.mp hx with hx | hx
    · exact h.le x hx
    · rw [mem_singleton.mp hx, he]
  · cases hrole.symm.trans hc
  · rw [last_log_term_append r e hlog, he, hterm]

end Terms

/-! ### The votes of a node -/

/-- What node `i` remembers of its votes `V`. -/
structure NodeVotes (i : Nat) (V : Nat → Nat → Prop) (r : Raft) : Prop extends LogTerms r where
  id : r.id = i
  past : ∀ t c, V t c → t ≤ r.current_term
  /-- The vote of the term is known, or was the node's own and its log ends in
      the term. -/
  now : ∀ c, V r.current_term c → r.voted_for = some c ∨
    (r.voted_for = none ∧ c = i ∧ raft_last_log_term r = r.current_term)
  office : r.role ≠ .RAFT_FOLLOWER → r.voted_for = some i ∧ V r.current_term i
  one : ∀ t c c', V t c → V t c' → c = c'

section NodeVotes

variable {i : Nat} {V : Nat → Nat → Prop} {r r' : Raft}

variable (h : NodeVotes i V r)

include h

/-- Nothing that matters for votes has changed. -/
theorem NodeVotes.same (hid : r'.id = r.id)
    (hterm : r'.current_term = r.current_term) (hvote : r'.voted_for = r.voted_for)
    (hrole : r'.role = r.role) (hlog : r'.log = r.log) : NodeVotes i V r' where
  toLogTerms := h.toLogTerms.same hterm hrole hlog
  id := hid.trans h.id
  past := by rw [hterm]; exact h.past
  now := by rw [hterm, hvote, last_log_term_congr hlog]; exact h.now
  office := by rw [hterm, hvote, hrole]; exact h.office
  one := h.one

/-- The node follows, with what it knew. -/
theorem NodeVotes.follow (hid : r'.id = r.id)
    (hterm : r'.current_term = r.current_term) (hvote : r'.voted_for = r.voted_for)
    (hrole : r'.role = .RAFT_FOLLOWER) (hlog : r'.log = r.log) : NodeVotes i V r' where
  toLogTerms := .of_follower hrole (by rw [hlog, hterm]; exact h.le)
  id := hid.trans h.id
  past := by rw [hterm]; exact h.past
  now := by rw [hterm, hvote, last_log_term_congr hlog]; exact h.now
  office hne := absurd hrole hne
  one := h.one

theorem NodeVotes.become_follower {u : Nat} (hu : r.current_term < u) :
    NodeVotes i V (become_follower r u) where
  toLogTerms := .of_follower rfl fun e he => le_of_lt (lt_of_le_of_lt (h.le e he) hu)
  __ := h
  past t c hv := le_of_lt (lt_of_le_of_lt (h.past t c hv) hu)
  now c hv := absurd (h.past u c hv) (Nat.not_le.mpr hu)
  office hne := absurd rfl hne

theorem NodeVotes.step_down (u : Nat) :
    NodeVotes i V (step_down_if_higher r u) := by
  unfold step_down_if_higher
  split
  · next hu => exact h.become_follower hu
  · exact h

/-- A leader, also one that takes office, appends an entry of its term. -/
theorem NodeVotes.append (hl : r.role ≠ .RAFT_FOLLOWER) {e : RaftEntry}
    (he : e.term = r.current_term) (hid : r'.id = r.id) (hterm : r'.current_term = r.current_term)
    (hvote : r'.voted_for = r.voted_for) (hrole : r'.role = .RAFT_LEADER)
    (hlog : r'.log = r.log ++ [e]) : NodeVotes i V r' where
  toLogTerms := h.toLogTerms.append he hrole hterm hlog
  id := hid.trans h.id
  past := by rw [hterm]; exact h.past
  now c hv := by
    rw [hterm] at hv
    rw [hvote]
    refine (h.now c hv).imp_right fun hnone => ?_
    have hown := (h.office hl).1
    rw [hnone.1] at hown
    cases hown
  office _ := by
    rw [hterm, hvote]
    exact h.office hl
  one := h.one

/-- A leader that commits its own removal forgets its vote, but its log ends in
    its term. -/
theorem NodeVotes.leader_advance_commit (hl : r.role = .RAFT_LEADER) :
    NodeVotes i V (leader_advance_commit r) := by
  rcases leader_advance_commit_cases r with heq | ⟨k, -, hk, heq⟩
  · rw [heq]
    exact h
  rw [heq]
  obtain ⟨applied, ctx, hcommit⟩ := commit_to_cases r k
  rw [hcommit]
  split
  · exact h.same rfl rfl rfl rfl rfl
  · have hown := h.office (by rw [hl]; nofun)
    have hlast : raft_last_log_term r = r.current_term := by
      refine (h.leads hl).resolve_right fun hlt => ?_
      obtain ⟨e, he, hterm⟩ := term_at_mem hk.last
      have := hlt e he
      rw [hterm, hk.own] at this
      exact lt_irrefl _ this
    exact {
      toLogTerms := .of_follower rfl h.le
      __ := h
      now := fun c hv => by
        refine .inr ⟨rfl, h.one _ _ _ hv hown.2, ?_⟩
        exact (last_log_term_congr rfl).trans hlast
      office := fun hne => absurd rfl hne
      one := h.one }

/-- What a message carries is not of a later term, and a candidate stands with
    a log of earlier terms. -/
def MsgTerms (m : RaftMsg) : Prop :=
  match m.body with
  | .request_vote _ last_log_term => last_log_term < m.term
  | .append_entries _ _ _ entries _ => ∀ e ∈ entries, e.term ≤ m.term
  | .install_snapshot _ last_included_term _ _ => last_included_term ≤ m.term
  | _ => True

/-- A message of node `i` that is no vote. -/
structure NoVote (i : Nat) (m : RaftMsg) : Prop where
  sender : m.sender = i
  terms : MsgTerms m
  body : m.body ≠ .request_vote_reply true

theorem NodeVotes.heartbeat {r₁ : Raft} :
    ∀ m ∈ for_peers r₁ (send_append_entries r) [], NoVote i m := by
  refine for_peers_all (fun peer out _ _ hout => ?_) (by simp)
  intro m hm
  unfold send_append_entries send_install_snapshot at hm
  split at hm <;> rcases mem_push_msg hm with hm | rfl
  · exact hout m hm
  · exact ⟨h.id, h.le r.marker mem_cons_self, nofun⟩
  · exact hout m hm
  · exact ⟨h.id, fun e he => h.le e (mem_of_mem_drop (mem_of_mem_take he)), nofun⟩

variable (hc : r.role = .RAFT_CANDIDATE)

include hc

theorem NodeVotes.ask :
    ∀ m ∈ for_peers r (send_request_vote r) [], NoVote i m := by
  refine for_peers_all (fun peer out _ _ hout => ?_) (by simp)
  intro m hm
  rcases mem_push_msg hm with hm | rfl
  · exact hout m hm
  · obtain ⟨e, he, hterm⟩ := last_log_term_mem r
    refine ⟨h.id, ?_, nofun⟩
    show raft_last_log_term r < r.current_term
    rw [← hterm]
    exact h.stands hc e he

theorem NodeVotes.take_office :
    NodeVotes i V (take_office r) := by
  have hne : r.role ≠ .RAFT_FOLLOWER := by
    rw [hc]
    nofun
  unfold MiniDb.take_office
  dsimp only
  split
  · rw [log_append_plain rfl]
    exact h.append hne rfl rfl rfl rfl rfl rfl
  · exact {
      __ := h
      stands := nofun
      leads := fun _ => .inr (h.stands hc)
      office := fun _ => h.office hne
      one := h.one }

omit hc h in
theorem become_leader_term (r : Raft) (out : List RaftMsg) :
    (become_leader r out).1.current_term = r.current_term :=
  (leader_advance_commit_keeps (take_office r)).2.1.trans (take_office_spec r).term

theorem NodeVotes.become_leader :
    NodeVotes i V (become_leader r []).1 ∧ ∀ m ∈ (become_leader r []).2, NoVote i m := by
  have hr : NodeVotes i V (MiniDb.become_leader r []).1 :=
    ((h.take_office hc).leader_advance_commit (take_office_spec r).role).same rfl rfl rfl rfl rfl
  exact ⟨hr, hr.heartbeat⟩

omit hc

/-- A node that stands for election votes for itself, in a term it has not
    voted in. -/
theorem NodeVotes.stand (hid : r'.id = r.id)
    (hterm : r'.current_term = r.current_term + 1) (hvote : r'.voted_for = some i)
    (hrole : r'.role = .RAFT_CANDIDATE) (hlog : r'.log = r.log) :
    NodeVotes i (fun t c => V t c ∨ t = r.current_term + 1 ∧ c = i) r' := by
  have hlt : ∀ e ∈ r'.log, e.term < r'.current_term := by
    intro e he
    rw [hlog] at he
    rw [hterm]
    exact Nat.lt_succ_of_le (h.le e he)
  have hnew : ∀ c, ¬ V (r.current_term + 1) c := fun c hv => by
    have := h.past _ c hv
    omega
  exact {
    le := fun e he => le_of_lt (hlt e he)
    stands := fun _ => hlt
    leads := fun hl => by rw [hrole] at hl; cases hl
    id := hid.trans h.id
    past := by
      rintro t c (hv | ⟨rfl, -⟩)
      · rw [hterm]
        exact Nat.le_succ_of_le (h.past t c hv)
      · exact le_of_eq hterm.symm
    now := by
      intro c hv
      rw [hterm] at hv
      rcases hv with hv | ⟨-, rfl⟩
      · exact absurd hv (hnew c)
      · exact .inl hvote
    office := fun _ => ⟨hvote, .inr ⟨hterm, rfl⟩⟩
    one := by
      rintro t c c' (hv | ⟨rfl, rfl⟩) (hv' | ⟨ht, rfl⟩)
      · exact h.one t c c' hv hv'
      · exact absurd (ht ▸ hv) (hnew c)
      · exact absurd hv' (hnew c')
      · rfl }

/-- A follower votes for a candidate it may vote for. -/
theorem NodeVotes.grant {c : Nat}
    (hfree : ∀ c', V r.current_term c' → c' = c) (hoff : r.role = .RAFT_FOLLOWER ∨ c = i)
    (hid : r'.id = r.id) (hterm : r'.current_term = r.current_term) (hvote : r'.voted_for = some c)
    (hrole : r'.role = r.role) (hlog : r'.log = r.log) :
    NodeVotes i (fun t c' => V t c' ∨ t = r.current_term ∧ c' = c) r' where
  toLogTerms := h.toLogTerms.same hterm hrole hlog
  id := hid.trans h.id
  past := by
    rintro t c' (hv | ⟨rfl, -⟩)
    · rw [hterm]
      exact h.past t c' hv
    · exact le_of_eq hterm.symm
  now := by
    intro c' hv
    rw [hterm] at hv
    rcases hv with hv | ⟨-, rfl⟩
    · rw [hfree c' hv]
      exact .inl hvote
    · exact .inl hvote
  office := by
    rw [hrole, hvote, hterm]
    intro hne
    rcases hoff with hf | rfl
    · exact absurd hf hne
    · exact ⟨rfl, .inl (h.office hne).2⟩
  one := by
    rintro t c₁ c₂ (hv | ⟨rfl, rfl⟩) (hv' | ⟨ht, rfl⟩)
    · exact h.one t c₁ c₂ hv hv'
    · exact hfree c₁ (ht ▸ hv)
    · exact (hfree c₂ hv').symm
    · rfl

/-- A follower takes over another log.  If it has forgotten its own vote, the
    new log has to end in the term as well. -/
theorem NodeVotes.relog (hid : r'.id = r.id)
    (hterm : r'.current_term = r.current_term) (hvote : r'.voted_for = r.voted_for)
    (hrole : r'.role = .RAFT_FOLLOWER) (hle : ∀ e ∈ r'.log, e.term ≤ r.current_term)
    (htail : r.voted_for = none → V r.current_term i → raft_last_log_term r' = r.current_term) :
    NodeVotes i V r' where
  toLogTerms := .of_follower hrole (by rw [hterm]; exact hle)
  id := hid.trans h.id
  past := by rw [hterm]; exact h.past
  now c hv := by
    rw [hterm] at hv ⊢
    rw [hvote]
    refine (h.now c hv).imp_right fun ⟨hnone, hc, _⟩ => ⟨hnone, hc, htail hnone ?_⟩
    rw [← hc]
    exact hv
  office hne := absurd hrole hne
  one := h.one

/-- The hypothesis on the log after a message, for the node that has stepped
    down to the term of the message. -/
theorem NodeVotes.tail_step_down {u last : Nat}
    (htail : r.current_term = u → r.voted_for = none → V u i → last = u)
    (hu : ¬ u < (step_down_if_higher r u).current_term) :
    (step_down_if_higher r u).voted_for = none → V (step_down_if_higher r u).current_term i →
      last = (step_down_if_higher r u).current_term := by
  intro hnone hv
  have hge := le_step_down r u
  unfold step_down_if_higher at *
  split at hv
  · next hlt => exact absurd (h.past u i hv) (Nat.not_le.mpr hlt)
  · next hlt =>
    rw [if_neg hlt] at hnone hu hge ⊢
    have heq : r.current_term = u := by omega
    rw [heq]
    exact htail heq hnone (heq ▸ hv)

variable {msg : RaftMsg} {out : List RaftMsg} {index : Nat}

/-- Votes among the messages of a call. -/
def Granted (out : List RaftMsg) (t c : Nat) : Prop :=
  ∃ m ∈ out, m.term = t ∧ m.receiver = c ∧ m.body = .request_vote_reply true

/-- A call on node `i`, which stands for election in the terms `st`. -/
structure VoteTurn (i : Nat) (V : Nat → Nat → Prop) (st : List (Nat × Nat))
    (res : Raft × List RaftMsg) : Prop where
  node : NodeVotes i (fun t c => V t c ∨ Granted res.2 t c ∨ (i, t) ∈ st ∧ c = i) res.1
  sender : ∀ m ∈ res.2, m.sender = i
  terms : ∀ m ∈ res.2, MsgTerms m

theorem NodeVotes.congr {W : Nat → Nat → Prop} (hVW : ∀ t c, V t c ↔ W t c) :
    NodeVotes i W r := by
  have heq : V = W := funext fun t => funext fun c => propext (hVW t c)
  exact heq ▸ h

omit h in
theorem not_granted (hout : ∀ m ∈ out, NoVote i m) (t c : Nat) : ¬ Granted out t c := by
  rintro ⟨m, hm, -, -, hbody⟩
  exact (hout m hm).body hbody

omit h in
theorem NodeVotes.turn {st : List (Nat × Nat)}
    (h : NodeVotes i (fun t c => V t c ∨ (i, t) ∈ st ∧ c = i) r') (hout : ∀ m ∈ out, NoVote i m) :
    VoteTurn i V st (r', out) where
  node := h.congr fun t c => or_congr_right (by simp [not_granted hout t c])
  sender m hm := (hout m hm).sender
  terms m hm := (hout m hm).terms

omit h in
theorem NodeVotes.quiet (h : NodeVotes i V r') (hout : ∀ m ∈ out, NoVote i m) :
    VoteTurn i V [] (r', out) :=
  NodeVotes.turn (h.congr fun t c => by simp) hout

omit h in
theorem NodeVotes.silent (h : NodeVotes i V r') : VoteTurn i V [] (r', []) := h.quiet (by simp)

/-- The only place where a node votes for another.  The candidate's log ends
    before the term, so a node whose own log ends in it refuses. -/
theorem NodeVotes.vote_granted {idx term : Nat} (hlt : term < r.current_term)
    (hvote : r.voted_for = none ∨ r.voted_for = some msg.sender)
    (hup : candidate_log_up_to_date r idx term = true) :
    VoteTurn i V [] ({ r with voted_for := some msg.sender, election_elapsed := 0 },
      [answer r msg (.request_vote_reply true)]) := by
  have hlast : raft_last_log_term r ≤ term := by
    unfold candidate_log_up_to_date at hup
    split at hup
    · exact le_of_lt (of_decide_eq_true hup)
    · next heq => exact le_of_eq (not_not.mp heq).symm
  have hfree : ∀ c, V r.current_term c → c = msg.sender := by
    intro c hv
    rcases h.now c hv with hsome | ⟨-, -, htail⟩
    · rw [hsome] at hvote
      exact some.inj (hvote.resolve_left nofun)
    · omega
  have hoff : r.role = .RAFT_FOLLOWER ∨ msg.sender = i := by
    by_cases hf : r.role = .RAFT_FOLLOWER
    · exact .inl hf
    · rw [(h.office hf).1] at hvote
      exact .inr (some.inj (hvote.resolve_left nofun)).symm
  have hnode : NodeVotes i (fun t c => V t c ∨ t = r.current_term ∧ c = msg.sender)
      { r with voted_for := some msg.sender, election_elapsed := 0 } :=
    h.grant hfree hoff rfl rfl rfl rfl rfl
  refine ⟨?_, forall_mem_singleton.mpr h.id, forall_mem_singleton.mpr trivial⟩
  refine hnode.congr fun t c => or_congr_right ?_
  simp [Granted, answer, eq_comm]

theorem note_read_ack_same (peer epoch : Nat) :
    NodeVotes i V (note_read_ack r peer epoch) := by
  unfold note_read_ack
  dsimp only
  repeat' split
  all_goals exact h.same rfl rfl rfl rfl rfl

/-- Every message, if a log that guards a forgotten vote keeps its end. -/
theorem NodeVotes.recv (hm : MsgTerms msg)
    (htail : r.current_term = msg.term → r.voted_for = none → V msg.term i →
      raft_last_log_term (raft_recv r msg).1 = msg.term) : VoteTurn i V [] (raft_recv r msg) := by
  have h₁ := h.step_down msg.term
  have hge := le_step_down r msg.term
  have hanswer (body : RaftBody) (hno : body ≠ .request_vote_reply true)
      (hterms : MsgTerms (answer (step_down_if_higher r msg.term) msg body)) :
      ∀ m ∈ [answer (step_down_if_higher r msg.term) msg body], NoVote i m :=
    forall_mem_singleton.mpr ⟨h₁.id, hterms, hno⟩
  have hadv (k) (hrole : r.role = .RAFT_LEADER) :
      NodeVotes i V (MiniDb.leader_advance_commit (note_match r msg.sender k)) :=
    NodeVotes.leader_advance_commit (h.same rfl rfl rfl rfl rfl) hrole
  unfold MsgTerms at hm
  have hrecv := raft_recv_received r msg
  generalize raft_recv r msg = res at hrecv htail ⊢
  cases hrecv with
  | ignored => exact h.silent
  | overtaken hlater => exact (h.become_follower hlater).silent
  | vote_refused | entries_old | snapshot_old => exact h₁.quiet (hanswer _ nofun trivial)
  | vote_granted hbody _ hfree hup =>
    rw [hbody] at hm
    exact h₁.vote_granted (lt_of_lt_of_le hm hge) hfree hup
  | counted | backed => exact NodeVotes.silent (h.same rfl rfl rfl rfl rfl)
  | elected _ hrole =>
    obtain ⟨hr, hout⟩ := NodeVotes.become_leader
      (r := { r with votes_granted := r.votes_granted + 1 }) (h.same rfl rfl rfl rfl rfl) hrole
    exact hr.quiet hout
  | entries_refused | snapshot_known =>
    exact NodeVotes.quiet (h₁.follow rfl rfl rfl rfl rfl) (hanswer _ nofun trivial)
  | @entries_taken prev _ commit _ es hbody hold =>
    rw [hbody] at hm
    obtain ⟨ents, mask, happ, hmem⟩ := append_all_eq (following r msg.term) prev es
    obtain ⟨k, applied, ctx, hcommit⟩ :=
      follow_commit_eq (append_all (following r msg.term) prev es) commit
    rw [hcommit, happ] at htail ⊢
    refine NodeVotes.quiet (h₁.relog rfl rfl rfl rfl (fun e he => ?_)
      (h.tail_step_down htail hold)) (hanswer _ nofun trivial)
    rcases mem_cons.mp he with rfl | he
    · exact h₁.le _ mem_cons_self
    · exact (hmem e he).elim (fun he => h₁.le e (mem_cons_of_mem _ he)) fun he =>
        le_trans (hm e he) hge
  | entries_acked _ hrole => exact (note_read_ack_same (hadv _ hrole) _ _).silent
  | installed hbody hold =>
    rw [hbody] at hm
    refine NodeVotes.quiet (h₁.relog rfl rfl rfl rfl (fun e he => ?_)
      (h.tail_step_down htail hold)) (hanswer _ nofun trivial)
    rw [mem_singleton.mp he]
    exact le_trans hm hge
  | snapshot_acked _ hrole => exact (hadv _ hrole).silent

theorem NodeVotes.tick :
    VoteTurn i V (if r.current_term < (raft_tick r).1.current_term then
      [(i, (raft_tick r).1.current_term)] else []) (raft_tick r) := by
  unfold raft_tick
  split
  · dsimp only
    split
    · have hr : NodeVotes i V { r with heartbeat_elapsed := 0 } := h.same rfl rfl rfl rfl rfl
      rw [if_neg (lt_irrefl _)]
      exact hr.quiet hr.heartbeat
    · rw [if_neg (lt_irrefl _)]
      exact NodeVotes.silent (h.same rfl rfl rfl rfl rfl)
  split
  · dsimp only
    split
    · have hstand : NodeVotes i (fun t c => V t c ∨ t = r.current_term + 1 ∧ c = i) { r with
          current_term := r.current_term + 1
          role := .RAFT_CANDIDATE
          voted_for := some r.id
          votes_granted := 1
          election_elapsed := 0 } :=
        h.stand rfl rfl (congrArg some h.id) rfl rfl
      -- the only call in which a node raises its own term
      have hturn : ∀ res : Raft × List RaftMsg, res.1.current_term = r.current_term + 1 →
          NodeVotes i (fun t c => V t c ∨ t = r.current_term + 1 ∧ c = i) res.1 →
          (∀ m ∈ res.2, NoVote i m) →
          VoteTurn i V (if r.current_term < res.1.current_term then [(i, res.1.current_term)] else [])
            res := by
        intro res hterm hres hout
        rw [hterm, if_pos (Nat.lt_succ_self _)]
        exact NodeVotes.turn (hres.congr fun t c => or_congr_right (by simp)) hout
      unfold become_candidate
      dsimp only
      split
      · obtain ⟨hr, hout⟩ := hstand.become_leader rfl
        exact hturn _ (become_leader_term _ _) hr hout
      · exact hturn _ rfl hstand (hstand.ask rfl)
    · rw [if_neg (lt_irrefl _)]
      exact NodeVotes.silent (h.same rfl rfl rfl rfl rfl)
  · rw [if_neg (lt_irrefl _)]
    exact h.silent

theorem NodeVotes.submit (command : Int) :
    NodeVotes i V (raft_submit r command).1 := by
  unfold raft_submit
  split
  · exact h
  next hl =>
  rw [log_append_plain rfl]
  have hl' := not_not.mp hl
  exact h.append (by rw [hl']; nofun) rfl rfl rfl rfl hl' rfl

theorem NodeVotes.change_config (new_mask : Nat) :
    NodeVotes i V (raft_change_config r new_mask).1 := by
  rcases raft_change_config_cases r new_mask with heq | ⟨hl, -, -, next, mtch, heq⟩
  · rw [heq]
    exact h
  · rw [heq]
    exact h.append (by rw [hl]; nofun) rfl rfl rfl rfl hl rfl

theorem NodeVotes.read_index :
    VoteTurn i V [] ((raft_read_index r).1, (raft_read_index r).2.1) := by
  unfold raft_read_index
  split
  · exact h.silent
  split
  · exact h.silent
  have hsend : ∀ x : Raft, NodeVotes i V x →
      VoteTurn i V [] (x, for_peers x (send_append_entries x) []) := fun x hx => hx.quiet hx.heartbeat
  refine hsend _ ?_
  dsimp only
  split
  · exact h.same rfl rfl rfl rfl rfl
  · exact h.same rfl rfl rfl rfl rfl

omit h in
/-- The end of a log that has been cut at `index`. -/
theorem snapshot_last_term (hbase : r.log_base < index)
    (hlast : index ≤ raft_last_log_index r)
    (hr' : r'.log = ⟨term_at r index, 0, false, false⟩ :: r.entries.drop (index - r.log_base)) :
    raft_last_log_term r' = raft_last_log_term r := by
  have hlen : raft_last_log_index r = r.log_base + r.entries.length := rfl
  obtain ⟨k, rfl⟩ : ∃ k, index = r.log_base + (k + 1) := ⟨index - r.log_base - 1, by omega⟩
  unfold raft_last_log_term
  rw [hr', Nat.add_sub_cancel_left, length_cons, length_drop, Nat.add_sub_cancel]
  obtain hend | hlt := Nat.eq_or_lt_of_le (show k + 1 ≤ r.entries.length by omega)
  · -- only the marker is left
    rw [hend, Nat.sub_self]
    show term_at r (r.log_base + r.entries.length) = _
    unfold term_at
    rw [Nat.add_sub_cancel_left]
    rfl
  · obtain ⟨d, hd⟩ : ∃ d, r.entries.length = k + 1 + (d + 1) := ⟨r.entries.length - k - 2, by omega⟩
    unfold Raft.log
    rw [length_cons, hd, Nat.add_sub_cancel_left, Nat.add_sub_cancel, getElem?_cons_succ,
      getElem?_drop, ← Nat.add_assoc, getElem?_cons_succ]

/-- Compaction keeps the end of the log, and the marker the term of an entry. -/
theorem NodeVotes.snapshot {sm_state : Int}
    (hs : raft_snapshot r index sm_state = some r') : NodeVotes i V r' := by
  unfold raft_snapshot at hs
  obtain ⟨hidx, hr'⟩ := ite_none_left_eq_some.mp hs
  push Not at hidx
  have hlast : raft_last_log_term r' = raft_last_log_term r := by
    refine snapshot_last_term hidx.1 hidx.2.2 ?_
    cases hr'
    rfl
  cases hr'
  obtain ⟨e₀, he₀, hmark⟩ := term_at_mem hidx.2.2
  have hmem : ∀ e ∈ r.entries.drop (index - r.log_base), e ∈ r.log := fun e he =>
    mem_cons_of_mem _ (mem_of_mem_drop he)
  exact {
    le := by
      intro e he
      rcases mem_cons.mp he with rfl | he
      · exact hmark ▸ h.le e₀ he₀
      · exact h.le e (hmem e he)
    stands := by
      intro hc e he
      rcases mem_cons.mp he with rfl | he
      · exact hmark ▸ h.stands hc e₀ he₀
      · exact h.stands hc e (hmem e he)
    leads := by
      intro hl
      rw [hlast]
      refine (h.leads hl).imp_right fun hlt e he => ?_
      rcases mem_cons.mp he with rfl | he
      · exact hmark ▸ hlt e₀ he₀
      · exact hlt e (hmem e he)
    __ := h
    now := by
      rw [hlast]
      exact h.now
    one := h.one }

theorem NodeVotes.crash_restart : NodeVotes i V (raft_crash_restart r) :=
  h.follow rfl rfl rfl rfl rfl

theorem NodeVotes.reloaded (fresh : Bool) : NodeVotes i V (reloaded r fresh) := by
  cases fresh with
  | true => exact h.follow rfl rfl rfl rfl rfl
  | false => exact h.same rfl rfl rfl rfl rfl

end NodeVotes

/-! ### Runs -/

/-- A node that has stepped down from the leadership of its term, and so has
    forgotten its vote, keeps a log that ends in the term. -/
def tail_kept (s : Polled) : Fault → Bool
  | .event (.deliver k) =>
      match s.cluster.net[k]? with
      | none => true
      | some m =>
          let r := s.cluster.nodes m.receiver
          if r.current_term = m.term ∧ r.voted_for = none ∧ s.Voted m.receiver m.term m.receiver then
            decide (raft_last_log_term (raft_recv r m).1 = m.term)
          else true
  | _ => true

structure PolledInv (s : Polled) : Prop where
  node : ∀ i, NodeVotes i (s.Voted i) (s.cluster.nodes i)
  msgs : ∀ m ∈ s.cluster.net, MsgTerms m

theorem polled_init {n : Nat} {et ht : Nat → Nat} {c : Cluster}
    (hc : cluster_init n et ht = some c) : PolledInv ⟨⟨c, []⟩, []⟩ := by
  obtain ⟨-, -, rfl⟩ := map_eq_some_iff.mp hc
  refine ⟨fun i => ?_, nofun⟩
  have hnone : ∀ (c₀ : Cluster) t c', ¬ Polled.Voted ⟨⟨c₀, []⟩, []⟩ i t c' := by simp [Polled.Voted]
  exact {
    toLogTerms := .of_follower rfl fun e he => le_of_eq (mem_singleton.mp he ▸ rfl)
    id := rfl
    past := fun t c' hv => absurd hv (hnone _ t c')
    now := fun c' hv => absurd hv (hnone _ _ c')
    office := fun hne => absurd rfl hne
    one := fun t c' _ hv => absurd hv (hnone _ t c') }

section Steps

variable {s : Polled} {res : Raft × List RaftMsg} {rest : List RaftMsg}

/-- Node `i` takes a call, and all else stays. -/
theorem PolledInv.turn (h : PolledInv s) {i : Nat} {st : List (Nat × Nat)}
    (ht : VoteTurn i (s.Voted i) st res) (hst : ∀ x ∈ st, x.1 = i)
    (hrest : ∀ m ∈ rest, m ∈ s.cluster.net) :
    PolledInv ⟨⟨{ s.cluster with net := rest }.put i res, s.sent ++ res.2⟩, s.stood ++ st⟩ := by
  refine ⟨fun j => ?_, ?_⟩
  · show NodeVotes j _ (update s.cluster.nodes i res.1 j)
    by_cases hji : j = i
    · subst hji
      rw [update_self]
      refine ht.node.congr fun t c => ?_
      -- every message of the call is one of node `j`
      have hgrant : Granted res.2 t c ↔ ∃ m ∈ res.2, m.sender = j ∧ m.term = t ∧ m.receiver = c ∧
          m.body = .request_vote_reply true := by
        refine exists_congr fun m => and_congr_right fun hm => ?_
        rw [and_iff_right (ht.sender m hm)]
      unfold Polled.Voted
      rw [hgrant]
      simp only [mem_append, or_and_right, exists_or]
      exact or_or_or_comm
    · rw [update_of_ne hji]
      refine (h.node j).congr fun t c => ?_
      unfold Polled.Voted
      refine or_congr ⟨?_, ?_⟩ ⟨?_, ?_⟩
      · rintro ⟨m, hm, hvote⟩
        exact ⟨m, mem_append_left _ hm, hvote⟩
      · rintro ⟨m, hm, hvote⟩
        refine ⟨m, (mem_append.mp hm).resolve_right fun hm => ?_, hvote⟩
        exact hji (hvote.1.symm.trans (ht.sender m hm))
      · rintro ⟨hmem, hc⟩
        exact ⟨mem_append_left _ hmem, hc⟩
      · rintro ⟨hmem, hc⟩
        exact ⟨(mem_append.mp hmem).resolve_right fun hmem => hji (hst _ hmem), hc⟩
  · intro m hm
    rcases mem_append.mp hm with hm | hm
    · exact h.msgs m (hrest m hm)
    · exact ht.terms m hm

theorem PolledInv.call (h : PolledInv s) {ev : Event} {i : Nat}
    (hcall : Calls s.cluster ev i rest res)
    (hok : tail_kept s (.event ev) = true) {c' : Cluster} (hc' : c'.nodes i = res.1) :
    VoteTurn i (s.Voted i) (candidacies s.cluster c' ev) res ∧
      ∀ x ∈ candidacies s.cluster c' ev, x.1 = i := by
  have hr := h.node i
  cases hcall with
  | tick =>
    unfold candidacies
    dsimp only
    rw [hc']
    refine ⟨hr.tick, fun x hx => ?_⟩
    split at hx
    · rw [mem_singleton.mp hx]
    · cases hx
  | submit _ command => exact ⟨(hr.submit command).silent, nofun⟩
  | crash_restart => exact ⟨hr.crash_restart.silent, nofun⟩
  | snapshot _ index sm_state r' hs => exact ⟨(hr.snapshot hs).silent, nofun⟩
  | change_config _ new_mask => exact ⟨(hr.change_config new_mask).silent, nofun⟩
  | read_index => exact ⟨hr.read_index, nofun⟩
  | deliver k msg rest hperm hk =>
    refine ⟨hr.recv (h.msgs msg (hperm.subset mem_cons_self)) fun hterm hvote hv => ?_, nofun⟩
    unfold tail_kept at hok
    dsimp only at hok
    rw [hk] at hok
    dsimp only at hok
    rw [if_pos ⟨hterm, hvote, hv⟩] at hok
    exact of_decide_eq_true hok

theorem PolledInv.step (h : PolledInv s) {f : Fault} (hok : tail_kept s f = true) {s' : Polled}
    (hs : s.step f = some s') : PolledInv s' := by
  cases f with
  | event ev =>
    obtain ⟨⟨c', sent'⟩, ht, rfl⟩ := map_eq_some_iff.mp hs
    obtain ⟨i, rest, res, hrest, hcall, hc', hsent⟩ := Traced.step_calls ht
    dsimp only at hc' hsent
    have hnode : c'.nodes i = res.1 := by
      rw [hc']
      exact update_self _ _ _
    obtain ⟨hturn, hst⟩ := h.call hcall hok hnode
    have hinv := h.turn hturn hst hrest
    rw [← hc', ← hsent] at hinv
    exact hinv
  | duplicate k =>
    obtain ⟨m, hm, rfl⟩ := map_eq_some_iff.mp hs
    refine ⟨h.node, fun x hx => ?_⟩
    rcases mem_append.mp hx with hx | hx
    · exact h.msgs x hx
    · rw [mem_singleton.mp hx]
      exact h.msgs m (mem_of_getElem? hm)
  | reload i fresh =>
    obtain ⟨-, hs'⟩ := ite_none_right_eq_some.mp hs
    cases hs'
    have hturn := h.turn ((h.node i).reloaded fresh).silent nofun (fun _ => id)
    rw [append_nil, append_nil] at hturn
    exact hturn

end Steps

/-- In every run in which the logs of former leaders of the term keep their
    end, no node votes for two candidates in one term. -/
theorem one_vote_in_run {n : Nat} {et ht : Nat → Nat} {c : Cluster} {fs : List Fault} {s : Polled}
    (hinit : cluster_init n et ht = some c)
    (hrun : Steps Polled.step (fun s f => tail_kept s f = true) ⟨⟨c, []⟩, []⟩ fs s) : OneVote s := by
  have hinv := hrun.invariant PolledInv (fun _ _ _ h hok hs => h.step hok hs) (polled_init hinit)
  exact fun i t c₁ c₂ => (hinv.node i).one t c₁ c₂

/-- Leader `0` of term 1 removes itself and steps down; the request of the other
    candidate of the term reaches it after that. -/
def leader_leaves : List Fault :=
  [.event (.tick 0), .event (.tick 2), .event (.deliver 0), .event (.deliver 3),
    .event (.change_config 0 6), .event (.tick 0), .event (.deliver 3), .event (.deliver 4),
    .event (.deliver 3), .event (.deliver 3), .event (.deliver 3), .event (.deliver 3),
    .event (.deliver 3), .event (.deliver 3), .reload 0 true, .event (.deliver 1)]

theorem one_vote_leader_leaves :
    ∃ c s, cluster_init 3 (fun _ => 1) (fun _ => 1) = some c ∧
      Steps Polled.step (fun s f => tail_kept s f = true) ⟨⟨c, []⟩, []⟩ leader_leaves s ∧
      s.Voted 0 1 0 ∧ (s.cluster.nodes 0).voted_for = none ∧ OneVote s := by
  have hfacts : (cluster_init 3 (fun _ => 1) (fun _ => 1)).any fun c =>
      (run (fun s f => if tail_kept s f then Polled.step s f else none) ⟨⟨c, []⟩, []⟩
        leader_leaves).any fun s => s.Voted 0 1 0 ∧ (s.cluster.nodes 0).voted_for = none := by
    decide +kernel
  simp only [Option.any_eq_true, decide_eq_true_eq] at hfacts
  obtain ⟨c, hinit, s, hrun, hvoted, hnone⟩ := hfacts
  have hsteps := Steps.of_guarded hrun
  exact ⟨c, s, hinit, hsteps, hvoted, hnone, one_vote_in_run hinit hsteps⟩

/-- Duplicated replies are counted twice, so nodes `0` and `1` both lead term 3.
    Node `0` removes itself and steps down, node `1` then replaces its log, and
    the request of node `4`, a candidate of the same term, is granted. -/
def leader_replaced : List Fault :=
  [.event (.tick 1), .event (.deliver 2), .event (.deliver 2), .event (.deliver 2),
    .event (.deliver 2), .event (.submit 1 7), .event (.tick 1), .event (.deliver 4),
    .event (.deliver 7), .event (.deliver 4), .event (.deliver 6), .event (.deliver 6),
    .event (.deliver 6), .event (.deliver 6), .event (.deliver 6), .event (.tick 0),
    .event (.tick 0), .event (.deliver 10), .event (.tick 0), .event (.deliver 15),
    .duplicate 17, .event (.deliver 17), .event (.deliver 17), .event (.tick 1),
    .event (.deliver 23), .duplicate 24, .event (.deliver 24), .event (.deliver 24),
    .event (.tick 4), .event (.tick 4), .event (.change_config 0 30), .event (.tick 0),
    .event (.deliver 18), .event (.deliver 36), .event (.deliver 18), .event (.deliver 35),
    .event (.deliver 18), .event (.deliver 34), .event (.deliver 34), .event (.deliver 34),
    .event (.deliver 34), .event (.deliver 34), .event (.deliver 34), .event (.deliver 34),
    .event (.deliver 21), .event (.deliver 33), .event (.tick 1), .event (.deliver 33),
    .event (.deliver 28)]

theorem one_vote_leader_replaced :
    ¬∀ (n : Nat) (election_timeout heartbeat_timeout : Nat → Nat) (c : Cluster) (s : Polled)
      (fs : List Fault), cluster_init n election_timeout heartbeat_timeout = some c →
      run Polled.step ⟨⟨c, []⟩, []⟩ fs = some s → OneVote s := by
  intro hall
  have hfacts : (cluster_init 5 (fun _ => 1) (fun _ => 1)).any fun c =>
      (run Polled.step ⟨⟨c, []⟩, []⟩ leader_replaced).any fun s => s.Voted 0 3 0 ∧ s.Voted 0 3 4 := by
    decide +kernel
  simp only [Option.any_eq_true, decide_eq_true_eq] at hfacts
  obtain ⟨c, hinit, s, hrun, h0, h4⟩ := hfacts
  exact absurd (hall 5 _ _ c s _ hinit hrun 0 3 0 4 h0 h4) (by decide)

end MiniDb
