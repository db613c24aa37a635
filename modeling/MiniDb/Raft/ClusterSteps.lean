import MiniDb.Raft.Elections
import MiniDb.Raft.Replication

/-! # The cluster runs the protocol

  `ClusterRel` connects a cluster with fixed membership to the protocol:
  every node plays its part, every message in the network keeps its promise,
  and every vote is in the network or counted at most once.  Every event of
  the cluster keeps the connection, if the deliveries meet `commit_covered`
  and `snapshot_fits`. -/

namespace MiniDb

open Framework List Function Option

structure ClusterRel (K : Scope) (c : Cluster) (p : Proto Nat RaftEntry) : Prop where
  small : c.size ≤ RAFT_MAX_NODES
  inv : Inv (majorities c.size) p
  plain : Plain p
  node : ∀ i < c.size, NodeRel c.size K p i (c.nodes i)
  msgs : ∀ m ∈ c.net, MsgOk c.size K p m
  ballot : ∀ i < c.size, Ballot c.size p i (c.nodes i) c.net
  nodup : (ballots c.net).Nodup
  /-- Nobody is asked for a vote in a term the candidate has not reached. -/
  asked : ∀ b ∈ ballots c.net, b.2.2 ≤ (c.nodes b.2.1).current_term

theorem cluster_init_rel {n : Nat} {et ht : Nat → Nat} {c : Cluster} {K : Scope} (hK : K.compacts 0)
    (h : cluster_init n et ht = some c) : ClusterRel K c Proto.init := by
  obtain ⟨r, hr, rfl⟩ := map_eq_some_iff.mp h
  have hn := (ite_none_left_eq_some.mp hr).1
  push Not at hn
  refine ⟨hn.2, inv_init _, by simp [Plain, Proto.init], ?_, by simp, ?_, by simp [ballots],
    by simp [ballots]⟩
  · intro i _
    exact {
      id := rfl
      member := rfl
      base_member := rfl
      config_free := by simp [raft_start]
      term := rfl
      role := rfl
      vote := rfl
      bare := fun _ => rfl
      log := fun _ => ⟨le_rfl, rfl, rfl⟩
      base := fun _ => hK
      base_commit := fun _ => le_rfl
      matched := by simp [raft_start]
      next := by simp [raft_start]
      commit := fun _ => rfl
      last_applied := fun _ => rfl
      applied := by simp [raft_start] }
  · intro i _
    simp [Ballot, raft_start]

section Events

variable {K : Scope} {c c' : Cluster} {p p' : Proto Nat RaftEntry}

variable (h : ClusterRel K c p) {res : Raft × List RaftMsg} {i : Nat}

include h

theorem ClusterRel.party (hi : i < c.size) : Party c.size K p i (c.nodes i) :=
  { h.node i hi with inv := h.inv, plain := h.plain, lt := hi, small := h.small }

/-- Node `i` takes a turn. -/
theorem ClusterRel.turn (hi : i < c.size) {net rest : List RaftMsg}
    (ht : Turn c.size K p p' i net rest res)
    (hnet : ∀ b ∈ ballots net, b ∈ ballots c.net) (hrest : ∀ m ∈ rest, m ∈ c.net) :
    ClusterRel K ({ c with net := rest }.put i res) p' := by
  have hself : update c.nodes i res.1 i = res.1 := update_self _ _ _
  have hother : ∀ j, j ≠ i → update c.nodes i res.1 j = c.nodes j := fun j hj =>
    update_of_ne hj _ _
  have hterm : (c.nodes i).current_term ≤ res.1.current_term := by
    rw [(h.node i hi).term, ht.party.term]
    exact ht.moves.ext.term i
  refine ⟨h.small, ht.moves.inv, ht.moves.plain, ?_, ?_, ?_, ht.nodup, ?_⟩
  · intro j hj
    show NodeRel c.size K p' j (update c.nodes i res.1 j)
    by_cases hji : j = i
    · rw [hji, hself]
      exact ht.party.toNodeRel
    · rw [hother j hji]
      exact (h.node j hj).other h.inv ht.moves hji
  · intro m hm
    rcases mem_append.mp hm with hm | hm
    · exact (h.msgs m (hrest m hm)).extends h.inv ht.moves.ext
    · exact ht.msgs m hm
  · intro j hj
    show Ballot c.size p' j (update c.nodes i res.1 j) (rest ++ res.2)
    by_cases hji : j = i
    · rw [hji, hself]
      exact ht.ballot
    · rw [hother j hji]
      refine (h.ballot j hj).keep ht.moves.ext (KeepsBallot.refl _) ?_
      intro g hg
      rcases ht.asked _ hg with hold | ⟨hnew, -⟩
      · exact hnet _ hold
      · exact absurd hnew hji
  · intro b hb
    show b.2.2 ≤ (update c.nodes i res.1 b.2.1).current_term
    rcases ht.asked b hb with hold | ⟨hbi, hle⟩
    · have hle := h.asked b (hnet b hold)
      by_cases hbi : b.2.1 = i
      · rw [hbi, hself]
        rw [hbi] at hle
        exact le_trans hle hterm
      · rw [hother _ hbi]
        exact hle
    · rw [hbi, hself]
      exact hle

/-- A call that is no delivery and sends no ballots. -/
theorem ClusterRel.call (hi : i < c.size)
    (hc : NodeCall c.size K p p' i (c.nodes i) res) (hquiet : ballots res.2 = []) :
    ClusterRel K (c.put i res) p' ∧ Extends p p' :=
  ⟨h.turn hi (hc.turn hquiet (h.ballot i hi) h.nodup fun _ => id) (fun _ => id) fun _ => id,
    hc.moves.ext⟩

/-- A message is delivered to node `i`. -/
theorem ClusterRel.receive {msg : RaftMsg} {rest : List RaftMsg} (hperm : (msg :: rest).Perm c.net)
    (hi : msg.receiver < c.size)
    (hcov : K.commits → commit_covered (c.nodes msg.receiver) msg = true)
    (hfits : K.commits → snapshot_fits (c.nodes msg.receiver) msg = true) :
    ∃ p', Turn c.size K p p' msg.receiver (msg :: rest) rest
      (raft_recv (c.nodes msg.receiver) msg) := by
  have hparty := h.party hi
  have hok := h.msgs msg (hperm.subset mem_cons_self)
  have hballots : (ballots (msg :: rest)).Perm (ballots c.net) := hperm.filterMap ballot_of
  have hnodup : (ballots (msg :: rest)).Nodup := hballots.nodup_iff.mpr h.nodup
  have hb : Ballot c.size p msg.receiver (c.nodes msg.receiver) (msg :: rest) :=
    (h.ballot _ hi).mono fun b hmem => hballots.subset hmem
  -- what is left of the network after the delivery
  have hsub := (ballots_tail msg rest).subset
  have hnodup' := hnodup.sublist (ballots_tail msg rest)
  have hquiet : ∀ {p' : Proto Nat RaftEntry} {res : Raft × List RaftMsg},
      NodeCall c.size K p p' msg.receiver (c.nodes msg.receiver) res → ballots res.2 = [] →
      Turn c.size K p p' msg.receiver (msg :: rest) rest res := fun hc hnone =>
    hc.turn hnone (hb.mono hsub) hnodup' hsub
  have hrecv := raft_recv_received (c.nodes msg.receiver) msg
  generalize raft_recv (c.nodes msg.receiver) msg = res at hrecv ⊢
  -- what an answer promises
  have hpromise := hok.2
  cases hrecv with
  | ignored => exact ⟨p, hquiet hparty.idle rfl⟩
  | overtaken hlater => exact ⟨_, hquiet (hparty.become_follower hlater) rfl⟩
  | vote_refused =>
    obtain ⟨p', hc⟩ := hparty.step_down msg.term
    exact ⟨p', hquiet (hc.send ⟨hc.party.id_lt, nofun⟩) rfl⟩
  | vote_granted hbody hold hfree hup =>
    obtain ⟨p', hc, hreply⟩ := hparty.vote_granted hbody hok rfl hold hfree hup
    exact ⟨p', hc.turn_vote hreply hb hnodup⟩
  | counted hbody hrole hterm =>
    refine ⟨p, hparty.stay, { hparty with log := hparty.keep_log rfl rfl rfl }, by simp, ?_, ?_, ?_⟩
      <;> rw [append_nil]
    · exact hb.count hbody hok rfl hterm hnodup
    · exact hnodup'
    · exact fun b hmem => .inl (hsub hmem)
  | elected hbody hrole hterm hwon =>
    have hcount := hb.count hbody hok rfl hterm hnodup
    have hcounted : Party c.size K p msg.receiver { c.nodes msg.receiver with
        votes_granted := (c.nodes msg.receiver).votes_granted + 1 } :=
      { hparty with log := hparty.keep_log rfl rfl rfl }
    obtain ⟨p', hc⟩ := hcounted.elected hrole hcount hwon
    exact ⟨p', hc.turn (ballots_become_leader _) hcount hnodup' hsub⟩
  | entries_old =>
    obtain ⟨p', hc⟩ := hparty.step_down msg.term
    exact ⟨p', hquiet (hc.send ⟨hc.party.id_lt, nofun⟩) rfl⟩
  | entries_refused _ hold =>
    obtain ⟨p', hc, -⟩ := hparty.following hold
    exact ⟨p', hquiet (hc.send ⟨hc.party.id_lt, nofun⟩) rfl⟩
  | entries_taken hbody hold hprev =>
    obtain ⟨p', hc⟩ := hparty.entries_taken hbody hok hcov hold hprev
    exact ⟨p', hquiet hc rfl⟩
  | backed hrole hnext => exact ⟨p, hquiet (hparty.backed hrole hnext) rfl⟩
  | entries_acked hbody hrole hterm =>
    rw [hbody] at hpromise
    obtain ⟨p', hc⟩ := hparty.acked hrole hterm fun hK => hpromise hK rfl
    exact ⟨p', hquiet (hc.andThen (hc.party.note_read_ack _ _)) rfl⟩
  | snapshot_old =>
    obtain ⟨p', hc⟩ := hparty.step_down msg.term
    exact ⟨p', hquiet (hc.send ⟨hc.party.id_lt, fun _ => Nat.zero_le _⟩) rfl⟩
  | snapshot_known hbody hold hknown =>
    obtain ⟨p', hc⟩ := hparty.snapshot_taken hbody hok hfits hold
    rw [if_pos hknown] at hc
    exact ⟨p', hquiet hc rfl⟩
  | installed hbody hold hnew =>
    obtain ⟨p', hc⟩ := hparty.snapshot_taken hbody hok hfits hold
    rw [if_neg hnew] at hc
    exact ⟨p', hquiet hc rfl⟩
  | snapshot_acked hbody hrole hterm =>
    rw [hbody] at hpromise
    obtain ⟨p', hc⟩ := hparty.acked hrole hterm hpromise
    exact ⟨p', hquiet hc rfl⟩

end Events

/-! ### Runs -/

/-- The membership stays as it is. -/
def Event.keeps_members : Event → Bool
  | .change_config _ _ => false
  | _ => true

/-- Snapshots are taken at indexes that satisfy `K`. -/
def Event.compacts_in (K : Nat → Prop) : Event → Prop
  | .snapshot _ index _ => K index
  | _ => True

/-- The message that is delivered, if any, meets `commit_covered`. -/
def covered (c : Cluster) : Event → Bool
  | .deliver k => (c.net[k]?).all fun msg => commit_covered (c.nodes msg.receiver) msg
  | _ => true

/-- The message that is delivered, if any, meets `snapshot_fits`. -/
def fits (c : Cluster) : Event → Bool
  | .deliver k => (c.net[k]?).all fun msg => snapshot_fits (c.nodes msg.receiver) msg
  | _ => true

section Run

variable {K : Scope} {c c' : Cluster} {p : Proto Nat RaftEntry} {ev : Event}

/-- A delivery takes one message out of the network. -/
theorem Cluster.step_deliver {k : Nat} (hs : c.step (.deliver k) = some c') :
    ∃ msg rest, (msg :: rest).Perm c.net ∧ msg.receiver < c.size ∧ (∀ m ∈ rest, m ∈ c.net) ∧
      c.net[k]? = some msg ∧
      c' = { c with net := rest }.put msg.receiver (raft_recv (c.nodes msg.receiver) msg) := by
  simp only [Cluster.step] at hs
  cases hmsg : c.net[k]? with
  | none =>
    simp only [hmsg] at hs
    cases hs
  | some msg =>
    simp only [hmsg] at hs
    obtain ⟨hi, hc'⟩ := ite_none_right_eq_some.mp hs
    cases hc'
    obtain ⟨hk, rfl⟩ := List.getElem?_eq_some_iff.mp hmsg
    exact ⟨_, _, getElem_cons_eraseIdx_perm hk, hi, fun m hm => mem_of_mem_eraseIdx hm,
      rfl, rfl⟩

/-- The call behind an event: on node `i`, it leaves `rest` in the network and
    returns `res`. -/
inductive Calls (c : Cluster) : Event → Nat → List RaftMsg → Raft × List RaftMsg → Prop where
  | tick (i : Nat) : Calls c (.tick i) i c.net (raft_tick (c.nodes i))
  | submit (i : Nat) (command : Int) :
      Calls c (.submit i command) i c.net ((raft_submit (c.nodes i) command).1, [])
  | crash_restart (i : Nat) :
      Calls c (.crash_restart i) i c.net (raft_crash_restart (c.nodes i), [])
  | snapshot (i index : Nat) (sm_state : Int) (r : Raft)
      (h : raft_snapshot (c.nodes i) index sm_state = some r) :
      Calls c (.snapshot i index sm_state) i c.net (r, [])
  | change_config (i new_mask : Nat) :
      Calls c (.change_config i new_mask) i c.net ((raft_change_config (c.nodes i) new_mask).1, [])
  | read_index (i : Nat) : Calls c (.read_index i) i c.net
      ((raft_read_index (c.nodes i)).1, (raft_read_index (c.nodes i)).2.1)
  | deliver (k : Nat) (msg : RaftMsg) (rest : List RaftMsg) (hperm : (msg :: rest).Perm c.net)
      (hk : c.net[k]? = some msg) :
      Calls c (.deliver k) msg.receiver rest (raft_recv (c.nodes msg.receiver) msg)

/-- Every event is one call on one node. -/
theorem Cluster.step_calls (hs : c.step ev = some c') :
    ∃ i rest res, i < c.size ∧ (∀ m ∈ rest, m ∈ c.net) ∧ Calls c ev i rest res ∧
      c' = { c with net := rest }.put i res := by
  -- the calls that leave the network as it is
  have hcall : ∀ {i res}, (if i < c.size then some (c.put i res) else none) = some c' →
      Calls c ev i c.net res → ∃ i rest res, i < c.size ∧ (∀ m ∈ rest, m ∈ c.net) ∧
        Calls c ev i rest res ∧ c' = { c with net := rest }.put i res := by
    intro i res hs hcall
    obtain ⟨hi, hc'⟩ := ite_none_right_eq_some.mp hs
    exact ⟨i, _, res, hi, fun _ => id, hcall, (some.inj hc').symm⟩
  cases ev with
  | deliver k =>
    obtain ⟨msg, rest, hperm, hi, hsub, hk, hc'⟩ := Cluster.step_deliver hs
    exact ⟨_, _, _, hi, hsub, .deliver k msg rest hperm hk, hc'⟩
  | snapshot i index sm_state =>
    obtain ⟨hi, hc'⟩ := ite_none_right_eq_some.mp hs
    obtain ⟨r', hr', rfl⟩ := map_eq_some_iff.mp hc'
    exact ⟨i, _, _, hi, fun _ => id, .snapshot i index sm_state r' hr', rfl⟩
  | tick i => exact hcall hs (.tick i)
  | submit i command => exact hcall hs (.submit i command)
  | crash_restart i => exact hcall hs (.crash_restart i)
  | change_config i mask => exact hcall hs (.change_config i mask)
  | read_index i => exact hcall hs (.read_index i)

theorem Cluster.step_size (hs : c.step ev = some c') : c'.size = c.size := by
  obtain ⟨i, rest, res, -, -, -, rfl⟩ := Cluster.step_calls hs
  rfl

/-- The side conditions of an event. -/
structure Admitted (K : Scope) (c : Cluster) (ev : Event) : Prop where
  keeps_members : ev.keeps_members = true
  compacts_in : ev.compacts_in K.compacts
  covered : K.commits → covered c ev = true
  fits : K.commits → fits c ev = true

theorem ClusterRel.step (h : ClusterRel K c p) (hok : Admitted K c ev)
    (hs : c.step ev = some c') : ∃ p', ClusterRel K c' p' ∧ Extends p p' := by
  obtain ⟨hmem, hidx, hcov, hfits⟩ := hok
  obtain ⟨i, rest, res, hi, hsub, hcall, rfl⟩ := Cluster.step_calls hs
  cases hcall with
  | tick =>
    obtain ⟨p', ht⟩ := (h.party hi).raft_tick h.nodup
      (fun b hb hbi => hbi ▸ h.asked b hb) (h.ballot i hi)
    exact ⟨p', h.turn hi ht (fun _ => id) fun _ => id, ht.moves.ext⟩
  | submit _ command =>
    obtain ⟨p', hc⟩ := (h.party hi).raft_submit command
    exact ⟨p', h.call hi hc rfl⟩
  | crash_restart =>
    obtain ⟨p', hc⟩ := (h.party hi).raft_crash_restart
    exact ⟨p', h.call hi hc rfl⟩
  | snapshot _ index sm_state r' hr' =>
    exact ⟨p, h.call hi ((h.party hi).raft_snapshot hidx hr') rfl⟩
  | change_config => cases hmem
  | read_index =>
    obtain ⟨hc, hquiet⟩ := (h.party hi).raft_read_index
    exact ⟨p, h.call hi hc hquiet⟩
  | deliver k msg rest hperm hk =>
    simp only [MiniDb.covered, MiniDb.fits, hk, all_some] at hcov hfits
    obtain ⟨p', ht⟩ := h.receive hperm hi hcov hfits
    exact ⟨p', h.turn hi ht (fun b hb => (hperm.filterMap ballot_of).subset hb) hsub, ht.moves.ext⟩

/-- A run keeps the cluster connected to one growing history. -/
theorem ClusterRel.run (h : ClusterRel K c p) {evs : List Event}
    (hrun : Steps Cluster.step (Admitted K) c evs c') :
    ∃ p', ClusterRel K c' p' ∧ Extends p p' ∧ c'.size = c.size := by
  refine hrun.invariant (fun c' => ∃ p', ClusterRel K c' p' ∧ Extends p p' ∧ c'.size = c.size) ?_
    ⟨p, h, Extends.refl p, rfl⟩
  rintro c₁ ev c₂ ⟨p₁, hrel, hext, hsize⟩ hok hs
  obtain ⟨p₂, hrel₂, hext₂⟩ := hrel.step hok hs
  exact ⟨p₂, hrel₂, hext.trans hext₂, (Cluster.step_size hs).trans hsize⟩

end Run

end MiniDb
