import MiniDb.Raft.LogMatching

/-! # Reads

  A leader confirms a read when a majority has answered a heartbeat of its
  barrier.  Nobody who answers has reached a later term when the barrier is
  set up, so no later leader has been elected by then; and what earlier
  leaders have committed lies below the read gate.  The argument follows one
  commit and one barrier through a run, on top of the core of the cluster. -/

namespace MiniDb

open Framework List Function Option

/-! ### What a call does to leadership and reads -/

/-- What a call that neither starts nor confirms a read may do. -/
structure Effect (r r' : Raft) : Prop where
  epoch : r'.read_epoch = r.read_epoch
  /-- A leader goes on, or it is new and has no barrier. -/
  leads : r'.role = .RAFT_LEADER →
    (r.role = .RAFT_LEADER ∧ r'.current_term = r.current_term ∧
      r'.read_gate_index = r.read_gate_index ∧ r.commit_index ≤ r'.commit_index) ∨
    (r'.read_barrier_index = none ∧ r'.read_gate_index = raft_last_log_index r' ∧
      (r.role = .RAFT_CANDIDATE ∧ r'.current_term = r.current_term ∨
        r.current_term < r'.current_term))
  commits : r'.role = .RAFT_LEADER → r.commit_index < r'.commit_index →
    Committable r' r'.commit_index
  barrier : r'.read_barrier_index = none ∨
    r'.read_barrier_index = r.read_barrier_index ∧ r'.read_ack_mask = r.read_ack_mask
  confirmed : r'.read_confirmed_index = none ∨ r'.read_confirmed_index = r.read_confirmed_index

section Effect

variable {r r' : Raft}

/-- Role, term, commits and reads stay. -/
theorem Effect.of_same (hrole : r'.role = r.role) (hterm : r'.current_term = r.current_term)
    (hcommit : r'.commit_index = r.commit_index) (hgate : r'.read_gate_index = r.read_gate_index)
    (hepoch : r'.read_epoch = r.read_epoch)
    (hbarrier : r'.read_barrier_index = r.read_barrier_index)
    (hmask : r'.read_ack_mask = r.read_ack_mask)
    (hconf : r'.read_confirmed_index = r.read_confirmed_index) : Effect r r' where
  epoch := hepoch
  leads := fun hl => .inl ⟨hrole ▸ hl, hterm, hgate, le_of_eq hcommit.symm⟩
  commits := fun _ hlt => absurd hlt (by omega)
  barrier := .inr ⟨hbarrier, hmask⟩
  confirmed := .inr hconf

theorem Effect.refl (r : Raft) : Effect r r := .of_same rfl rfl rfl rfl rfl rfl rfl rfl

/-- A node that does not lead afterwards. -/
theorem Effect.of_not_leader (hrole : r'.role ≠ .RAFT_LEADER)
    (hepoch : r'.read_epoch = r.read_epoch) (hbarrier : r'.read_barrier_index = none ∨
      r'.read_barrier_index = r.read_barrier_index ∧ r'.read_ack_mask = r.read_ack_mask)
    (hconf : r'.read_confirmed_index = none ∨ r'.read_confirmed_index = r.read_confirmed_index) :
    Effect r r' :=
  ⟨hepoch, fun hl => absurd hl hrole, fun hl => absurd hl hrole, hbarrier, hconf⟩

theorem Effect.become_follower (r : Raft) (u : Nat) : Effect r (become_follower r u) :=
  .of_not_leader nofun rfl (.inl rfl) (.inl rfl)

theorem Effect.step_down (r : Raft) (u : Nat) : Effect r (step_down_if_higher r u) := by
  unfold step_down_if_higher
  split
  · exact .become_follower r u
  · exact .refl r

/-- The reads of a node that follows. -/
theorem following_reads (r : Raft) (u : Nat) :
    (following r u).read_epoch = r.read_epoch ∧
      ((following r u).read_barrier_index = none ∨
        (following r u).read_barrier_index = r.read_barrier_index ∧
          (following r u).read_ack_mask = r.read_ack_mask) ∧
      ((following r u).read_confirmed_index = none ∨
        (following r u).read_confirmed_index = r.read_confirmed_index) := by
  unfold following step_down_if_higher
  split
  · exact ⟨rfl, .inl rfl, .inl rfl⟩
  · exact ⟨rfl, .inr ⟨rfl, rfl⟩, .inr rfl⟩

/-- A node that follows, whatever it does to its log and commit index. -/
theorem Effect.of_following {u : Nat} (hrole : r'.role = .RAFT_FOLLOWER)
    (hepoch : r'.read_epoch = (following r u).read_epoch)
    (hbarrier : r'.read_barrier_index = (following r u).read_barrier_index)
    (hmask : r'.read_ack_mask = (following r u).read_ack_mask)
    (hconf : r'.read_confirmed_index = (following r u).read_confirmed_index) : Effect r r' := by
  obtain ⟨hepoch', hbarrier', hconf'⟩ := following_reads r u
  refine .of_not_leader (by rw [hrole]; nofun) (hepoch.trans hepoch') ?_ ?_
  · rw [hbarrier, hmask]
    exact hbarrier'
  · rw [hconf]
    exact hconf'

/-- A leader commits after a change that keeps its commit index. -/
theorem Effect.advance {x : Raft} (h : Effect r x) (hself : raft_is_member x x.id = true)
    (hcommit : x.commit_index = r.commit_index) : Effect r (leader_advance_commit x) := by
  rcases leader_advance_commit_cases x with heq | ⟨k, hk, hc, heq⟩
  · rw [heq]
    exact h
  · obtain ⟨pending, applied, ctx, hto⟩ := commit_to_eq hself k
    rw [heq, hto]
    refine ⟨h.epoch, fun hl => ?_, fun _ _ => ⟨hc.last, hc.own, hc.acked⟩, h.barrier, h.confirmed⟩
    rcases h.leads hl with ⟨hrole, hterm, hgate, -⟩ | hnew
    · exact .inl ⟨hrole, hterm, hgate, by show r.commit_index ≤ k; omega⟩
    · exact .inr hnew

theorem Effect.become_leader {x : Raft} (hself : raft_is_member x x.id = true)
    (hcommit : x.commit_index = r.commit_index) (hepoch : x.read_epoch = r.read_epoch)
    (hterm : r.role = .RAFT_CANDIDATE ∧ x.current_term = r.current_term ∨
      r.current_term < x.current_term) : Effect r (become_leader x []).1 := by
  have hspec := take_office_spec x
  have hoffice : Effect r (take_office x) := by
    refine ⟨hspec.epoch.trans hepoch, fun _ => .inr ⟨hspec.barrier, hspec.gate, ?_⟩, fun _ hlt => ?_,
      .inl hspec.barrier, .inl hspec.confirmed⟩
    · rw [hspec.term]
      exact hterm
    have := hspec.commit
    omega
  have hadv := hoffice.advance (by
    rw [raft_is_member, hspec.id, hspec.mask]
    exact hself) (hspec.commit.trans hcommit)
  exact ⟨hadv.epoch, hadv.leads, fun hl hlt =>
    ⟨(hadv.commits hl hlt).last, (hadv.commits hl hlt).own, (hadv.commits hl hlt).acked⟩,
    hadv.barrier, hadv.confirmed⟩

end Effect

/-! ### What a call sends -/

/-- A message that node `r'` sends on its own account. -/
def SendsOwn (r' : Raft) (m : RaftMsg) : Prop :=
  match m.body with
  | .append_entries _ _ _ _ read_epoch => m.sender = r'.id ∧ read_epoch = r'.read_epoch
  | .append_entries_reply _ _ _ => False
  | _ => True

theorem sends_own_heartbeat (r : Raft) : ∀ m ∈ for_peers r (send_append_entries r) [], SendsOwn r m := by
  refine for_peers_all ?_ (by simp)
  intro i out _ _ hout m hm
  unfold send_append_entries send_install_snapshot at hm
  split at hm
  · rcases mem_push_msg hm with hm | rfl
    · exact hout m hm
    · exact trivial
  · rcases mem_push_msg hm with hm | rfl
    · exact hout m hm
    · exact ⟨rfl, rfl⟩

theorem sends_own_request_vote (r r' : Raft) :
    ∀ m ∈ for_peers r (send_request_vote r) [], SendsOwn r' m := by
  refine for_peers_all ?_ (by simp)
  intro i out _ _ hout m hm
  rcases mem_push_msg hm with hm | rfl
  · exact hout m hm
  · exact trivial

/-! ### What an event does -/

/-- What the step of a node in state `r` may do: its own work, the count of an
    answer to a barrier, or a new barrier. -/
inductive NodeStep (net : List RaftMsg) (ev : Event) (i : Nat) (r r' : Raft) : Prop where
  | own (h : Effect r r')
  | answered (x : Raft) (msg : RaftMsg) (m epoch : Nat) (hmem : msg ∈ net) (hto : msg.receiver = i)
      (hbody : msg.body = .append_entries_reply true m epoch) (hl : x.role = .RAFT_LEADER)
      (hterm : msg.term = x.current_term) (h : Effect r x)
      (hr' : r' = note_read_ack x msg.sender epoch)
  | asked (hev : ev = .read_index i) (hr' : r' = (raft_read_index r).1)

/-- The messages of a step: its own, or the answer to a leader. -/
def SendsAnswer (net : List RaftMsg) (r' : Raft) (m : RaftMsg) : Prop :=
  SendsOwn r' m ∨ m.sender = r'.id ∧ m.term = r'.current_term ∧
    ∃ success k epoch, m.body = .append_entries_reply success k epoch ∧
      ∃ msg ∈ net, msg.sender = m.receiver ∧
        ∃ prev prev_term commit es, msg.body = .append_entries prev prev_term commit es epoch

section Receive

variable {net : List RaftMsg} {r : Raft} {msg : RaftMsg}

theorem raft_tick_effect (r : Raft) :
    Effect r (raft_tick r).1 ∧ ∀ m ∈ (raft_tick r).2, SendsOwn (raft_tick r).1 m := by
  unfold raft_tick
  split
  · dsimp only
    split
    · exact ⟨.of_same rfl rfl rfl rfl rfl rfl rfl rfl, sends_own_heartbeat _⟩
    · exact ⟨.of_same rfl rfl rfl rfl rfl rfl rfl rfl, by simp⟩
  split
  swap
  · exact ⟨.refl r, by simp⟩
  next hself =>
  dsimp only
  split
  swap
  · exact ⟨.of_same rfl rfl rfl rfl rfl rfl rfl rfl, by simp⟩
  rw [become_candidate_eq]
  split
  · exact ⟨.become_leader hself rfl rfl (.inr (Nat.lt_succ_self _)), sends_own_heartbeat _⟩
  · exact ⟨.of_not_leader nofun rfl (.inr ⟨rfl, rfl⟩) (.inr rfl), sends_own_request_vote _ _⟩

theorem raft_submit_effect (r : Raft) (command : Int) : Effect r (raft_submit r command).1 := by
  unfold raft_submit
  split
  · exact .refl r
  · exact .of_same rfl rfl rfl rfl rfl rfl rfl rfl

theorem raft_crash_restart_effect (r : Raft) : Effect r (raft_crash_restart r) :=
  .of_not_leader nofun rfl (.inl rfl) (.inl rfl)

variable (hself : raft_is_member r r.id = true)

include hself

/-- A leader notes how far a follower has come, and may commit. -/
theorem note_match_effect (peer m : Nat) : Effect r (leader_advance_commit (note_match r peer m)) :=
  Effect.advance (x := note_match r peer m) (.of_same rfl rfl rfl rfl rfl rfl rfl rfl) hself rfl

omit hself in
theorem leader_advance_commit_frame {x : Raft} (hself : raft_is_member x x.id = true) :
    (leader_advance_commit x).role = x.role ∧
      (leader_advance_commit x).current_term = x.current_term := by
  rcases leader_advance_commit_cases x with heq | ⟨k, -, -, heq⟩
  · rw [heq]
    exact ⟨rfl, rfl⟩
  · obtain ⟨pending, applied, ctx, hto⟩ := commit_to_eq hself k
    rw [heq, hto]
    exact ⟨rfl, rfl⟩

theorem raft_recv_effect (hmem : msg ∈ net) {ev : Event} :
    NodeStep net ev msg.receiver r (raft_recv r msg).1 ∧
      ∀ m ∈ (raft_recv r msg).2, SendsAnswer net (raft_recv r msg).1 m := by
  have hdown := Effect.step_down r msg.term
  -- the answer to entries carries their epoch
  have hanswer {x : Raft} {success : Bool} {k prev prev_term commit epoch : Nat} {es : List RaftEntry}
      (hbody : msg.body = .append_entries prev prev_term commit es epoch) :
      ∀ m ∈ [answer x msg (.append_entries_reply success k epoch)], SendsAnswer net x m :=
    forall_mem_singleton.mpr (.inr ⟨rfl, rfl, success, k, epoch, rfl, msg, hmem, rfl, _, _, _, _, hbody⟩)
  have hrecv := raft_recv_received r msg
  generalize raft_recv r msg = res at hrecv ⊢
  cases hrecv with
  | ignored => exact ⟨.own (.refl r), nofun⟩
  | overtaken => exact ⟨.own (.become_follower r _), nofun⟩
  | vote_refused | snapshot_old => exact ⟨.own hdown, forall_mem_singleton.mpr (.inl trivial)⟩
  | vote_granted =>
    exact ⟨.own ⟨hdown.epoch, hdown.leads, fun hl hlt =>
      ⟨(hdown.commits hl hlt).last, (hdown.commits hl hlt).own, (hdown.commits hl hlt).acked⟩,
      hdown.barrier, hdown.confirmed⟩, forall_mem_singleton.mpr (.inl trivial)⟩
  | counted | backed => exact ⟨.own (.of_same rfl rfl rfl rfl rfl rfl rfl rfl), nofun⟩
  | elected _ hrole =>
    exact ⟨.own (.become_leader hself rfl rfl (.inl ⟨hrole, rfl⟩)), fun m hm =>
      .inl (sends_own_heartbeat _ m hm)⟩
  | entries_old hbody => exact ⟨.own hdown, hanswer hbody⟩
  | entries_refused hbody => exact ⟨.own (.of_following rfl rfl rfl rfl rfl), hanswer hbody⟩
  | @entries_taken prev _ commit _ es hbody =>
    obtain ⟨ents, mask, happ, -⟩ := append_all_eq (following r msg.term) prev es
    obtain ⟨k, applied, ctx, hcommit⟩ :=
      follow_commit_eq (append_all (following r msg.term) prev es) commit
    rw [hcommit, happ]
    exact ⟨.own (.of_following rfl rfl rfl rfl rfl), hanswer hbody⟩
  | @entries_acked k epoch hbody hrole hterm =>
    obtain ⟨hrole', hterm'⟩ := leader_advance_commit_frame (x := note_match r msg.sender k) hself
    exact ⟨.answered _ msg k epoch hmem rfl hbody (hrole'.trans hrole) (hterm.trans hterm'.symm)
      (note_match_effect hself msg.sender k) rfl, nofun⟩
  | snapshot_known | installed =>
    exact ⟨.own (.of_following rfl rfl rfl rfl rfl), forall_mem_singleton.mpr (.inl trivial)⟩
  | @snapshot_acked k => exact ⟨.own (note_match_effect hself msg.sender k), nofun⟩

omit hself in
theorem raft_read_index_sends (r : Raft) :
    ∀ m ∈ (raft_read_index r).2.1, SendsOwn (raft_read_index r).1 m := by
  unfold raft_read_index
  split
  · simp
  split
  · simp
  · exact sends_own_heartbeat _

end Receive

section Step

variable {c c' : Cluster} {p : Proto Nat RaftEntry}

/-- One event: one node moves, and what is new in the network comes from it. -/
structure Moved (c c' : Cluster) (ev : Event) (i : Nat) : Prop where
  size : c'.size = c.size
  lt : i < c.size
  other : ∀ j ≠ i, c'.nodes j = c.nodes j
  node : NodeStep c.net ev i (c.nodes i) (c'.nodes i)
  net : ∀ m ∈ c'.net, m ∈ c.net ∨ SendsAnswer c.net (c'.nodes i) m

theorem step_moved (h : CoreRel c p) {ev : Event} (hlogs : ev.keeps_logs = true)
    (hs : c.step ev = some c') : ∃ i, Moved c c' ev i := by
  obtain ⟨i, rest, res, hi, hsub, hcall, rfl⟩ := Cluster.step_calls hs
  have hself : ({ c with net := rest }.put i res).nodes i = res.1 := update_self _ _ _
  have hmember : raft_is_member (c.nodes i) (c.nodes i).id = true := by
    rw [raft_is_member_iff (h.node i hi).member, (h.node i hi).id]
    exact hi
  have hput : NodeStep c.net ev i (c.nodes i) res.1 → (∀ m ∈ res.2, SendsAnswer c.net res.1 m) →
      ∃ i', Moved c ({ c with net := rest }.put i res) ev i' := by
    intro hnode hsend
    refine ⟨i, rfl, hi, fun j hj => update_of_ne hj _ _, hself ▸ hnode, fun m hm => ?_⟩
    rcases mem_append.mp hm with hm | hm
    · exact .inl (hsub m hm)
    · exact .inr (hself ▸ hsend m hm)
  cases hcall with
  | tick =>
    obtain ⟨he, hsend⟩ := raft_tick_effect (c.nodes i)
    exact hput (.own he) fun m hm => .inl (hsend m hm)
  | submit _ command => exact hput (.own (raft_submit_effect _ command)) (by simp)
  | crash_restart => exact hput (.own (raft_crash_restart_effect _)) (by simp)
  | snapshot => cases hlogs
  | change_config => cases hlogs
  | read_index => exact hput (.asked rfl rfl) fun m hm => .inl (raft_read_index_sends _ m hm)
  | deliver k msg rest hperm =>
    obtain ⟨hnode, hsend⟩ := raft_recv_effect hmember (hperm.subset mem_cons_self)
    exact hput hnode hsend

theorem note_read_ack_eq (r : Raft) (peer epoch : Nat) :
    ∃ barrier conf mask, note_read_ack r peer epoch = { r with
      read_barrier_index := barrier, read_confirmed_index := conf, read_ack_mask := mask } := by
  unfold note_read_ack
  dsimp only
  repeat' split
  all_goals exact ⟨_, _, _, rfl⟩

theorem raft_read_index_eq (r : Raft) :
    ∃ barrier conf mask epoch, r.read_epoch ≤ epoch ∧ (raft_read_index r).1 = { r with
      read_barrier_index := barrier, read_confirmed_index := conf, read_ack_mask := mask
      read_epoch := epoch } := by
  unfold raft_read_index
  dsimp only
  repeat' split
  · exact ⟨_, _, _, _, le_rfl, rfl⟩
  · exact ⟨_, _, _, _, le_rfl, rfl⟩
  · exact ⟨_, _, _, _, Nat.le_succ _, rfl⟩
  · exact ⟨_, _, _, _, Nat.le_succ _, rfl⟩

section NodeStep

variable {net : List RaftMsg} {ev : Event} {i : Nat} {r r' : Raft}

variable (h : NodeStep net ev i r r')

include h

theorem NodeStep.epoch_le : r.read_epoch ≤ r'.read_epoch := by
  cases h with
  | own h => exact le_of_eq h.epoch.symm
  | answered x msg m epoch _ _ _ _ _ h hr' =>
    obtain ⟨barrier, conf, mask, heq⟩ := note_read_ack_eq x msg.sender epoch
    rw [hr', heq]
    exact le_of_eq h.epoch.symm
  | asked _ hr' =>
    obtain ⟨barrier, conf, mask, epoch, hle, heq⟩ := raft_read_index_eq r
    rw [hr', heq]
    exact hle

/-- A leader goes on, or it is new. -/
theorem NodeStep.leads (hl : r'.role = .RAFT_LEADER) :
    (r.role = .RAFT_LEADER ∧ r'.current_term = r.current_term ∧
      r'.read_gate_index = r.read_gate_index ∧ r.commit_index ≤ r'.commit_index) ∨
    (r'.read_gate_index = raft_last_log_index r' ∧
      (r.role = .RAFT_CANDIDATE ∧ r'.current_term = r.current_term ∨
        r.current_term < r'.current_term)) := by
  cases h with
  | own h => exact (h.leads hl).imp_right fun hnew => hnew.2
  | answered x msg m epoch _ _ _ hlx _ h hr' =>
    obtain ⟨barrier, conf, mask, heq⟩ := note_read_ack_eq x msg.sender epoch
    rw [hr', heq]
    exact (h.leads hlx).imp_right fun hnew => hnew.2
  | asked _ hr' =>
    obtain ⟨barrier, conf, mask, epoch, -, heq⟩ := raft_read_index_eq r
    rw [hr', heq] at hl ⊢
    exact .inl ⟨hl, rfl, rfl, le_rfl⟩

theorem NodeStep.commits (hl : r'.role = .RAFT_LEADER)
    (hlt : r.commit_index < r'.commit_index) : Committable r' r'.commit_index := by
  cases h with
  | own h => exact h.commits hl hlt
  | answered x msg m epoch _ _ _ hlx _ h hr' =>
    obtain ⟨barrier, conf, mask, heq⟩ := note_read_ack_eq x msg.sender epoch
    rw [hr', heq] at hlt ⊢
    have hc := h.commits hlx hlt
    exact ⟨hc.last, hc.own, hc.acked⟩
  | asked _ hr' =>
    obtain ⟨barrier, conf, mask, epoch, -, heq⟩ := raft_read_index_eq r
    rw [hr', heq] at hlt
    exact absurd hlt (lt_irrefl _)

end NodeStep

end Step

/-! ### Gates and epochs -/

/-- No message runs ahead of the epoch of the leader it belongs to. -/
def EpochOk (c : Cluster) (m : RaftMsg) : Prop :=
  match m.body with
  | .append_entries _ _ _ _ read_epoch => read_epoch ≤ (c.nodes m.sender).read_epoch
  | .append_entries_reply _ _ read_epoch => read_epoch ≤ (c.nodes m.receiver).read_epoch
  | _ => True

structure ReadRel (c : Cluster) (p : Proto Nat RaftEntry) : Prop where
  rel : CoreRel c p
  /-- The gate of a leader covers the log it was elected with. -/
  gate : ∀ a < c.size, (c.nodes a).role = .RAFT_LEADER →
    (p.elog (c.nodes a).current_term).length ≤ (c.nodes a).read_gate_index
  epochs : ∀ m ∈ c.net, EpochOk c m

section Runs

variable {c c' : Cluster} {p p' : Proto Nat RaftEntry} {ev : Event} {i : Nat} {m : RaftMsg}

/-- A leader of the cluster leads its term in the protocol, with its log. -/
theorem core_leads (h : CoreRel c p) {a : Nat} (ha : a < c.size)
    (hl : (c.nodes a).role = .RAFT_LEADER) :
    p.leader (c.nodes a).current_term = some a ∧
      (p.llog (c.nodes a).current_term).length = raft_last_log_index (c.nodes a) := by
  have hparty := h.party ha
  obtain ⟨hlead, hllog⟩ := hparty.leads hl
  have hterm : (c.nodes a).current_term = p.term a := hparty.term
  rw [hterm]
  refine ⟨hlead, ?_⟩
  rw [hllog]
  exact (hparty.log trivial).last_index.symm

theorem EpochOk.mono (h : EpochOk c m)
    (hle : ∀ j, (c.nodes j).read_epoch ≤ (c'.nodes j).read_epoch) : EpochOk c' m := by
  unfold EpochOk at h ⊢
  cases hbody : m.body with
  | append_entries =>
    rw [hbody] at h
    exact le_trans h (hle _)
  | append_entries_reply =>
    rw [hbody] at h
    exact le_trans h (hle _)
  | _ => trivial

theorem SendsOwn.epoch_ok (h : SendsOwn (c.nodes i) m)
    (hid : (c.nodes i).id = i) : EpochOk c m := by
  unfold SendsOwn at h
  unfold EpochOk
  cases hbody : m.body with
  | append_entries =>
    rw [hbody] at h
    obtain ⟨hsender, hepoch⟩ := h
    rw [hid] at hsender
    show _ ≤ (c.nodes m.sender).read_epoch
    rw [hsender, hepoch]
  | append_entries_reply =>
    rw [hbody] at h
    exact h.elim
  | _ => trivial

theorem Moved.epoch_le (hm : Moved c c' ev i) (j : Nat) :
    (c.nodes j).read_epoch ≤ (c'.nodes j).read_epoch := by
  by_cases hj : j = i
  · rw [hj]
    exact hm.node.epoch_le
  · rw [hm.other j hj]

theorem ReadRel.step (h : ReadRel c p) (hrel' : CoreRel c' p') (hext : Extends p p')
    (hm : Moved c c' ev i) : ReadRel c' p' := by
  refine ⟨hrel', ?_, ?_⟩
  · intro a ha hl
    have ha' : a < c.size := hm.size ▸ ha
    -- a leader that goes on keeps its gate, and the log it was elected with is history
    have hstay : (c.nodes a).role = .RAFT_LEADER →
        (c'.nodes a).current_term = (c.nodes a).current_term →
        (c'.nodes a).read_gate_index = (c.nodes a).read_gate_index →
        (p'.elog (c'.nodes a).current_term).length ≤ (c'.nodes a).read_gate_index := by
      intro hl₀ hterm hgate
      rw [hterm, hgate, hext.elog (by rw [(core_leads h.rel ha' hl₀).1]; simp)]
      exact h.gate a ha' hl₀
    by_cases hai : a = i
    · subst hai
      rcases hm.node.leads hl with ⟨hl₀, hterm, hgate, -⟩ | ⟨hgate, -⟩
      · exact hstay hl₀ hterm hgate
      · obtain ⟨hlead, hlen⟩ := core_leads hrel' ha hl
        rw [hgate, ← hlen]
        exact (hrel'.inv.elog_llog (by rw [hlead]; simp)).length_le
    · have hsame := hm.other a hai
      exact hstay (hsame ▸ hl) (by rw [hsame]) (by rw [hsame])
  · intro m hmem
    have hi' : i < c'.size := hm.size ▸ hm.lt
    have hid : (c'.nodes i).id = i := (hrel'.node i hi').id
    rcases hm.net m hmem with hold | hown | ⟨-, -, success, k, epoch, hbody, msg, hmsg, hto, prev,
      prev_term, commit, es, hmb⟩
    · exact (h.epochs m hold).mono hm.epoch_le
    · exact hown.epoch_ok hid
    · have hok := h.epochs msg hmsg
      unfold EpochOk at hok ⊢
      rw [hmb] at hok
      rw [hbody]
      show epoch ≤ (c'.nodes m.receiver).read_epoch
      rw [← hto]
      exact le_trans hok (hm.epoch_le _)

/-! ### A commit on its way -/

/-- The leader of term `t` has committed up to `k`. -/
structure Recorded (t k : Nat) (c : Cluster) (p : Proto Nat RaftEntry) : Prop where
  chosen : Chosen (majorities c.size) p t k
  /-- The leader of that term does not forget it. -/
  own : ∀ a < c.size, (c.nodes a).role = .RAFT_LEADER → (c.nodes a).current_term = t →
    k ≤ (c.nodes a).commit_index

variable {k t : Nat} {evs : List Event}

theorem Recorded.step (h : Recorded t k c p) (hrel : CoreRel c p) (hrel' : CoreRel c' p')
    (hext : Extends p p') (hm : Moved c c' ev i) : Recorded t k c' p' := by
  have hne := h.chosen.elected hrel.inv
  refine ⟨hm.size ▸ h.chosen.extends hext hne, ?_⟩
  intro a ha hl hterm
  have ha' : a < c.size := hm.size ▸ ha
  by_cases hai : a = i
  swap
  · have hsame := hm.other a hai
    rw [hsame] at hl hterm ⊢
    exact h.own a ha' hl hterm
  subst hai
  rcases hm.node.leads hl with ⟨hl₀, hterm₀, -, hle⟩ | ⟨-, hnew⟩
  · exact le_trans (h.own a ha' hl₀ (hterm₀.symm.trans hterm)) hle
  · -- nobody is elected in a term that has a leader
    exfalso
    obtain ⟨b, hb⟩ := ne_none_iff_exists'.mp hne
    have hlead := (core_leads hrel' ha hl).1
    rw [hterm, hext.leader hb] at hlead
    cases hlead
    have hnode := hrel.node a ha'
    have hterm₁ : (c.nodes a).current_term = p.term a := hnode.term
    rcases hnew with ⟨hcand, hsame⟩ | hlt
    · have hrole : p.role a = .candidate := by
        rw [← hnode.role]
        show role_of (c.nodes a).role = _
        rw [hcand]
        rfl
      refine (hrel.inv.role_cand hrole).2 ?_
      rw [← hterm₁, ← hsame, hterm]
      exact hb
    · have := hrel.inv.leader_le hb
      omega

/-- A leader that moves its commit index records a commit. -/
theorem recorded_of_commit (hrel' : CoreRel c' p') {i b : Nat} (hm : Moved c c' ev i)
    (hb : b < c.size) (hl : (c'.nodes b).role = .RAFT_LEADER)
    (hlt : (c.nodes b).commit_index < (c'.nodes b).commit_index) :
    Recorded (c'.nodes b).current_term (c'.nodes b).commit_index c' p' := by
  have hbi : b = i := by
    by_contra hne
    rw [hm.other b hne] at hlt
    exact lt_irrefl _ hlt
  subst hbi
  have hb' : b < c'.size := hm.size ▸ hb
  have hparty := hrel'.party (i := b) hb'
  have hc := hm.node.commits hl hlt
  have hbase : (c'.nodes b).log_base = 0 := hparty.base trivial
  obtain ⟨k, hk⟩ : ∃ k, (c'.nodes b).commit_index = k + 1 :=
    ⟨(c'.nodes b).commit_index - 1, by omega⟩
  rw [hk] at hc ⊢
  refine ⟨?_, ?_⟩
  · have hterm : (c'.nodes b).current_term = p'.term b := hparty.term
    rw [hterm]
    refine hparty.chosen trivial hl ?_ hc.last hc.own hc.acked
    show (c'.nodes b).log_base ≤ k
    omega
  · intro a ha hla hterm
    have hleada := (core_leads hrel' ha hla).1
    rw [hterm, (core_leads hrel' hb' hl).1] at hleada
    cases hleada
    exact le_of_eq hk.symm

/-! ### A barrier on its way -/

/-- Most nodes had not passed term `u` when the terms were `T`. -/
def BehindQuorum (n : Nat) (T : Nat → Nat) (u : Nat) : Prop :=
  ∃ S, (majorities n).is_quorum S ∧ ∀ f ∈ S, T f ≤ u

/-- Node `a`, leader of term `u`, has set up the barrier of epoch `e` when the
    terms were `T`. -/
structure Waiting (a u e : Nat) (T : Nat → Nat) (c : Cluster) (p : Proto Nat RaftEntry) : Prop where
  lt : a < c.size
  terms : ∀ f, T f ≤ p.term f
  epoch : (c.nodes a).read_epoch = e
  /-- The nodes that are counted had not passed the term. -/
  barrier : (c.nodes a).role = .RAFT_LEADER → (c.nodes a).read_barrier_index ≠ none →
    (c.nodes a).current_term = u ∧ ∀ f, (c.nodes a).read_ack_mask.testBit f = true → T f ≤ u
  confirmed : (c.nodes a).read_confirmed_index ≠ none → BehindQuorum c.size T u
  answers : ∀ m ∈ c.net, ∀ success k, m.receiver = a → m.body = .append_entries_reply success k e →
    T m.sender ≤ m.term

section Waiting

variable {a u e : Nat} {T : Nat → Nat}

/-- The work of node `a` itself. -/
theorem Waiting.own (h : Waiting a u e T c p) {r' : Raft} (he : Effect (c.nodes a) r') :
    r'.read_epoch = e ∧
      (r'.role = .RAFT_LEADER → r'.read_barrier_index ≠ none →
        r'.current_term = u ∧ ∀ f, r'.read_ack_mask.testBit f = true → T f ≤ u) ∧
      (r'.read_confirmed_index ≠ none → BehindQuorum c.size T u) := by
  refine ⟨he.epoch.trans h.epoch, ?_, ?_⟩
  · intro hl hb
    rcases he.barrier with hnone | ⟨hsame, hmask⟩
    · exact absurd hnone hb
    rcases he.leads hl with ⟨hl₀, hterm, -, -⟩ | ⟨hnone, -⟩
    · rw [hterm, hmask]
      exact h.barrier hl₀ (hsame ▸ hb)
    · exact absurd hnone hb
  · intro hc
    rcases he.confirmed with hnone | hsame
    · exact absurd hnone hc
    · exact h.confirmed (hsame ▸ hc)

/-- An answer of the barrier's epoch is counted. -/
theorem Waiting.answered (h : Waiting a u e T c p) {x : Raft} {msg : RaftMsg} {m epoch : Nat}
    (he : Effect (c.nodes a) x) (hl : x.role = .RAFT_LEADER) (hmem : msg ∈ c.net)
    (hto : msg.receiver = a) (hbody : msg.body = .append_entries_reply true m epoch)
    (hterm : msg.term = x.current_term) (hsmall : c.size ≤ RAFT_MAX_NODES)
    (hfull : x.member_mask = full_mask c.size) :
    (note_read_ack x msg.sender epoch).read_epoch = e ∧
      ((note_read_ack x msg.sender epoch).role = .RAFT_LEADER →
        (note_read_ack x msg.sender epoch).read_barrier_index ≠ none →
        (note_read_ack x msg.sender epoch).current_term = u ∧
          ∀ f, (note_read_ack x msg.sender epoch).read_ack_mask.testBit f = true → T f ≤ u) ∧
      ((note_read_ack x msg.sender epoch).read_confirmed_index ≠ none →
        BehindQuorum c.size T u) := by
  obtain ⟨hepoch, hbarrier, hconf⟩ := h.own he
  unfold note_read_ack
  by_cases hcount : x.read_barrier_index ≠ none ∧ epoch = x.read_epoch
  swap
  · rw [if_neg hcount]
    exact ⟨hepoch, hbarrier, hconf⟩
  rw [if_pos hcount]
  obtain ⟨hb, hep⟩ := hcount
  obtain ⟨hu, hmask⟩ := hbarrier hl hb
  have hsender : T msg.sender ≤ u := by
    rw [← hu, ← hterm]
    refine h.answers msg hmem true m hto ?_
    rw [hbody, hep, hepoch]
  have hmask' : ∀ f, (x.read_ack_mask ||| 2 ^ msg.sender).testBit f = true → T f ≤ u := by
    intro f hf
    rw [Nat.testBit_or, Bool.or_eq_true, Nat.testBit_two_pow, decide_eq_true_iff] at hf
    rcases hf with hf | rfl
    · exact hmask f hf
    · exact hsender
  have hfull' : ({ x with read_ack_mask := x.read_ack_mask ||| 2 ^ msg.sender } : Raft).member_mask =
      full_mask c.size := hfull
  dsimp only
  split
  · next hmaj =>
    refine ⟨hepoch, fun _ hnone => absurd rfl hnone, fun _ => ?_⟩
    -- the members counted are a majority
    rw [majority_full_mask hsmall hfull', members_card hsmall hfull'] at hmaj
    refine ⟨(Finset.range c.size).filter fun i =>
      (x.read_ack_mask ||| 2 ^ msg.sender).testBit i = true,
      ⟨Finset.filter_subset _ _, by omega⟩, fun f hf => ?_⟩
    exact hmask' f (Finset.mem_filter.mp hf).2
  · exact ⟨hepoch, fun _ _ => ⟨hu, hmask'⟩, hconf⟩

theorem Waiting.step (h : Waiting a u e T c p) (hrel' : CoreRel c' p')
    (hext : Extends p p') (hev : ev ≠ .read_index a) {i : Nat} (hm : Moved c c' ev i) :
    Waiting a u e T c' p' := by
  have hterms : ∀ f, T f ≤ p'.term f := fun f => le_trans (h.terms f) (hext.term f)
  have ha' : a < c'.size := hm.size ▸ h.lt
  have hnode : (c'.nodes a).read_epoch = e ∧
      ((c'.nodes a).role = .RAFT_LEADER → (c'.nodes a).read_barrier_index ≠ none →
        (c'.nodes a).current_term = u ∧
          ∀ f, (c'.nodes a).read_ack_mask.testBit f = true → T f ≤ u) ∧
      ((c'.nodes a).read_confirmed_index ≠ none → BehindQuorum c.size T u) := by
    by_cases hai : a = i
    swap
    · rw [hm.other a hai]
      exact ⟨h.epoch, h.barrier, h.confirmed⟩
    subst hai
    have hfull : (c'.nodes a).member_mask = full_mask c.size := hm.size ▸ (hrel'.node a ha').member
    have hsmall : c.size ≤ RAFT_MAX_NODES := hm.size ▸ hrel'.small
    cases hm.node with
    | own he => exact h.own he
    | answered x msg m epoch hmem hto hbody hl hterm he hr' =>
      obtain ⟨barrier, conf, mask, heq⟩ := note_read_ack_eq x msg.sender epoch
      have hfullx : x.member_mask = full_mask c.size := by
        rw [← hfull, hr', heq]
      rw [hr']
      exact h.answered he hl hmem hto hbody hterm hsmall hfullx
    | asked hasked => exact absurd hasked hev
  refine ⟨ha', hterms, hnode.1, hnode.2.1, hm.size ▸ hnode.2.2, ?_⟩
  intro m hmem success k hto hbody
  rcases hm.net m hmem with hold | hown | ⟨hsender, hterm, -⟩
  · exact h.answers m hold success k hto hbody
  · unfold SendsOwn at hown
    rw [hbody] at hown
    exact hown.elim
  · -- a new answer carries the term its sender has reached
    have hi' : i < c'.size := hm.size ▸ hm.lt
    have hnodei := hrel'.node i hi'
    have hid : (c'.nodes i).id = i := hnodei.id
    have hcur : (c'.nodes i).current_term = p'.term i := hnodei.term
    rw [hsender, hterm, hid, hcur]
    exact hterms i

/-- A barrier is set up by a leader that has committed up to its gate. -/
theorem raft_read_index_some {r : Raft} {k : Nat} (h : (raft_read_index r).2.2 = some k) :
    r.role = .RAFT_LEADER ∧ k = r.commit_index ∧ r.read_gate_index ≤ k ∧
      ∃ barrier conf, (conf ≠ none → member_count r = 1) ∧ (raft_read_index r).1 = { r with
        read_barrier_index := barrier, read_confirmed_index := conf, read_ack_mask := 2 ^ r.id
        read_epoch := r.read_epoch + 1 } := by
  unfold raft_read_index at h ⊢
  by_cases hl : r.role ≠ .RAFT_LEADER
  · rw [if_pos hl] at h
    cases h
  by_cases hgate : r.commit_index < r.read_gate_index
  · rw [if_neg hl, if_pos hgate] at h
    cases h
  rw [if_neg hl, if_neg hgate] at h ⊢
  dsimp only at h ⊢
  split at h
  · next hone =>
    rw [if_pos hone]
    cases h
    exact ⟨not_not.mp hl, rfl, Nat.le_of_not_lt hgate, none, some r.commit_index, fun _ => hone, rfl⟩
  · next hmany =>
    rw [if_neg hmany]
    cases h
    exact ⟨not_not.mp hl, rfl, Nat.le_of_not_lt hgate, some r.commit_index, none,
      fun hnone => absurd rfl hnone, rfl⟩

/-- A leader that may serve reads sets up a barrier. -/
theorem waiting_of_read_index (h : ReadRel c p) (hs : c.step (.read_index a) = some c')
    (hrel' : CoreRel c' p') (hext : Extends p p') {r : Nat}
    (hread : (raft_read_index (c.nodes a)).2.2 = some r) :
    Waiting a (c.nodes a).current_term ((c.nodes a).read_epoch + 1) p.term c' p' ∧
      (c.nodes a).role = .RAFT_LEADER ∧ r = (c.nodes a).commit_index ∧
      (c.nodes a).read_gate_index ≤ r := by
  obtain ⟨ha, hc'⟩ := ite_none_right_eq_some.mp hs
  cases hc'
  have hsends := raft_read_index_sends (c.nodes a)
  have hsame : (c.put a ((raft_read_index (c.nodes a)).1, (raft_read_index (c.nodes a)).2.1)).nodes a =
      (raft_read_index (c.nodes a)).1 := update_self _ _ _
  have hnode := h.rel.node a ha
  have hcur : (c.nodes a).current_term = p.term a := hnode.term
  have hid : (c.nodes a).id = a := hnode.id
  -- nobody has answered the new epoch yet
  have hnet : ∀ m ∈ c.net, ∀ success k, m.receiver = a →
      m.body ≠ .append_entries_reply success k ((c.nodes a).read_epoch + 1) := by
    intro m hm success k hto hbody
    have hok := h.epochs m hm
    unfold EpochOk at hok
    rw [hbody] at hok
    have hle : (c.nodes a).read_epoch + 1 ≤ (c.nodes m.receiver).read_epoch := hok
    rw [hto] at hle
    omega
  have hanswers : ∀ m ∈ c.net ++ (raft_read_index (c.nodes a)).2.1, ∀ success k, m.receiver = a →
      m.body = .append_entries_reply success k ((c.nodes a).read_epoch + 1) →
      p.term m.sender ≤ m.term := by
    intro m hm success k hto hbody
    rcases mem_append.mp hm with hm | hm
    · exact absurd hbody (hnet m hm success k hto)
    · have hown := hsends m hm
      unfold SendsOwn at hown
      rw [hbody] at hown
      exact hown.elim
  have hmask : ∀ f, (2 ^ (c.nodes a).id).testBit f = true → p.term f ≤ (c.nodes a).current_term := by
    intro f hf
    rw [Nat.testBit_two_pow, decide_eq_true_iff, hid] at hf
    rw [← hf, hcur]
  obtain ⟨hl, hr, hgate, barrier, conf, hone, heq⟩ := raft_read_index_some hread
  replace hsame := hsame.trans heq
  refine ⟨⟨ha, hext.term, by rw [hsame], ?_, ?_, hanswers⟩, hl, hr, hgate⟩
  · rw [hsame]
    exact fun _ _ => ⟨rfl, hmask⟩
  · rw [hsame]
    -- a node that is alone is a majority
    intro hconf
    have hfull : (c.nodes a).member_mask = full_mask c.size := hnode.member
    have hcount := hone hconf
    rw [member_count, hfull,
      mask_count_full_mask (show c.size ≤ RAFT_MAX_NODES from h.rel.small)] at hcount
    refine ⟨{a}, ⟨Finset.singleton_subset_iff.mpr (Finset.mem_range.mpr ha), ?_⟩, fun f hf => ?_⟩
    · rw [Finset.card_singleton]
      show c.size < 2 * 1
      omega
    · rw [Finset.mem_singleton.mp hf, hcur]

end Waiting

/-! ### Linearizable reads -/

/-- One event of the cluster, for the protocol and for the reads. -/
theorem core_moved (h : CoreRel c p) (hlogs : ev.keeps_logs = true) (hs : c.step ev = some c') :
    ∃ p' i, CoreRel c' p' ∧ Extends p p' ∧ Moved c c' ev i := by
  obtain ⟨p', hrel', hext⟩ := core_step h hlogs hs
  obtain ⟨i, hm⟩ := step_moved h hlogs hs
  exact ⟨p', i, hrel', hext, hm⟩

theorem cluster_init_read {n : Nat} {et ht : Nat → Nat} (h : cluster_init n et ht = some c) :
    ReadRel c Proto.init := by
  refine ⟨cluster_init_core h, ?_, ?_⟩ <;> obtain ⟨r, hr, rfl⟩ := map_eq_some_iff.mp h
  · intro a _ hl
    cases hl
  · exact nofun

theorem ReadRel.run (h : ReadRel c p)
    (hrun : Steps Cluster.step (fun _ ev => ev.keeps_logs = true) c evs c') :
    ∃ p', ReadRel c' p' := by
  refine hrun.invariant (fun c' => ∃ p', ReadRel c' p') ?_ ⟨p, h⟩
  rintro c₁ ev c₂ ⟨p₁, hread⟩ hok hs
  obtain ⟨p₂, i, hrel₂, hext, hm⟩ := core_moved hread.rel hok hs
  exact ⟨p₂, hread.step hrel₂ hext hm⟩

theorem Recorded.run (h : Recorded t k c p) (hread : ReadRel c p)
    (hrun : Steps Cluster.step (fun _ ev => ev.keeps_logs = true) c evs c') :
    ∃ p', ReadRel c' p' ∧ Recorded t k c' p' := by
  refine hrun.invariant (fun c' => ∃ p', ReadRel c' p' ∧ Recorded t k c' p') ?_ ⟨p, hread, h⟩
  rintro c₁ ev c₂ ⟨p₁, hread, hrec⟩ hok hs
  obtain ⟨p₂, i, hrel₂, hext, hm⟩ := core_moved hread.rel hok hs
  exact ⟨p₂, hread.step hrel₂ hext hm, hrec.step hread.rel hrel₂ hext hm⟩

theorem Waiting.run {a u e : Nat} {T : Nat → Nat} (h : Waiting a u e T c p) (hrel : CoreRel c p)
    (hrun : Steps Cluster.step (fun _ ev => ev.keeps_logs = true ∧ ev ≠ .read_index a) c evs c') :
    ∃ p', Waiting a u e T c' p' ∧ c'.size = c.size := by
  have hall : ∃ p', CoreRel c' p' ∧ Waiting a u e T c' p' ∧ c'.size = c.size := by
    refine hrun.invariant (fun c' => ∃ p', CoreRel c' p' ∧ Waiting a u e T c' p' ∧ c'.size = c.size)
      ?_ ⟨p, hrel, h, rfl⟩
    rintro c₁ ev c₂ ⟨p₁, hrel, hwait, hsize⟩ hok hs
    obtain ⟨p₂, i, hrel₂, hext, hm⟩ := core_moved hrel hok.1 hs
    exact ⟨p₂, hrel₂, hwait.step hrel₂ hext hok.2 hm, hm.size.trans hsize⟩
  obtain ⟨p', -, hwait, hsize⟩ := hall
  exact ⟨p', hwait, hsize⟩

/-- A recorded commit lies below a read that most nodes confirm. -/
theorem recorded_le_read (hread : ReadRel c p) {a : Nat} (hrec : Recorded t k c p) (ha : a < c.size)
    (hl : (c.nodes a).role = .RAFT_LEADER)
    (hgate : (c.nodes a).read_gate_index ≤ (c.nodes a).commit_index)
    (hbehind : BehindQuorum c.size p.term (c.nodes a).current_term) :
    k ≤ (c.nodes a).commit_index := by
  have hinv := hread.rel.inv
  have hlead : p.leader (c.nodes a).current_term ≠ none := by
    rw [(core_leads hread.rel ha hl).1]
    simp
  rcases Nat.lt_trichotomy t (c.nodes a).current_term with hlt | heq | hgt
  · -- what an earlier leader has committed lies in the log `a` was elected with
    have hpre := hinv.leader_complete hrec.chosen _ hlt hlead
    have hlen := hpre.length_le
    rw [length_take_of_le hrec.chosen.le_length] at hlen
    exact le_trans hlen (le_trans (hread.gate a ha hl) hgate)
  · exact hrec.own a ha hl heq.symm
  · -- a later leader has been elected by nodes that have left the term of `a`
    exfalso
    obtain ⟨b, hb⟩ := ne_none_iff_exists'.mp (hrec.chosen.elected hinv)
    obtain ⟨S, hS, hvotes⟩ := hinv.leader_votes hb
    obtain ⟨S', hS', hle⟩ := hbehind
    obtain ⟨f, hf, hf'⟩ := (majorities c.size).meet S S' hS hS'
    obtain ⟨v, hv, -⟩ := hvotes f hf
    have := hinv.vote_le hv
    have := hle f hf'
    omega

/-- In the step from `c` to `c'` some leader commits index `i`. -/
def LeaderCommits (c c' : Cluster) (i : Nat) : Prop :=
  ∃ b < c.size, (c'.nodes b).role = .RAFT_LEADER ∧ (c.nodes b).commit_index < i ∧
    i ≤ (c'.nodes b).commit_index

/-- A read that `raft_read_index` starts at `r` and that is confirmed misses
    nothing that any leader has committed before. -/
theorem confirmed_read_covers_commits {n : Nat} {election_timeout heartbeat_timeout : Nat → Nat}
    {c₀ c₁ c₂ c₃ : Cluster} {evs₀ evs₁ evs₂ : List Event} {i r v a : Nat}
    (hinit : cluster_init n election_timeout heartbeat_timeout = some c₀)
    (h₀ : Steps Cluster.step (fun _ ev => ev.keeps_logs = true) c₀ evs₀ c)
    (hlogs : ev.keeps_logs = true) (hs : c.step ev = some c') (hcommit : LeaderCommits c c' i)
    (h₁ : Steps Cluster.step (fun _ ev => ev.keeps_logs = true) c' evs₁ c₁)
    (hcall : c₁.step (.read_index a) = some c₂)
    (hread : (raft_read_index (c₁.nodes a)).2.2 = some r)
    (h₂ : Steps Cluster.step (fun _ ev => ev.keeps_logs = true ∧ ev ≠ .read_index a) c₂ evs₂ c₃)
    (hconf : raft_read_confirmed (c₃.nodes a) = some v) : i ≤ r := by
  -- the commit
  obtain ⟨p, hreads⟩ := (cluster_init_read hinit).run h₀
  obtain ⟨p', j, hrel', hext, hm⟩ := core_moved hreads.rel hlogs hs
  obtain ⟨b, hb, hlb, hlo, hhi⟩ := hcommit
  have hrec := recorded_of_commit hrel' hm hb hlb (lt_of_lt_of_le hlo hhi)
  obtain ⟨p₁, hreads₁, hrec₁⟩ := hrec.run (hreads.step hrel' hext hm) h₁
  -- the barrier
  obtain ⟨p₂, hrel₂, hext₂⟩ := core_step hreads₁.rel (show (Event.read_index a).keeps_logs = true from rfl) hcall
  obtain ⟨hwait, hl, hr, hgate⟩ := waiting_of_read_index hreads₁ hcall hrel₂ hext₂ hread
  obtain ⟨p₃, hwait₃, hsize⟩ := hwait.run hrel₂ h₂
  have hbehind := hwait₃.confirmed (by
    show raft_read_confirmed (c₃.nodes a) ≠ none
    rw [hconf]
    simp)
  rw [hsize, Cluster.step_size hcall] at hbehind
  have ha : a < c₁.size := Cluster.step_size hcall ▸ hwait.lt
  rw [hr] at hgate ⊢
  exact le_trans hhi (recorded_le_read hreads₁ hrec₁ ha hl hgate hbehind)

end Runs

/-- A leader replicates one entry and is about to hear of it. -/
def submit_one : List Event := [.tick 0, .deliver 0, .deliver 1, .submit 0 7, .tick 0, .deliver 3]

/-- And then another. -/
def submit_next : List Event := [.submit 0 8, .tick 0, .deliver 4, .deliver 5]

/-- The leader commits index 1, then index 2, and confirms a read at 2. -/
theorem confirmed_read_covers_earlier :
    ∃ c₀ c c' c₁ c₂ c₃, cluster_init 3 (fun _ => 1) (fun _ => 1) = some c₀ ∧
      run Cluster.step c₀ submit_one = some c ∧ c.step (.deliver 4) = some c' ∧
      LeaderCommits c c' 1 ∧ run Cluster.step c' submit_next = some c₁ ∧
      c₁.step (.read_index 0) = some c₂ ∧ (raft_read_index (c₁.nodes 0)).2.2 = some 2 ∧
      run Cluster.step c₂ [.deliver 5, .deliver 6] = some c₃ ∧
      raft_read_confirmed (c₃.nodes 0) = some 2 ∧ 1 ≤ 2 := by
  have hfacts : (cluster_init 3 (fun _ => 1) (fun _ => 1)).any fun c₀ =>
      (run Cluster.step c₀ submit_one).any fun c => (c.step (.deliver 4)).any fun c' =>
        (run Cluster.step c' submit_next).any fun c₁ => (c₁.step (.read_index 0)).any fun c₂ =>
          (run Cluster.step c₂ [.deliver 5, .deliver 6]).any fun c₃ =>
            c.size = 3 ∧ (c'.nodes 0).role = .RAFT_LEADER ∧ (c.nodes 0).commit_index = 0 ∧
            (c'.nodes 0).commit_index = 1 ∧ (raft_read_index (c₁.nodes 0)).2.2 = some 2 ∧
            raft_read_confirmed (c₃.nodes 0) = some 2 := by
    decide +kernel
  simp only [Option.any_eq_true, decide_eq_true_eq] at hfacts
  obtain ⟨c₀, hinit, c, hrun, c', hs, c₁, hrun₁, c₂, hcall, c₃, hrun₂, hsize, hrole, hcommit, hcommit',
    hread, hconf⟩ := hfacts
  have hcommits : LeaderCommits c c' 1 := ⟨0, by omega, hrole, by omega, by omega⟩
  exact ⟨c₀, c, c', c₁, c₂, c₃, hinit, hrun, hs, hcommits, hrun₁, hcall, hread, hrun₂, hconf,
    confirmed_read_covers_commits hinit (Steps.of_run (fun _ => by decide) hrun) rfl hs hcommits
      (Steps.of_run (fun _ => by decide) hrun₁) hcall hread (Steps.of_run (fun _ => by decide) hrun₂) hconf⟩

end MiniDb
