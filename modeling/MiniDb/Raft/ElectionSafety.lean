import MiniDb.Raft.Safety

/-! # One leader per term

  Elections do not depend on what the logs hold: a log can only make a voter
  refuse.  So votes and leaders follow the protocol in every run that keeps
  the membership, whatever happens to logs, commit indexes and snapshots. -/

namespace MiniDb

open Framework

/-- Only votes and leaders are followed. -/
def Scope.votes : Scope := ⟨fun _ => True, False, False, id, False.elim⟩

theorem admitted_votes (c : Cluster) (ev : Event) (h : ev.keeps_members = true) :
    Admitted .votes c ev :=
  ⟨h, by cases ev <;> trivial, nofun, nofun⟩

section Run

variable {c : Cluster} {p : Proto Nat RaftEntry}

/-- A leader is the leader of its term in the protocol. -/
theorem ClusterRel.leads {K : Scope} (h : ClusterRel K c p) {i : Nat} (hi : i < c.size)
    (hl : (c.nodes i).role = .RAFT_LEADER) : p.leader (c.nodes i).current_term = some i := by
  have hparty := h.party hi
  have hlead := (hparty.leads hl).1
  rw [← hparty.term] at hlead
  exact hlead

/-- No node of `c` and other node of `c'` lead the same term. -/
def OneLeader (c c' : Cluster) : Prop :=
  ∀ a < c.size, ∀ b < c'.size, (c.nodes a).role = .RAFT_LEADER → (c'.nodes b).role = .RAFT_LEADER →
    (c.nodes a).current_term = (c'.nodes b).current_term → a = b

/-- No two nodes lead the same term, at the same moment or one after the
    other, in any run that keeps the membership: with crashes, snapshots, and
    messages that are late, lost or reordered. -/
theorem one_leader_per_term {n : Nat} {election_timeout heartbeat_timeout : Nat → Nat}
    {c₀ c₁ c₂ : Cluster} {evs₁ evs₂ : List Event}
    (hinit : cluster_init n election_timeout heartbeat_timeout = some c₀)
    (h₁ : Steps Cluster.step (fun _ ev => ev.keeps_members = true) c₀ evs₁ c₁)
    (h₂ : Steps Cluster.step (fun _ ev => ev.keeps_members = true) c₁ evs₂ c₂) :
    OneLeader c₁ c₁ ∧ OneLeader c₁ c₂ := by
  obtain ⟨p₁, hrel₁, -, -⟩ := (cluster_init_rel (K := .votes) trivial hinit).run (h₁.mono admitted_votes)
  obtain ⟨p₂, hrel₂, hext, -⟩ := hrel₁.run (h₂.mono admitted_votes)
  constructor
  · intro a ha b hb hla hlb hterm
    have hleada := hrel₁.leads ha hla
    rw [hterm, hrel₁.leads hb hlb] at hleada
    exact (Option.some.inj hleada).symm
  · intro a ha b hb hla hlb hterm
    have hleada := hext.leader (hrel₁.leads ha hla)
    rw [hterm, hrel₂.leads hb hlb] at hleada
    exact (Option.some.inj hleada).symm

end Run

/-- Node `0` leads term 1, then node `1` leads term 2. -/
theorem one_leader_follower_wins :
    ∃ c₀ c₁ c₂, cluster_init 3 (fun _ => 1) (fun _ => 1) = some c₀ ∧
      run Cluster.step c₀ commit_and_compact = some c₁ ∧
      run Cluster.step c₁ follower_wins = some c₂ ∧
      (c₁.nodes 0).role = .RAFT_LEADER ∧ (c₁.nodes 0).current_term = 1 ∧
      (c₂.nodes 1).role = .RAFT_LEADER ∧ (c₂.nodes 1).current_term = 2 ∧
      OneLeader c₁ c₁ ∧ OneLeader c₁ c₂ := by
  have hfacts : (cluster_init 3 (fun _ => 1) (fun _ => 1)).any fun c₀ =>
      (run Cluster.step c₀ commit_and_compact).any fun c₁ =>
        (run Cluster.step c₁ follower_wins).any fun c₂ =>
          (c₁.nodes 0).role = .RAFT_LEADER ∧ (c₁.nodes 0).current_term = 1 ∧
            (c₂.nodes 1).role = .RAFT_LEADER ∧ (c₂.nodes 1).current_term = 2 := by
    decide +kernel
  simp only [Option.any_eq_true, decide_eq_true_eq] at hfacts
  obtain ⟨c₀, hinit, c₁, hrun₁, c₂, hrun₂, hrole, hterm, hrole', hterm'⟩ := hfacts
  exact ⟨c₀, c₁, c₂, hinit, hrun₁, hrun₂, hrole, hterm, hrole', hterm',
    one_leader_per_term hinit (Steps.of_run (fun _ => by decide) hrun₁)
      (Steps.of_run (fun _ => by decide) hrun₂)⟩

end MiniDb
