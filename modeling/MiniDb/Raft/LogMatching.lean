import MiniDb.Raft.Safety

/-! # Log matching

  How logs grow does not depend on the commit indexes: what a follower takes
  over from `leader_commit` changes neither its log nor its answers.  So the
  logs follow the protocol whether or not the deliveries meet
  `commit_covered`, as long as no log is compacted. -/

namespace MiniDb

open Framework

/-- No log is compacted and the members stay as they are. -/
def Event.keeps_logs : Event → Bool
  | .snapshot _ _ _ => false
  | .change_config _ _ => false
  | _ => true

/-- Logs without snapshots are followed, whatever is committed. -/
def Scope.whole_logs : Scope := ⟨(· = 0), True, False, False.elim, fun _ => .inr fun _ => id⟩

/-- The logs of `c` follow the protocol `p`. -/
abbrev CoreRel (c : Cluster) (p : Proto Nat RaftEntry) : Prop := ClusterRel .whole_logs c p

section Run

variable {c c' : Cluster} {p p' : Proto Nat RaftEntry} {evs : List Event}

theorem admitted_whole_logs (c : Cluster) (ev : Event) (h : ev.keeps_logs = true) :
    Admitted .whole_logs c ev := by
  refine ⟨?_, ?_, nofun, nofun⟩ <;> cases ev <;> first | exact h | trivial

theorem core_step (h : CoreRel c p) {ev : Event} (hlogs : ev.keeps_logs = true)
    (hs : c.step ev = some c') : ∃ p', CoreRel c' p' ∧ Extends p p' :=
  h.step (admitted_whole_logs c ev hlogs) hs

theorem core_run (h : CoreRel c p)
    (hrun : Steps Cluster.step (fun _ ev => ev.keeps_logs = true) c evs c') :
    ∃ p', CoreRel c' p' ∧ Extends p p' ∧ c'.size = c.size :=
  h.run (hrun.mono admitted_whole_logs)

theorem cluster_init_core {n : Nat} {et ht : Nat → Nat} (h : cluster_init n et ht = some c) :
    CoreRel c Proto.init :=
  cluster_init_rel rfl h

/-! ### Matching logs -/

/-- Two nodes that hold entries of the same index and term hold the same up to
    there. -/
def LogsMatch (c : Cluster) : Prop :=
  ∀ a < c.size, ∀ b < c.size, ∀ i e e', held (c.nodes a) i = some e →
    held (c.nodes b) i = some e' → e.term = e'.term → ∀ j ≤ i, held (c.nodes a) j = held (c.nodes b) j

/-- The log of a node is its log in the protocol. -/
theorem core_held (h : CoreRel c p) {a : Nat} (ha : a < c.size) (i : Nat) :
    held (c.nodes a) (i + 1) = (p.log a)[i]? := by
  have hnode := h.node a ha
  have hbase : (c.nodes a).log_base = 0 := hnode.base trivial
  exact (hnode.log trivial).held (hbase ▸ Nat.succ_pos i)

theorem held_zero (r : Raft) : held r 0 = none := if_neg (Nat.not_lt_zero _)

theorem core_logs_match (h : CoreRel c p) : LogsMatch c := by
  intro a ha b hb i e e' he he' hterm j hj
  cases i with
  | zero =>
    rw [held_zero] at he
    cases he
  | succ i =>
    rw [core_held h ha] at he
    rw [core_held h hb] at he'
    have hlen := (List.getElem?_eq_some_iff.mp he).1
    have hlen' := (List.getElem?_eq_some_iff.mp he').1
    have htake := (h.inv.log_backed a).take_eq (h.inv.log_backed b) hlen hlen' (by
      rw [last_term_take he, last_term_take he']
      exact hterm)
    cases j with
    | zero => rw [held_zero, held_zero]
    | succ j =>
      rw [core_held h ha, core_held h hb, ← List.getElem?_take_of_lt hj,
        ← List.getElem?_take_of_lt (l := p.log b) hj, htake]

/-- In every run that keeps the members and the logs, with messages late, lost
    or reordered, the logs match. -/
theorem logs_match_in_run {n : Nat} {election_timeout heartbeat_timeout : Nat → Nat}
    {c₀ : Cluster} {evs : List Event}
    (hinit : cluster_init n election_timeout heartbeat_timeout = some c₀)
    (hrun : Steps Cluster.step (fun _ ev => ev.keeps_logs = true) c₀ evs c) : LogsMatch c := by
  obtain ⟨p, hrel, -⟩ := core_run (cluster_init_core hinit) hrun
  exact core_logs_match hrel

end Run

/-- Nodes `0` and `1` end with different entries at index `17`, and match below. -/
theorem logs_match_stale_tail :
    ∃ c₀ c, cluster_init 3 (fun _ => 1) (fun _ => 1) = some c₀ ∧
      run Cluster.step c₀ stale_tail = some c ∧
      held (c.nodes 0) 17 = some ⟨1, 100, false, false⟩ ∧
      held (c.nodes 1) 17 = some ⟨2, 200, false, false⟩ ∧
      held (c.nodes 0) 16 = some ⟨1, 16, false, false⟩ ∧
      held (c.nodes 1) 16 = some ⟨1, 16, false, false⟩ ∧ LogsMatch c := by
  have hfacts : (cluster_init 3 (fun _ => 1) (fun _ => 1)).any fun c₀ =>
      (run Cluster.step c₀ stale_tail).any fun c =>
        held (c.nodes 0) 17 = some ⟨1, 100, false, false⟩ ∧
        held (c.nodes 1) 17 = some ⟨2, 200, false, false⟩ ∧
        held (c.nodes 0) 16 = some ⟨1, 16, false, false⟩ ∧
        held (c.nodes 1) 16 = some ⟨1, 16, false, false⟩ := by decide +kernel
  simp only [Option.any_eq_true, decide_eq_true_eq] at hfacts
  obtain ⟨c₀, hinit, c, hrun, h0, h1, h2, h3⟩ := hfacts
  exact ⟨c₀, c, hinit, hrun, h0, h1, h2, h3,
    logs_match_in_run hinit (Steps.of_run (fun _ => by decide +kernel) hrun)⟩

end MiniDb
