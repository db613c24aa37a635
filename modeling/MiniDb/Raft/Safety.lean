import MiniDb.Raft.ClusterSteps

/-! # What a cluster guarantees

  State machine safety and leader completeness, for runs whose deliveries
  meet the conditions of `Replication`, and runs that break them without. -/

namespace MiniDb

open Framework Option

/-- The calls of a cluster that is never compacted and never changes its members. -/
def Event.basic : Event → Bool
  | .tick _ => true
  | .submit _ _ => true
  | .crash_restart _ => true
  | .deliver _ => true
  | _ => false

/-! ### Committed entries -/

/-- The entry at logical index `i`, if the log still has it. -/
def held (r : Raft) (i : Nat) : Option RaftEntry :=
  if r.log_base < i then r.entries[i - r.log_base - 1]? else none

/-- Node `x` has committed index `i` and still holds the entry. -/
structure CommittedAt (c : Cluster) (x i : Nat) (e : RaftEntry) : Prop where
  lt : x < c.size
  committed : i ≤ (c.nodes x).commit_index
  held : held (c.nodes x) i = some e

/-- Two nodes that apply an entry at the same index apply the same command. -/
def AppliesAgree (c : Cluster) : Prop :=
  ∀ i < c.size, ∀ j < c.size, ∀ index x y, .apply index x ∈ (c.nodes i).apply_ctx →
    .apply index y ∈ (c.nodes j).apply_ctx → x = y

/-- Two nodes that have committed an index hold the same entry there. -/
def CommitsAgree (c : Cluster) : Prop :=
  ∀ x y i e e', CommittedAt c x i e → CommittedAt c y i e' → e = e'

/-- Elections, logs and commits are followed. -/
def Scope.full (compacts : Nat → Prop) : Scope :=
  ⟨compacts, True, True, fun _ => trivial, fun _ => .inl trivial⟩

section Committed

variable {K : Nat → Prop} {c : Cluster} {p : Proto Nat RaftEntry} {e : RaftEntry}

theorem LogRel.held {r : Raft} {L : List RaftEntry} (h : LogRel r L) {i : Nat}
    (hi : r.log_base < i) : held r i = L[i - 1]? := by
  unfold MiniDb.held
  rw [if_pos hi, h.entries, List.getElem?_drop]
  congr 1
  omega

/-- A held entry lies behind the snapshot. -/
theorem base_lt_of_held {r : Raft} {i : Nat} (h : held r i = some e) :
    r.log_base < i :=
  (ite_none_right_eq_some.mp h).1

variable (h : ClusterRel (.full K) c p)

include h

theorem ClusterRel.decided {x i : Nat}
    (hc : CommittedAt c x i e) : Decided (majorities c.size) p (i - 1) e := by
  have hnode := h.node x hc.lt
  have hbase := base_lt_of_held hc.held
  have hle := hc.committed
  have hheld := hc.held
  rw [(hnode.log trivial).held hbase] at hheld
  rw [hnode.commit trivial] at hle
  exact (h.inv.committed x).decided (by omega) hheld

theorem ClusterRel.commits_agree : CommitsAgree c := by
  intro x y i e e' hx hy
  exact (h.decided hx).unique h.inv (h.decided hy)

theorem ClusterRel.applies_agree : AppliesAgree c := by
  intro i hi j hj index x y hx hy
  obtain ⟨k, e, hk, hd, rfl⟩ := (h.node i hi).applied trivial hx
  obtain ⟨k', e', hk', hd', rfl⟩ := (h.node j hj).applied trivial hy
  have hkk : k = k' := by omega
  rw [hkk] at hd
  rw [hd.unique h.inv hd']

end Committed

/-! ### State machine safety -/

section StateMachine

variable {c c₀ : Cluster} {p : Proto Nat RaftEntry}

/-- Without compaction no snapshot ever replaces a log. -/
theorem ClusterRel.fits (h : ClusterRel (.full (· = 0)) c p) (ev : Event) : fits c ev = true := by
  cases ev with
  | deliver k =>
    show Option.all _ c.net[k]? = true
    cases hmsg : c.net[k]? with
    | none => rfl
    | some msg =>
      rw [all_some]
      obtain ⟨-, hok⟩ := h.msgs msg (List.mem_of_getElem? hmsg)
      unfold snapshot_fits
      cases hbody : msg.body with
      | install_snapshot idx term value mask =>
        rw [hbody] at hok
        have hidx : idx = 0 := (hok.2 trivial).2.1
        simp [hidx]
      | _ => rfl
  | _ => rfl

/-- In every run in which a follower takes over a commit index only as far as
    the message covers its log, all nodes apply and commit the same. -/
theorem applies_agree_of_covered {n : Nat} {election_timeout heartbeat_timeout : Nat → Nat}
    (hinit : cluster_init n election_timeout heartbeat_timeout = some c₀) {evs : List Event}
    (hrun : Steps Cluster.step (fun c ev => (ev.basic && covered c ev) = true) c₀ evs c) :
    AppliesAgree c ∧ CommitsAgree c := by
  have hrel : ∃ p, ClusterRel (.full (· = 0)) c p := by
    refine hrun.invariant (fun c => ∃ p, ClusterRel (.full (· = 0)) c p) ?_
      ⟨_, cluster_init_rel rfl hinit⟩
    rintro c₁ ev c₂ ⟨p₁, hrel⟩ hok hs
    rw [Bool.and_eq_true] at hok
    have hmem : ev.keeps_members = true ∧ ev.compacts_in (· = 0) := by
      cases ev <;> first | exact ⟨rfl, trivial⟩ | cases hok.1
    obtain ⟨p₂, hrel₂, -⟩ := hrel.step ⟨hmem.1, hmem.2, fun _ => hok.2, fun _ => hrel.fits ev⟩ hs
    exact ⟨p₂, hrel₂⟩
  obtain ⟨p, hrel⟩ := hrel
  exact ⟨hrel.applies_agree, hrel.commits_agree⟩

end StateMachine

/-- A leader replicates one entry to a follower, and both apply it. -/
def replicate_one : List Event :=
  [.tick 0, .deliver 0, .deliver 1, .submit 0 7, .tick 0, .deliver 3, .deliver 4, .tick 0,
    .deliver 4]

theorem applies_agree_replicate_one :
    ∃ c₀ c, cluster_init 3 (fun _ => 1) (fun _ => 1) = some c₀ ∧
      run (fun c ev => if ev.basic && covered c ev then Cluster.step c ev else none) c₀
        replicate_one = some c ∧
      (c.nodes 0).apply_ctx = [.apply 1 7] ∧ (c.nodes 1).apply_ctx = [.apply 1 7] ∧
      AppliesAgree c ∧ CommitsAgree c := by
  have hctx : (cluster_init 3 (fun _ => 1) (fun _ => 1)).bind (fun c₀ =>
      (run (fun c ev => if ev.basic && covered c ev then Cluster.step c ev else none) c₀
        replicate_one).map fun c => ((c.nodes 0).apply_ctx, (c.nodes 1).apply_ctx)) =
      some ([.apply 1 7], [.apply 1 7]) := by decide +kernel
  obtain ⟨c₀, hinit, hctx⟩ := bind_eq_some_iff.mp hctx
  obtain ⟨c, hrun, hc⟩ := map_eq_some_iff.mp hctx
  obtain ⟨h0, h1⟩ := Prod.mk.inj hc
  exact ⟨c₀, c, hinit, hrun, h0, h1, applies_agree_of_covered hinit (Steps.of_guarded hrun)⟩

/-- A run in which nodes `0` and `1` apply different commands at index `17`:
    node `1` has committed its own there, node `2` becomes leader with the log of
    node `1`, and a message of it to node `0` carries 16 entries and the commit
    index `18`.  Node `0` commits all it has, although its entry at index `17`
    comes from a lost leadership. -/
def stale_tail : List Event :=
  [.tick 0, .deliver 0, .deliver 1, .deliver 1, .deliver 2] ++
  (List.range 16).map (fun i => Event.submit 0 (i + 1)) ++
  [.tick 0, .deliver 2, .deliver 3, .deliver 0, .deliver 0, .deliver 0, .tick 0, .deliver 3,
    .deliver 3] ++
  [.submit 0 100, .tick 1, .deliver 6, .deliver 6, .submit 1 200, .deliver 7, .tick 1, .deliver 9,
    .deliver 7, .deliver 8] ++
  [.tick 2, .deliver 9, .deliver 9, .deliver 10, .deliver 10] ++ List.replicate 16 (.tick 2) ++
  (.deliver 9 :: (List.range 16).map (fun i => Event.deliver (i + 9))) ++
  List.replicate 17 (.deliver 25) ++ [.tick 2, .deliver 25]

theorem applied_commands_diverge :
    ¬∀ (n : Nat) (election_timeout heartbeat_timeout : Nat → Nat) (c₀ c : Cluster)
      (evs : List Event), cluster_init n election_timeout heartbeat_timeout = some c₀ →
      (∀ ev ∈ evs, ev.basic = true) → run Cluster.step c₀ evs = some c →
      AppliesAgree c ∧ CommitsAgree c := by
  intro hall
  have hfacts : (cluster_init 3 (fun _ => 1) (fun _ => 1)).any fun c₀ =>
      (run Cluster.step c₀ stale_tail).any fun c => c.size = 3 ∧
        (c.nodes 0).apply_ctx.getLast? = some (.apply 17 100) ∧
        (c.nodes 1).apply_ctx.getLast? = some (.apply 17 200) := by decide +kernel
  simp only [any_eq_true, decide_eq_true_eq] at hfacts
  obtain ⟨c₀, hinit, c, hrun, hsize, h0, h1⟩ := hfacts
  obtain ⟨hagree, -⟩ := hall 3 _ _ c₀ c stale_tail hinit (by decide +kernel) hrun
  have := hagree 0 (by omega) 1 (by omega) 17 100 200 (List.mem_of_getLast? h0)
    (List.mem_of_getLast? h1)
  cases this

/-! ### Leader completeness -/

/-- A leader `b` of `c'` with a later term than a leader `a` of `c` has, in its
    log or covered by its snapshot, what `a` has committed.  At each such
    index there is one entry, and nodes of both states that have committed the
    index and still hold it hold that entry. -/
def LaterLeaderHolds (c c' : Cluster) : Prop :=
  ∀ a < c.size, ∀ b < c'.size, (c.nodes a).role = .RAFT_LEADER → (c'.nodes b).role = .RAFT_LEADER →
    (c.nodes a).current_term < (c'.nodes b).current_term →
    ∀ i, 1 ≤ i → i ≤ (c.nodes a).commit_index →
      ∃ e, (∀ x e', CommittedAt c x i e' → e' = e) ∧ (∀ x e', CommittedAt c' x i e' → e' = e) ∧
        (i ≤ (c'.nodes b).log_base ∨ held (c'.nodes b) i = some e)

section Leaders

variable {K : Nat → Prop} {c c' c₀ c₁ c₂ : Cluster} {p p' q : Proto Nat RaftEntry}

/-- Both states are connected to histories that `q` extends. -/
theorem later_leader_holds (h : ClusterRel (.full K) c p) (h' : ClusterRel (.full K) c' p')
    (hsize : c'.size = c.size) (hq : Inv (majorities c.size) q) (hext : Extends p q)
    (hext' : Extends p' q) : LaterLeaderHolds c c' := by
  intro a ha b hb _ hlead hterm i hpos hi
  have hnode := h.node a ha
  have hparty' := h'.party hb
  have hset := h.inv.committed a
  rw [← hnode.commit trivial, ← hnode.term] at hset
  have hlen := hset.le_length
  obtain ⟨e, he⟩ : ∃ e, (p.log a)[i - 1]? = some e := ⟨_, List.getElem?_eq_getElem (by omega)⟩
  have hdec : Decided (majorities c.size) q (i - 1) e :=
    (hset.decided (by omega) he).extends h.inv hext
  refine ⟨e, ?_, ?_, ?_⟩
  · intro x e' hx
    exact ((h.decided hx).extends h.inv hext).unique hq hdec
  · intro x e' hx
    have hd := (h'.decided hx).extends h'.inv hext'
    rw [hsize] at hd
    exact hd.unique hq hdec
  · by_cases hbase : i ≤ (c'.nodes b).log_base
    · exact .inl hbase
    · right
      rw [((h'.node b hb).log trivial).held (Nat.lt_of_not_le hbase)]
      -- `b` was elected with all that is settled in an earlier term
      obtain ⟨hlb, hllog⟩ := hparty'.leads hlead
      have hne : p'.leader (p'.term b) ≠ none := by rw [hlb]; simp
      have hset' := hset.extends_same h.inv hext le_rfl
      obtain ⟨-, hpre⟩ := hq.settled_elog hset' ((h'.node b hb).term ▸ hterm) (hext'.elected hne)
      rw [hext'.elog hne] at hpre
      have hlog := hpre.trans (h'.inv.elog_llog hne)
      rw [hllog] at hlog
      rw [getElem?_of_take_isPrefix hlog (by omega) hlen]
      exact he

/-- In every run whose deliveries meet both conditions, the leaders of later
    terms have what earlier leaders have committed. -/
theorem leaders_complete {n : Nat} {election_timeout heartbeat_timeout : Nat → Nat}
    (hinit : cluster_init n election_timeout heartbeat_timeout = some c₀) {evs evs' : List Event}
    (hrun : Steps Cluster.step
      (fun c ev => (ev.keeps_members && covered c ev && fits c ev) = true) c₀ evs c₁)
    (hrun' : Steps Cluster.step
      (fun c ev => (ev.keeps_members && covered c ev && fits c ev) = true) c₁ evs' c₂) :
    LaterLeaderHolds c₁ c₂ ∧ LaterLeaderHolds c₂ c₁ := by
  have hadm : ∀ c ev, (ev.keeps_members && covered c ev && fits c ev) = true →
      Admitted (.full fun _ => True) c ev := by
    intro c ev hok
    simp only [Bool.and_eq_true] at hok
    exact ⟨hok.1.1, by cases ev <;> trivial, fun _ => hok.1.2, fun _ => hok.2⟩
  obtain ⟨p₁, h₁, -, hsize₁⟩ :=
    (cluster_init_rel (K := .full fun _ => True) trivial hinit).run (hrun.mono hadm)
  obtain ⟨p₂, h₂, hext, hsize⟩ := h₁.run (hrun'.mono hadm)
  have hinv₂ := h₂.inv
  refine ⟨later_leader_holds h₁ h₂ hsize (hsize ▸ hinv₂) hext (Extends.refl _), ?_⟩
  exact later_leader_holds h₂ h₁ hsize.symm hinv₂ (Extends.refl _) hext

end Leaders

/-- A leader commits an entry and compacts its log. -/
def commit_and_compact : List Event :=
  [.tick 0, .deliver 0, .deliver 1, .submit 0 7, .tick 0, .deliver 3, .deliver 4, .snapshot 0 1 0]

/-- Its follower wins the next election. -/
def follower_wins : List Event := [.tick 1, .deliver 4, .deliver 5]

/-- A run that is checked for the conditions of `leaders_complete`. -/
def checked_step (c : Cluster) (ev : Event) : Option Cluster :=
  if ev.keeps_members && covered c ev && fits c ev then c.step ev else none

theorem leaders_complete_follower_wins :
    ∃ c₀ c₁ c₂, cluster_init 3 (fun _ => 1) (fun _ => 1) = some c₀ ∧
      run checked_step c₀ commit_and_compact = some c₁ ∧
      run checked_step c₁ follower_wins = some c₂ ∧
      (c₁.nodes 0).role = .RAFT_LEADER ∧ (c₁.nodes 0).commit_index = 1 ∧
      (c₁.nodes 0).log_base = 1 ∧ (c₂.nodes 1).role = .RAFT_LEADER ∧
      (c₂.nodes 1).current_term = 2 ∧ held (c₂.nodes 1) 1 = some ⟨1, 7, false, false⟩ ∧
      LaterLeaderHolds c₁ c₂ ∧ LaterLeaderHolds c₂ c₁ := by
  have hfacts : (cluster_init 3 (fun _ => 1) (fun _ => 1)).any fun c₀ =>
      (run checked_step c₀ commit_and_compact).any fun c₁ =>
        (run checked_step c₁ follower_wins).any fun c₂ =>
          (c₁.nodes 0).role = .RAFT_LEADER ∧ (c₁.nodes 0).commit_index = 1 ∧
            (c₁.nodes 0).log_base = 1 ∧ (c₂.nodes 1).role = .RAFT_LEADER ∧
            (c₂.nodes 1).current_term = 2 ∧ held (c₂.nodes 1) 1 = some ⟨1, 7, false, false⟩ := by
    decide +kernel
  simp only [any_eq_true, decide_eq_true_eq] at hfacts
  obtain ⟨c₀, hinit, c₁, hrun₁, c₂, hrun₂, hrole, hcommit, hbase, hrole', hterm, hheld⟩ := hfacts
  exact ⟨c₀, c₁, c₂, hinit, hrun₁, hrun₂, hrole, hcommit, hbase, hrole', hterm, hheld,
    leaders_complete hinit (Steps.of_guarded hrun₁) (Steps.of_guarded hrun₂)⟩

/-- Leader `0` sends entry `3` to node `2`, commits entries `1` and `2` with
    node `1` and compacts them.  The snapshot it then sends makes node `2`
    throw entry `3` away, whose acknowledgement is still on its way and
    commits the entry. -/
def acknowledged_and_lost : List Event :=
  [.tick 0, .deliver 0, .deliver 1, .submit 0 1, .submit 0 2, .tick 0, .submit 0 3, .tick 0,
    .deliver 3, .deliver 6, .deliver 5, .snapshot 0 2 0, .tick 0, .deliver 7, .deliver 5]

/-- Nodes `1` and `2` elect node `1`, and neither has entry `3`. -/
def elected_without : List Event := [.tick 1, .deliver 8, .deliver 8]

theorem committed_entry_lost :
    ¬∀ (n : Nat) (election_timeout heartbeat_timeout : Nat → Nat) (c₀ c₁ c₂ : Cluster)
      (evs evs' : List Event), cluster_init n election_timeout heartbeat_timeout = some c₀ →
      (∀ ev ∈ evs ++ evs', ev.keeps_members = true) → run Cluster.step c₀ evs = some c₁ →
      run Cluster.step c₁ evs' = some c₂ → LaterLeaderHolds c₁ c₂ := by
  intro hall
  have hfacts : (cluster_init 3 (fun _ => 1) (fun _ => 1)).any fun c₀ =>
      (run Cluster.step c₀ acknowledged_and_lost).any fun c₁ =>
        (run Cluster.step c₁ elected_without).any fun c₂ =>
          (c₁.size = 3 ∧ (c₁.nodes 0).role = .RAFT_LEADER ∧ (c₁.nodes 0).current_term = 1 ∧
            (c₁.nodes 0).commit_index = 3 ∧ held (c₁.nodes 0) 3 = some ⟨1, 3, false, false⟩) ∧
          c₂.size = 3 ∧ (c₂.nodes 1).role = .RAFT_LEADER ∧ (c₂.nodes 1).current_term = 2 ∧
            (c₂.nodes 1).log_base = 0 ∧ held (c₂.nodes 1) 3 = some ⟨2, 0, false, true⟩ := by
    decide +kernel
  simp only [any_eq_true, decide_eq_true_eq] at hfacts
  obtain ⟨c₀, hinit, c₁, hrun₁, c₂, hrun₂, ⟨hsize, hrole, hterm, hcommit, hheld⟩,
    hsize', hrole', hterm', hbase, hheld'⟩ := hfacts
  have hholds := hall 3 _ _ c₀ c₁ c₂ _ _ hinit (by decide +kernel) hrun₁ hrun₂
  obtain ⟨e, hsame, -, hhas⟩ := hholds 0 (by omega) 1 (by omega) hrole hrole' (by omega) 3
    (by omega) (by omega)
  have he := hsame 0 _ ⟨by omega, by omega, hheld⟩
  rw [hbase, hheld', ← he] at hhas
  rcases hhas with hhas | hhas
  · omega
  · cases hhas

end MiniDb
