import MiniDb.Raft.NodeSteps

/-! # What the functions of a node leave alone

  One equation per function: the new state is the old one with a few fields
  replaced.  Nothing here depends on the membership being fixed. -/

namespace MiniDb

open List Function

/-- The leader may commit up to `k`. -/
structure Committable (r : Raft) (k : Nat) : Prop where
  last : k ≤ raft_last_log_index r
  own : term_at r k = r.current_term
  acked : majority r ≤ acked_by r k

theorem leader_advance_commit_cases (r : Raft) :
    leader_advance_commit r = r ∨
      ∃ k, r.commit_index < k ∧ Committable r k ∧ leader_advance_commit r = commit_to r k := by
  have aux : ∀ k ≤ raft_last_log_index r, advance_loop r k = r ∨
      ∃ k', r.commit_index < k' ∧ Committable r k' ∧ advance_loop r k = commit_to r k' := by
    intro k
    induction k with
    | zero => exact fun _ => .inl rfl
    | succ k ih =>
      intro hk
      unfold advance_loop
      split
      · exact .inl rfl
      next hnew =>
      split
      · exact ih (by omega)
      next hown =>
      split
      · next hacked => exact .inr ⟨k + 1, by omega, ⟨hk, not_not.mp hown, hacked⟩, rfl⟩
      · exact ih (by omega)
  exact aux _ le_rfl

/-- A leader that commits changes nothing but its commit index and what it has
    applied, and it steps down when it is no longer a member. -/
theorem commit_to_cases (r : Raft) (k : Nat) :
    ∃ applied ctx, commit_to r k =
      if raft_is_member r r.id then { r with
        commit_index := k
        pending_config_index := r.pending_config_index.filter (k < ·)
        last_applied := applied
        apply_ctx := ctx }
      else become_follower { r with
        commit_index := k
        pending_config_index := r.pending_config_index.filter (k < ·)
        last_applied := applied
        apply_ctx := ctx } r.current_term := by
  obtain ⟨calls, heq, -⟩ := apply_loop_spec (k - r.last_applied)
    { r with commit_index := k, pending_config_index := r.pending_config_index.filter (k < ·) }
  refine ⟨r.last_applied + (k - r.last_applied), r.apply_ctx ++ calls, ?_⟩
  unfold commit_to apply_committed
  dsimp only at heq ⊢
  rw [heq]
  rfl

variable {r : Raft} {es : List RaftEntry}

theorem commit_to_eq (hself : raft_is_member r r.id = true) (k : Nat) :
    ∃ pending applied ctx, commit_to r k = { r with
      commit_index := k
      pending_config_index := pending
      last_applied := applied
      apply_ctx := ctx } := by
  obtain ⟨applied, ctx, heq⟩ := commit_to_cases r k
  exact ⟨_, applied, ctx, heq.trans (if_pos hself)⟩

/-- What a new leader starts with. -/
structure InOffice (r r' : Raft) : Prop where
  role : r'.role = .RAFT_LEADER
  gate : r'.read_gate_index = raft_last_log_index r'
  barrier : r'.read_barrier_index = none
  confirmed : r'.read_confirmed_index = none
  commit : r'.commit_index = r.commit_index
  epoch : r'.read_epoch = r.read_epoch
  id : r'.id = r.id
  mask : r'.member_mask = r.member_mask
  term : r'.current_term = r.current_term

theorem take_office_spec (r : Raft) : InOffice r (take_office r) := by
  unfold take_office
  dsimp only
  split
  · rw [log_append_plain rfl]
    exact ⟨rfl, rfl, rfl, rfl, rfl, rfl, rfl, rfl, rfl⟩
  · exact ⟨rfl, rfl, rfl, rfl, rfl, rfl, rfl, rfl, rfl⟩

/-- A log that takes over `es` changes nothing but entries and members, and
    the members only by configuration entries. -/
structure TakesOver (r r' : Raft) (es : List RaftEntry) : Prop where
  eq : r' = { r with entries := r'.entries, member_mask := r'.member_mask }
  mem : ∀ e ∈ r'.entries, e ∈ r.entries ∨ e ∈ es
  mask : (∀ e ∈ es, e.is_config = false) → r'.member_mask = r.member_mask

theorem TakesOver.trans {r' r'' : Raft} {e : RaftEntry} (h : TakesOver r r' [e])
    (h' : TakesOver r' r'' es) : TakesOver r r'' (e :: es) := by
  refine ⟨by rw [h'.eq, h.eq], fun a ha => ?_, fun hes => ?_⟩
  · rcases h'.mem a ha with ha | ha
    · exact (h.mem a ha).imp_right fun ha => mem_cons.mpr (.inl (mem_singleton.mp ha))
    · exact .inr (mem_cons_of_mem e ha)
  · rw [h'.mask fun a ha => hes a (mem_cons_of_mem e ha)]
    exact h.mask fun a ha => hes a (mem_singleton.mp ha ▸ mem_cons_self)

/-- Cut the log off and append one entry. -/
theorem takesOver_log_append (r : Raft) (ents : List RaftEntry) (e : RaftEntry)
    (hsub : ∀ a ∈ ents, a ∈ r.entries) : TakesOver r (log_append { r with entries := ents } e) [e] := by
  have hmem : ∀ a ∈ ents ++ [e], a ∈ r.entries ∨ a ∈ [e] := fun a ha =>
    (mem_append.mp ha).imp_left (hsub a)
  unfold log_append maybe_adopt_config
  dsimp only
  split
  · next hconf => exact ⟨rfl, hmem, fun hes => absurd (hes e (by simp)) (by simp [hconf])⟩
  · exact ⟨rfl, hmem, fun _ => rfl⟩

theorem takesOver_append_loop (es : List RaftEntry) (r : Raft) (truncated : Bool) (idx : Nat) :
    TakesOver r (append_loop r truncated idx es).1 es := by
  induction es generalizing r truncated idx with
  | nil => exact ⟨rfl, fun _ => .inl, fun _ => rfl⟩
  | cons e es ih =>
    have hskip : ∀ t i, TakesOver r (append_loop r t i es).1 (e :: es) := fun t i =>
      TakesOver.trans ⟨rfl, fun _ => .inl, fun _ => rfl⟩ (ih r t i)
    unfold append_loop
    split
    · exact hskip _ _
    split
    · split
      · exact (takesOver_log_append r _ e fun a ha => mem_of_mem_take ha).trans (ih _ _ _)
      · exact hskip _ _
    · exact (takesOver_log_append r r.entries e fun _ => id).trans (ih _ _ _)

theorem append_all_eq (r : Raft) (prev : Nat) (es : List RaftEntry) :
    ∃ ents mask, append_all r prev es = { r with entries := ents, member_mask := mask } ∧
      ∀ e ∈ ents, e ∈ r.entries ∨ e ∈ es := by
  have h := takesOver_append_loop es r false (prev + 1)
  unfold append_all
  dsimp only
  split
  · exact ⟨_, _, by unfold recompute_member_mask; rw [h.eq], h.mem⟩
  · exact ⟨_, _, h.eq, h.mem⟩

/-- A list without configuration entries changes no mask. -/
theorem fold_config_plain (h : ∀ e ∈ es, e.is_config = false) (m : Nat) : fold_config m es = m := by
  induction es with
  | nil => rfl
  | cons e es ih =>
    show fold_config (if e.is_config then mask_of e.command else m) es = m
    rw [h e mem_cons_self, if_neg (by simp)]
    exact ih fun e he => h e (mem_cons_of_mem _ he)

/-- Without configuration entries the members stay, whether or not they are
    computed again. -/
theorem append_all_plain (hmask : r.member_mask = r.base_member_mask)
    (hr : ∀ e ∈ r.entries, e.is_config = false) (hes : ∀ e ∈ es, e.is_config = false) (prev : Nat) :
    ∃ ents, append_all r prev es = { r with entries := ents } ∧
      (append_loop r false (prev + 1) es).1 = { r with entries := ents } ∧
      ∀ e ∈ ents, e.is_config = false := by
  have h := takesOver_append_loop es r false (prev + 1)
  have hplain : ∀ e ∈ (append_loop r false (prev + 1) es).1.entries, e.is_config = false :=
    fun e he => (h.mem e he).elim (hr e) (hes e)
  have heq : (append_loop r false (prev + 1) es).1 =
      { r with entries := (append_loop r false (prev + 1) es).1.entries } := by
    rw [h.eq, h.mask hes]
  refine ⟨_, ?_, heq, hplain⟩
  unfold append_all
  dsimp only
  split
  · unfold recompute_member_mask
    rw [fold_config_plain hplain, heq, ← hmask]
  · exact heq

theorem follow_commit_eq (r : Raft) (commit : Nat) :
    ∃ k applied ctx, follow_commit r commit =
      { r with commit_index := k, last_applied := applied, apply_ctx := ctx } := by
  unfold follow_commit
  split
  · obtain ⟨calls, heq, -⟩ := apply_loop_spec
      ((if commit < raft_last_log_index r then commit else raft_last_log_index r) - r.last_applied)
      { r with commit_index :=
        if commit < raft_last_log_index r then commit else raft_last_log_index r }
    rw [apply_committed, heq]
    exact ⟨_, _, _, rfl⟩
  · exact ⟨_, _, _, rfl⟩

/-! ### Received messages -/

/-- The state in which a node takes a message of the leader of term `u`. -/
def following (r : Raft) (u : Nat) : Raft :=
  { step_down_if_higher r u with role := .RAFT_FOLLOWER, election_elapsed := 0 }

/-- The state after a snapshot has replaced the log. -/
def install (r : Raft) (idx term : Nat) (value : Int) (mask : Nat) : Raft :=
  { r with
    marker := { term := term, command := 0, is_config := false, is_noop := false }
    entries := []
    log_base := idx
    commit_index := idx
    last_applied := idx
    snapshot_value := value
    base_member_mask := mask
    member_mask := mask
    apply_ctx := r.apply_ctx ++ [.snap_install idx value] }

/-- The answer of node `r` to `msg`. -/
def answer (r : Raft) (msg : RaftMsg) (body : RaftBody) : RaftMsg :=
  ⟨r.id, msg.sender, r.current_term, body⟩

/-- What a node may do with a message: its new state and what it sends. -/
inductive Received (r : Raft) (msg : RaftMsg) : Raft × List RaftMsg → Prop where
  /-- An old answer, or one that changes nothing. -/
  | ignored : Received r msg (r, [])
  | overtaken (hlater : r.current_term < msg.term) : Received r msg (become_follower r msg.term, [])
  | vote_refused {idx term : Nat} (hbody : msg.body = .request_vote idx term) :
      Received r msg (step_down_if_higher r msg.term,
        [answer (step_down_if_higher r msg.term) msg (.request_vote_reply false)])
  | vote_granted {idx term : Nat} (hbody : msg.body = .request_vote idx term)
      (hold : ¬msg.term < (step_down_if_higher r msg.term).current_term)
      (hfree : (step_down_if_higher r msg.term).voted_for = none ∨
        (step_down_if_higher r msg.term).voted_for = some msg.sender)
      (hup : candidate_log_up_to_date (step_down_if_higher r msg.term) idx term = true) :
      Received r msg ({ step_down_if_higher r msg.term with
          voted_for := some msg.sender
          election_elapsed := 0 },
        [answer (step_down_if_higher r msg.term) msg (.request_vote_reply true)])
  | counted (hbody : msg.body = .request_vote_reply true) (hrole : r.role = .RAFT_CANDIDATE)
      (hterm : msg.term = r.current_term) :
      Received r msg ({ r with votes_granted := r.votes_granted + 1 }, [])
  | elected (hbody : msg.body = .request_vote_reply true) (hrole : r.role = .RAFT_CANDIDATE)
      (hterm : msg.term = r.current_term) (hwon : majority r ≤ r.votes_granted + 1) :
      Received r msg (become_leader { r with votes_granted := r.votes_granted + 1 } [])
  | entries_old {prev prev_term commit epoch : Nat} {es : List RaftEntry}
      (hbody : msg.body = .append_entries prev prev_term commit es epoch) :
      Received r msg (step_down_if_higher r msg.term,
        [answer (step_down_if_higher r msg.term) msg (.append_entries_reply false 0 epoch)])
  | entries_refused {prev prev_term commit epoch : Nat} {es : List RaftEntry}
      (hbody : msg.body = .append_entries prev prev_term commit es epoch)
      (hold : ¬msg.term < (step_down_if_higher r msg.term).current_term) :
      Received r msg (following r msg.term,
        [answer (following r msg.term) msg (.append_entries_reply false 0 epoch)])
  | entries_taken {prev prev_term commit epoch : Nat} {es : List RaftEntry}
      (hbody : msg.body = .append_entries prev prev_term commit es epoch)
      (hold : ¬msg.term < (step_down_if_higher r msg.term).current_term)
      (hprev : prev_matches (following r msg.term) prev prev_term = true) :
      Received r msg (follow_commit (append_all (following r msg.term) prev es) commit,
        [answer (following r msg.term) msg (.append_entries_reply true (prev + es.length) epoch)])
  | backed (hrole : r.role = .RAFT_LEADER) (hnext : 1 < r.next_index msg.sender) :
      Received r msg ({ r with
        next_index := update r.next_index msg.sender (r.next_index msg.sender - 1) }, [])
  | entries_acked {k epoch : Nat} (hbody : msg.body = .append_entries_reply true k epoch)
      (hrole : r.role = .RAFT_LEADER) (hterm : msg.term = r.current_term) :
      Received r msg (note_read_ack (leader_advance_commit (note_match r msg.sender k))
        msg.sender epoch, [])
  | snapshot_old {idx term mask : Nat} {value : Int}
      (hbody : msg.body = .install_snapshot idx term value mask) :
      Received r msg (step_down_if_higher r msg.term,
        [answer (step_down_if_higher r msg.term) msg (.install_snapshot_reply 0)])
  | snapshot_known {idx term mask : Nat} {value : Int}
      (hbody : msg.body = .install_snapshot idx term value mask)
      (hold : ¬msg.term < (step_down_if_higher r msg.term).current_term)
      (hknown : idx ≤ (following r msg.term).commit_index) :
      Received r msg (following r msg.term,
        [answer (following r msg.term) msg (.install_snapshot_reply idx)])
  | installed {idx term mask : Nat} {value : Int}
      (hbody : msg.body = .install_snapshot idx term value mask)
      (hold : ¬msg.term < (step_down_if_higher r msg.term).current_term)
      (hnew : ¬idx ≤ (following r msg.term).commit_index) :
      Received r msg (install (following r msg.term) idx term value mask,
        [answer (following r msg.term) msg (.install_snapshot_reply idx)])
  | snapshot_acked {k : Nat} (hbody : msg.body = .install_snapshot_reply k)
      (hrole : r.role = .RAFT_LEADER) (hterm : msg.term = r.current_term) :
      Received r msg (leader_advance_commit (note_match r msg.sender k), [])

theorem raft_recv_received (r : Raft) (msg : RaftMsg) : Received r msg (raft_recv r msg) := by
  unfold raft_recv
  cases hbody : msg.body with
  | request_vote idx term =>
    dsimp only
    unfold handle_request_vote
    dsimp only
    split
    · exact .vote_refused hbody
    next hold =>
    split
    · next hgrant => exact .vote_granted hbody hold hgrant.1 hgrant.2
    · exact .vote_refused hbody
  | request_vote_reply granted =>
    dsimp only
    unfold handle_request_vote_reply
    split
    · next hlater => exact .overtaken hlater
    split
    · exact .ignored
    next hother =>
    push Not at hother
    split
    · next hgranted =>
      cases hgranted
      dsimp only
      split
      · next hwon => exact .elected hbody hother.1 hother.2 hwon
      · exact .counted hbody hother.1 hother.2
    · exact .ignored
  | append_entries prev prev_term commit es epoch =>
    dsimp only
    unfold handle_append_entries
    dsimp only
    split
    · exact .entries_old hbody
    next hold =>
    split
    · next hprev => exact .entries_taken hbody hold hprev
    · exact .entries_refused hbody hold
  | append_entries_reply success k epoch =>
    dsimp only
    unfold handle_append_entries_reply
    split
    · next hlater => exact .overtaken hlater
    split
    · exact .ignored
    next hother =>
    push Not at hother
    split
    · next hsuccess =>
      cases hsuccess
      exact .entries_acked hbody hother.1 hother.2
    split
    · next hnext => exact .backed hother.1 hnext
    · exact .ignored
  | install_snapshot idx term value mask =>
    dsimp only
    unfold handle_install_snapshot
    dsimp only
    split
    · exact .snapshot_old hbody
    next hold =>
    split
    · next hknown => exact .snapshot_known hbody hold hknown
    · next hnew => exact .installed hbody hold hnew
  | install_snapshot_reply k =>
    dsimp only
    unfold handle_install_snapshot_reply
    split
    · next hlater => exact .overtaken hlater
    split
    · exact .ignored
    next hother =>
    push Not at hother
    exact .snapshot_acked hbody hother.1 hother.2

end MiniDb
