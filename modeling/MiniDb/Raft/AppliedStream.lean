import MiniDb.Raft.Progress

/-! # What the state machine of a node is passed

  `apply_committed` leaves out the no-ops and nothing else: a configuration
  entry is passed to the callback like a command of a client.  As long as no
  leader overwrites what a node has committed, everything committed is applied
  after every event; between two restarts the calls are then those for the
  client's commands exactly if no configuration entry was passed. -/

namespace MiniDb

open Framework List Function

/-! ### Calls -/

/-- The entries that `last_applied` goes over between `r` and `r'`. -/
def passed (r r' : Raft) : List RaftEntry :=
  (range' (r.last_applied + 1) (r'.last_applied - r.last_applied)).map (ent r')

/-- Everything committed is in the log and applied. -/
structure AllApplied (r : Raft) : Prop where
  applied : r.last_applied = r.commit_index
  held : r.commit_index ≤ raft_last_log_index r

/-- The callback gets the entries that `last_applied` goes over, without the
    no-ops, and these are all that is committed. -/
structure Applies (r r' : Raft) : Prop where
  le : r.last_applied ≤ r'.last_applied
  ctx : r'.apply_ctx = r.apply_ctx ++ callbacks RaftEntry.is_noop r.last_applied (passed r r')
  caught : AllApplied r → AllApplied r'

section Applies

variable {r r' r'' : Raft}

/-- A call after one that has applied nothing; the log may have grown. -/
theorem Applies.after_same (h : Applies r' r'') (happlied : r'.last_applied = r.last_applied)
    (hctx : r'.apply_ctx = r.apply_ctx) (hcommit : r'.commit_index = r.commit_index)
    (hlast : AllApplied r → r.commit_index ≤ raft_last_log_index r') : Applies r r'' := by
  obtain ⟨hle, hctx', hcaught⟩ := h
  unfold passed at hctx'
  rw [happlied] at hle hctx'
  rw [hctx] at hctx'
  refine ⟨hle, hctx', fun hr => hcaught ⟨?_, hcommit ▸ hlast hr⟩⟩
  rw [happlied, hcommit, hr.applied]

theorem Applies.of_same (happlied : r'.last_applied = r.last_applied)
    (hctx : r'.apply_ctx = r.apply_ctx) (hcommit : r'.commit_index = r.commit_index)
    (hlast : raft_last_log_index r ≤ raft_last_log_index r') : Applies r r' :=
  Applies.after_same ⟨le_rfl, by simp [passed, callbacks], id⟩ happlied hctx hcommit
    fun hr => hr.held.trans hlast

/-- The commit index goes up, and the entries up to it are applied. -/
theorem Applies.apply_committed {k : Nat} (pending : Option Nat)
    (hk : AllApplied r → r.commit_index ≤ k ∧ k ≤ raft_last_log_index r) :
    Applies r (apply_committed { r with commit_index := k, pending_config_index := pending }) := by
  rw [MiniDb.apply_committed, apply_loop_eq]
  refine ⟨Nat.le_add_right _ _, ?_, fun hr => ?_⟩
  · unfold passed
    dsimp only
    rw [Nat.add_sub_cancel_left]
    rfl
  · have happlied := hr.applied
    obtain ⟨hle, hlast⟩ := hk hr
    exact ⟨by dsimp only; omega, hlast⟩

theorem Applies.follow_commit (r : Raft) (commit : Nat) : Applies r (follow_commit r commit) := by
  unfold MiniDb.follow_commit
  split
  · refine Applies.apply_committed r.pending_config_index fun hr => ?_
    have := hr.held
    split <;> omega
  · exact .of_same rfl rfl rfl le_rfl

theorem Applies.leader_advance_commit (r : Raft) : Applies r (leader_advance_commit r) := by
  rcases leader_advance_commit_cases r with heq | ⟨k, hk, hset, heq⟩
  · rw [heq]
    exact .of_same rfl rfl rfl le_rfl
  · obtain ⟨hle, hctx, hcaught⟩ := Applies.apply_committed (r.pending_config_index.filter (k < ·))
      fun _ => ⟨hk.le, hset.last⟩
    rw [heq]
    exact iteInduction (motive := Applies r) (fun _ => ⟨hle, hctx, hcaught⟩) fun _ =>
      ⟨hle, hctx, fun hr => ⟨(hcaught hr).applied, (hcaught hr).held⟩⟩

theorem last_index_le_append (r : Raft) (e : RaftEntry) :
    raft_last_log_index r ≤ raft_last_log_index (log_append r e) :=
  (Nat.le_succ _).trans_eq (last_index_log_append r e).symm

theorem log_append_commit (r : Raft) (e : RaftEntry) : (log_append r e).commit_index = r.commit_index := by
  unfold log_append maybe_adopt_config
  split <;> rfl

theorem Applies.become_leader (r : Raft) : Applies r (become_leader r []).1 := by
  obtain ⟨hle, hctx, hcaught⟩ := Applies.leader_advance_commit (take_office r)
  have happ : Applies (take_office r) (MiniDb.become_leader r []).1 :=
    ⟨hle, hctx, fun hr => ⟨(hcaught hr).applied, (hcaught hr).held⟩⟩
  refine happ.after_same ?_ ?_ ?_ fun hr => hr.held.trans ?_
  all_goals
    unfold take_office
    dsimp only
    split
  any_goals rfl
  · rw [log_append_plain rfl]
    exact (Nat.le_add_right _ _).trans_eq (last_index_append r [_]).symm

theorem Applies.raft_tick (r : Raft) : Applies r (raft_tick r).1 := by
  unfold MiniDb.raft_tick become_candidate
  dsimp only
  repeat' split
  all_goals first
    | exact .of_same rfl rfl rfl le_rfl
    | exact (Applies.become_leader _).after_same rfl rfl rfl AllApplied.held

theorem Applies.raft_submit (r : Raft) (command : Int) : Applies r (raft_submit r command).1 := by
  unfold MiniDb.raft_submit
  split
  · exact .of_same rfl rfl rfl le_rfl
  · exact .of_same rfl rfl rfl (last_index_le_append r _)

theorem Applies.raft_change_config (r : Raft) (new_mask : Nat) :
    Applies r (raft_change_config r new_mask).1 := by
  rcases raft_change_config_cases r new_mask with heq | ⟨-, -, -, next, mtch, heq⟩
  · rw [heq]
    exact .of_same rfl rfl rfl le_rfl
  · rw [heq]
    exact .of_same rfl rfl rfl (last_index_le_append r _)

theorem Applies.raft_snapshot {index : Nat} {sm_state : Int}
    (hs : raft_snapshot r index sm_state = some r') : Applies r r' := by
  obtain ⟨hnot, hr'⟩ := Option.ite_none_left_eq_some.mp hs
  cases hr'
  refine .of_same rfl rfl rfl ?_
  unfold raft_last_log_index Raft.log at *
  simp only [length_cons, length_drop] at *
  omega

theorem Applies.raft_read_index (r : Raft) : Applies r (raft_read_index r).1 := by
  unfold MiniDb.raft_read_index
  dsimp only
  repeat' split
  all_goals exact .of_same rfl rfl rfl le_rfl

theorem note_read_ack_applies (h : Applies r r') (peer epoch : Nat) :
    Applies r (note_read_ack r' peer epoch) := by
  obtain ⟨hle, hctx, hcaught⟩ := h
  unfold note_read_ack
  dsimp only
  repeat' split
  all_goals exact ⟨hle, hctx, fun hr => ⟨(hcaught hr).applied, (hcaught hr).held⟩⟩

theorem step_down_applies {u : Nat} (h : Applies (step_down_if_higher r u) r') : Applies r r' := by
  refine h.after_same ?_ ?_ ?_ fun hr => hr.held.trans_eq ?_ <;>
  · unfold step_down_if_higher
    split <;> rfl

/-- No entry of the message is in conflict with one that the node has committed. -/
def agrees_committed (r : Raft) (msg : RaftMsg) : Bool :=
  match msg.body with
  | .append_entries prev _ _ entries _ =>
      (entries.zipIdx (prev + 1)).all fun (e, idx) =>
        decide (idx ≤ r.log_base ∨ r.commit_index < idx ∨ term_at r idx = e.term)
  | _ => true

/-- Such a message cuts nothing off that is committed. -/
theorem append_loop_held {es : List RaftEntry} {truncated : Bool} {idx : Nat}
    (h : r.commit_index ≤ raft_last_log_index r)
    (hagree : ∀ p ∈ es.zipIdx idx, p.2 ≤ r.log_base ∨ r.commit_index < p.2 ∨ term_at r p.2 = p.1.term) :
    r.commit_index ≤ raft_last_log_index (append_loop r truncated idx es).1 := by
  induction es generalizing r truncated idx with
  | nil => exact h
  | cons e es ih =>
    rw [zipIdx_cons, forall_mem_cons] at hagree
    obtain ⟨he, hes⟩ := hagree
    -- behind the commit index nothing can be in conflict
    have hlater : ∀ {r' : Raft}, r'.commit_index = r.commit_index → r.commit_index < idx →
        r.commit_index ≤ raft_last_log_index r' → r.commit_index ≤
          raft_last_log_index (append_loop r' truncated (idx + 1) es).1 ∧ r.commit_index ≤
          raft_last_log_index (append_loop r' true (idx + 1) es).1 := by
      intro r' hcommit hlt hlast
      rw [← hcommit] at hlt hlast ⊢
      constructor <;> refine ih hlast fun p hp => .inr (.inl ?_) <;>
      · have hidx := le_snd_of_mem_zipIdx hp
        omega
    unfold append_loop
    split
    · exact ih h hes
    next hbase =>
    split
    · next hlast =>
      split
      · next hconflict =>
        have hlt : r.commit_index < idx := he.resolve_left hbase |>.resolve_right hconflict
        have hcut := log_append_commit { r with entries := r.entries.take (idx - r.log_base - 1) } e
        refine (hlater hcut hlt ?_).2
        rw [last_index_log_append]
        unfold raft_last_log_index Raft.log at *
        simp only [length_cons, length_take] at *
        omega
      · exact ih h hes
    · next hnew =>
      refine (hlater (log_append_commit r e) (by omega) ?_).1
      exact h.trans (last_index_le_append r e)

theorem append_all_held {es : List RaftEntry} {prev : Nat} (h : r.commit_index ≤ raft_last_log_index r)
    (hagree : ∀ p ∈ es.zipIdx (prev + 1),
      p.2 ≤ r.log_base ∨ r.commit_index < p.2 ∨ term_at r p.2 = p.1.term) :
    r.commit_index ≤ raft_last_log_index (append_all r prev es) := by
  have hheld := @append_loop_held r es false _ h hagree
  unfold append_all
  dsimp only
  split <;> exact hheld

/-- A message: the callback is called for entries, or a snapshot is installed. -/
theorem raft_recv_applies (r : Raft) (msg : RaftMsg) (hagree : agrees_committed r msg = true) :
    Applies r (raft_recv r msg).1 ∨
      (∃ k v, (raft_recv r msg).1.apply_ctx = r.apply_ctx ++ [.snap_install k v]) ∧
        AllApplied (raft_recv r msg).1 := by
  have hdown : Applies r (step_down_if_higher r msg.term) :=
    step_down_applies (.of_same rfl rfl rfl le_rfl)
  have hfollow : Applies r (following r msg.term) :=
    step_down_applies (u := msg.term) (.of_same rfl rfl rfl le_rfl)
  have hadv (k) : Applies r (MiniDb.leader_advance_commit (note_match r msg.sender k)) :=
    (Applies.leader_advance_commit _).after_same rfl rfl rfl AllApplied.held
  have hrecv := raft_recv_received r msg
  generalize raft_recv r msg = res at hrecv ⊢
  cases hrecv with
  | ignored | overtaken | counted | backed => exact .inl (.of_same rfl rfl rfl le_rfl)
  | vote_refused | entries_old | snapshot_old => exact .inl hdown
  | vote_granted => exact .inl (step_down_applies (u := msg.term) (.of_same rfl rfl rfl le_rfl))
  | entries_refused | snapshot_known => exact .inl hfollow
  | elected => exact .inl ((Applies.become_leader _).after_same rfl rfl rfl AllApplied.held)
  | @entries_taken prev _ commit _ es hbody =>
    have hsame : agrees_committed (following r msg.term) msg = agrees_committed r msg := by
      unfold following step_down_if_higher
      split <;> rfl
    rw [← hsame, agrees_committed, hbody] at hagree
    simp only [all_eq_true, decide_eq_true_eq] at hagree
    have hheld := fun hr => append_all_held (r := following r msg.term) hr hagree
    obtain ⟨ents, mask, happ, -⟩ := append_all_eq (following r msg.term) prev es
    refine .inl (step_down_applies (u := msg.term) ((Applies.follow_commit _ commit).after_same
      ?_ ?_ ?_ fun hr => hheld hr.held))
    all_goals
      rw [happ]
      rfl
  | @entries_acked k epoch => exact .inl (note_read_ack_applies (hadv k) _ _)
  | @installed idx _ _ value =>
    refine .inr ⟨⟨idx, value, ?_⟩, rfl, le_rfl⟩
    unfold following step_down_if_higher
    split <;> rfl
  | @snapshot_acked k => exact .inl (hadv k)

end Applies

/-! ### Runs -/

/-- A cluster, and what one of its nodes has done since it was last restarted or
    has installed a snapshot. -/
structure Watch where
  cluster : Cluster
  /-- `last_applied` at that time. -/
  start : Nat
  /-- The entries that `last_applied` has gone over, as they were in the log then. -/
  entries : List RaftEntry
  calls : List Applied

def watch (i : Nat) (c : Cluster) : Watch := ⟨c, (c.nodes i).last_applied, [], []⟩

def Applied.is_install : Applied → Bool
  | .snap_install _ _ => true
  | .apply _ _ => false

def Watch.step (i : Nat) (w : Watch) (ev : Event) : Option Watch :=
  (w.cluster.step ev).map fun c =>
    let r := w.cluster.nodes i
    let calls := (c.nodes i).apply_ctx.drop r.apply_ctx.length
    if ev = .crash_restart i ∨ calls.any Applied.is_install then watch i c
    else ⟨c, w.start, w.entries ++ passed r (c.nodes i), w.calls ++ calls⟩

/-- The entries are those up to the commit index, and the calls those for the
    commands of clients among them. -/
def Watch.Exact (i : Nat) (w : Watch) : Prop :=
  w.start + w.entries.length = (w.cluster.nodes i).commit_index ∧
    w.calls = callbacks (fun e => e.is_noop || e.is_config) w.start w.entries

structure WatchInv (i : Nat) (w : Watch) : Prop where
  applied : w.start + w.entries.length = (w.cluster.nodes i).last_applied
  calls : w.calls = callbacks RaftEntry.is_noop w.start w.entries
  caught : AllApplied (w.cluster.nodes i)

/-- No leader overwrites what node `i` has committed. -/
def keeps_committed (i : Nat) (w : Watch) : Event → Bool
  | .deliver k => (w.cluster.net[k]?).all fun msg =>
      decide (msg.receiver ≠ i) || agrees_committed (w.cluster.nodes i) msg
  | _ => true

variable {i : Nat} {w w' : Watch} {ev : Event}

theorem callbacks_append (skip : RaftEntry → Bool) (k : Nat) (es es' : List RaftEntry) :
    callbacks skip k (es ++ es') = callbacks skip k es ++ callbacks skip (k + es.length) es' := by
  rw [callbacks, zipIdx_append, filterMap_append, Nat.add_right_comm]
  rfl

/-- The calls without the configuration entries are the same only if there are none. -/
theorem callbacks_eq_iff (k : Nat) (es : List RaftEntry) :
    callbacks RaftEntry.is_noop k es = callbacks (fun e => e.is_noop || e.is_config) k es ↔
      ∀ e ∈ es, e.is_config = true → e.is_noop = true := by
  induction es generalizing k with
  | nil => simp [callbacks]
  | cons e es ih =>
    rw [callbacks_cons, callbacks_cons, forall_mem_cons, ← ih (k + 1)]
    cases hnoop : e.is_noop with
    | true => simp
    | false =>
      cases hconf : e.is_config with
      | false => simp
      | true =>
        refine ⟨fun heq => ?_, fun h => absurd (h.1 rfl) (by simp)⟩
        -- the entry's call is missing on the right, where the indexes are higher
        have heq : .apply (k + 1) e.command :: callbacks RaftEntry.is_noop (k + 1) es =
          callbacks (fun e => e.is_noop || e.is_config) (k + 1) es := heq
        obtain ⟨j, _, hlt, -, hj⟩ := mem_callbacks (heq ▸ mem_cons_self)
        have hj := (Applied.apply.inj hj).1
        omega

/-- A node applies entries, or it starts anew with everything committed applied. -/
theorem Watch.node_step (hok : keeps_committed i w ev = true) {c : Cluster}
    (hc : w.cluster.step ev = some c) :
    Applies (w.cluster.nodes i) (c.nodes i) ∨ AllApplied (c.nodes i) ∧ (ev = .crash_restart i ∨
      ∃ k v, (c.nodes i).apply_ctx = (w.cluster.nodes i).apply_ctx ++ [.snap_install k v]) := by
  obtain ⟨j, rest, res, -, -, hcall, rfl⟩ := Cluster.step_calls hc
  by_cases hj : i = j
  · subst hj
    have hnode : ({ w.cluster with net := rest }.put i res).nodes i = res.1 := update_self ..
    rw [hnode]
    cases hcall with
    | tick => exact .inl (.raft_tick _)
    | submit _ command => exact .inl (.raft_submit _ command)
    | crash_restart => exact .inr ⟨⟨rfl, Nat.le_add_right _ _⟩, .inl rfl⟩
    | snapshot _ index sm_state r' hr' => exact .inl (.raft_snapshot hr')
    | change_config _ mask => exact .inl (.raft_change_config _ mask)
    | read_index => exact .inl (.raft_read_index _)
    | deliver k msg rest hperm hk =>
      unfold keeps_committed at hok
      simp only [hk, Option.all_some, ne_eq, not_true_eq_false, decide_false, Bool.false_or] at hok
      exact (raft_recv_applies _ msg hok).imp_right fun h => ⟨h.2, .inr h.1⟩
  · have hnode : ({ w.cluster with net := rest }.put j res).nodes i = w.cluster.nodes i :=
      update_of_ne hj ..
    rw [hnode]
    exact .inl (.of_same rfl rfl rfl le_rfl)

theorem WatchInv.step (h : WatchInv i w) (hok : keeps_committed i w ev = true)
    (hs : w.step i ev = some w') : WatchInv i w' := by
  obtain ⟨c, hc, rfl⟩ := Option.map_eq_some_iff.mp hs
  have hnode := Watch.node_step hok hc
  dsimp only
  split
  · exact ⟨rfl, rfl, hnode.elim (fun happ => happ.caught h.caught) And.left⟩
  next hgo =>
  obtain ⟨hcrash, hinstall⟩ := not_or.mp hgo
  obtain ⟨hle, hctx, hcaught⟩ := hnode.resolve_right fun ⟨_, hnew⟩ => by
    obtain hev | ⟨k, v, heq⟩ := hnew
    · exact hcrash hev
    · exact hinstall (by simp [heq, Applied.is_install])
  refine ⟨?_, ?_, hcaught h.caught⟩
  · have happlied := h.applied
    simp only [length_append, passed, length_map, length_range']
    omega
  · rw [hctx, drop_left, h.calls, callbacks_append, h.applied]

/-- In every run in which no leader overwrites what node `i` has committed, since
    a restart or an installed snapshot of the node the callback got the commands
    of clients up to the commit index, in order and once each, exactly if no
    configuration entry was among the entries passed. -/
theorem applied_stream_iff {n : Nat} {election_timeout heartbeat_timeout : Nat → Nat}
    {c₀ : Cluster} {evs : List Event}
    (hinit : cluster_init n election_timeout heartbeat_timeout = some c₀)
    (hrun : Steps (Watch.step i) (fun w ev => keeps_committed i w ev = true) (watch i c₀) evs w) :
    w.Exact i ↔ ∀ e ∈ w.entries, e.is_config = true → e.is_noop = true := by
  have hstart : WatchInv i (watch i c₀) := by
    obtain ⟨r, hr, rfl⟩ := Option.map_eq_some_iff.mp hinit
    exact ⟨rfl, rfl, rfl, Nat.zero_le _⟩
  have hinv := hrun.invariant (WatchInv i) (fun _ _ _ h hok hs => h.step hok hs) hstart
  rw [Watch.Exact, hinv.applied, hinv.calls, callbacks_eq_iff]
  exact and_iff_right hinv.caught.applied

theorem applied_stream_submit_one :
    ∃ c₀ w, cluster_init 3 (fun _ => 1) (fun _ => 1) = some c₀ ∧
      run (fun w ev => if keeps_committed 0 w ev then Watch.step 0 w ev else none) (watch 0 c₀)
        [.tick 0, .deliver 0, .deliver 1, .submit 0 7, .tick 0, .deliver 3, .deliver 4] = some w ∧
      w.calls = [.apply 1 7] ∧ w.Exact 0 := by
  have hfacts : (cluster_init 3 (fun _ => 1) (fun _ => 1)).any fun c₀ =>
      (run (fun w ev => if keeps_committed 0 w ev then Watch.step 0 w ev else none) (watch 0 c₀)
        [.tick 0, .deliver 0, .deliver 1, .submit 0 7, .tick 0, .deliver 3, .deliver 4]).any fun w =>
          w.calls = [.apply 1 7] ∧ ∀ e ∈ w.entries, e.is_config = true → e.is_noop = true := by
    decide +kernel
  simp only [Option.any_eq_true, decide_eq_true_eq] at hfacts
  obtain ⟨c₀, hinit, w, hrun, hcalls, hcond⟩ := hfacts
  exact ⟨c₀, w, hinit, hrun, hcalls, (applied_stream_iff hinit (Steps.of_guarded hrun)).mpr hcond⟩

/-- A leader removes node `1`; the entry is passed to the state machine as the
    command `1`. -/
theorem config_entry_is_applied :
    ¬∀ (n : Nat) (election_timeout heartbeat_timeout : Nat → Nat) (c₀ : Cluster) (i : Nat)
      (evs : List Event) (w : Watch), cluster_init n election_timeout heartbeat_timeout = some c₀ →
      i < n → run (Watch.step i) (watch i c₀) evs = some w → w.Exact i := by
  intro hall
  have hfacts : (cluster_init 2 (fun _ => 1) (fun _ => 1)).any fun c₀ =>
      (run (Watch.step 0) (watch 0 c₀) [.tick 0, .deliver 0, .deliver 0, .change_config 0 1,
        .deliver 0, .deliver 0]).any fun w => w.calls = [.apply 1 1] ∧ w.start = 0 ∧
          w.entries = [⟨1, 1, true, false⟩] := by decide +kernel
  simp only [Option.any_eq_true, decide_eq_true_eq] at hfacts
  obtain ⟨c₀, hinit, w, hrun, hcalls, hstart, hentries⟩ := hfacts
  have hexact := (hall 2 _ _ c₀ 0 _ w hinit (by decide) hrun).2
  rw [hcalls, hstart, hentries] at hexact
  exact absurd hexact (by decide)

end MiniDb
