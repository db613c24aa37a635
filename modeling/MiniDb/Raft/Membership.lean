import MiniDb.Raft.ClusterSteps
import MiniDb.Raft.Persist

/-! # One change of the membership at a time

  A leader is meant to wait until a configuration entry is committed before it
  appends the next one.  It knows of a pending one by `pending_config_index`;
  if every node that wins an election has noted there what it inherits, a leader
  never has more than one pending, and that one is the configuration it uses. -/

namespace MiniDb

open Framework List Function Option

/-- The configuration entries behind the commit index. -/
def pending_configs (r : Raft) : List RaftEntry :=
  (r.entries.drop (r.commit_index - r.log_base)).filter RaftEntry.is_config

/-- At most one configuration is pending, and it differs from the one in use by
    at most one node. -/
def ConfigsApart (r : Raft) : Prop :=
  (pending_configs r).length ≤ 1 ∧
    ∀ e ∈ pending_configs r, mask_count (r.member_mask ^^^ mask_of e.command) ≤ 1

/-! ### The mask in use -/

/-- A node uses the last configuration of its log. -/
def UsesLast (r : Raft) : Prop := r.member_mask = fold_config r.base_member_mask r.entries

theorem fold_config_append (m : Nat) (es es' : List RaftEntry) :
    fold_config m (es ++ es') = fold_config (fold_config m es) es' := foldl_append

/-- Only configuration entries count. -/
theorem fold_config_filter (m : Nat) (es : List RaftEntry) :
    fold_config m es = fold_config m (es.filter RaftEntry.is_config) := by
  induction es generalizing m with
  | nil => rfl
  | cons e es ih =>
    cases he : e.is_config with
    | false =>
      rw [filter_cons_of_neg (by simp [he]), ← ih]
      show fold_config (if e.is_config then mask_of e.command else m) es = _
      rw [he]
      rfl
    | true =>
      rw [filter_cons_of_pos he]
      exact ih _

theorem ConfigsApart.of_length {r : Raft} (hlen : (pending_configs r).length ≤ 1) (h : UsesLast r) :
    ConfigsApart r := by
  refine ⟨hlen, fun e he => ?_⟩
  -- the pending entry is the last configuration, so it is the one in use
  have hone : pending_configs r = [e] := by
    obtain ⟨e', heq⟩ := length_eq_one_iff.mp
      (Nat.le_antisymm hlen (length_pos_of_mem he))
    rw [heq] at he ⊢
    rw [mem_singleton.mp he]
  have hconfig : e.is_config = true := (mem_filter.mp he).2
  have hmask : r.member_mask = mask_of e.command := by
    rw [h, ← take_append_drop (r.commit_index - r.log_base) r.entries, fold_config_append,
      fold_config_filter _ (r.entries.drop _)]
    show fold_config _ (pending_configs r) = _
    rw [hone]
    exact if_pos hconfig
  rw [hmask, Nat.xor_self]
  decide

section UsesLast

variable {r : Raft}

theorem UsesLast.log_append (h : UsesLast r) (e : RaftEntry) : UsesLast (log_append r e) := by
  unfold UsesLast MiniDb.log_append maybe_adopt_config at *
  cases he : e.is_config with
  | false =>
    rw [if_neg Bool.false_ne_true]
    show r.member_mask = fold_config r.base_member_mask (r.entries ++ [e])
    rw [fold_config_append, ← h]
    exact (if_neg (by simp [he])).symm
  | true =>
    rw [if_pos rfl]
    show mask_of e.command = fold_config r.base_member_mask (r.entries ++ [e])
    rw [fold_config_append]
    exact (if_pos he).symm

theorem uses_last_recompute (r : Raft) : UsesLast (recompute_member_mask r) := rfl

/-- Without a cut the mask is adopted entry by entry; after a cut it is computed
    again. -/
theorem UsesLast.append_loop (h : UsesLast r) (es : List RaftEntry) (idx : Nat) :
    (append_loop r false idx es).2 = false → UsesLast (append_loop r false idx es).1 := by
  have htrue : ∀ (es : List RaftEntry) (r : Raft) (idx : Nat), (MiniDb.append_loop r true idx es).2 = true := by
    intro es
    induction es with
    | nil => exact fun _ _ => rfl
    | cons e es ih =>
      intro r idx
      unfold MiniDb.append_loop
      repeat' split
      all_goals exact ih _ _
  induction es generalizing r idx with
  | nil => exact fun _ => h
  | cons e es ih =>
    unfold MiniDb.append_loop
    split
    · exact ih h _
    split
    · split
      · intro hfalse
        rw [htrue] at hfalse
        cases hfalse
      · exact ih h _
    · exact ih (h.log_append e) _

theorem UsesLast.append_all (h : UsesLast r) (prev : Nat) (es : List RaftEntry) :
    UsesLast (append_all r prev es) := by
  unfold MiniDb.append_all
  dsimp only
  split
  · exact uses_last_recompute _
  · next hcut => exact h.append_loop es _ (eq_false_of_ne_true hcut)

end UsesLast

/-! ### What a call does to the configurations -/

/-- Every configuration entry behind the commit index stands where the node
    has noted that a change is pending. -/
def ConfigNoted (r : Raft) : Prop :=
  ∀ j < r.entries.length, r.entries[j]?.any RaftEntry.is_config = true →
    r.commit_index ≤ r.log_base + j → r.pending_config_index = some (r.log_base + j + 1)

instance (r : Raft) : Decidable (ConfigNoted r) := inferInstanceAs (Decidable (∀ _ < _, _ → _ → _))

theorem length_filter_of_place {es : List RaftEntry} {p : Nat}
    (h : ∀ j, es[j]?.any RaftEntry.is_config = true → j = p) :
    (es.filter RaftEntry.is_config).length ≤ 1 := by
  induction es generalizing p with
  | nil => exact Nat.zero_le 1
  | cons e es ih =>
    cases he : e.is_config with
    | false =>
      rw [filter_cons_of_neg (by simp [he])]
      exact ih fun j hj => Nat.eq_sub_of_add_eq (h (j + 1) hj)
    | true =>
      -- place 0 is taken, so no later entry is a configuration
      have hrest : es.filter RaftEntry.is_config = [] := filter_eq_nil_iff.mpr fun x hx hconfig => by
        obtain ⟨j, hj⟩ := mem_iff_getElem?.mp hx
        have hlater := h (j + 1) (by rw [getElem?_cons_succ, hj]; exact hconfig)
        have hfirst := h 0 he
        omega
      rw [filter_cons_of_pos he, hrest]
      exact le_rfl

theorem ConfigNoted.length_le {r : Raft} (h : ConfigNoted r) : (pending_configs r).length ≤ 1 := by
  obtain ⟨d, hd⟩ : ∃ d, r.commit_index - r.log_base = d := ⟨_, rfl⟩
  unfold pending_configs
  rw [hd]
  refine length_filter_of_place (p := r.pending_config_index.getD 0 - (r.log_base + d + 1)) fun j hj => ?_
  rw [getElem?_drop] at hj
  have hlt : d + j < r.entries.length := by
    by_contra hge
    rw [getElem?_eq_none (not_lt.mp hge)] at hj
    cases hj
  rw [h (d + j) hlt hj (by omega), getD_some]
  omega

/-- The log stays, the commit index may go up, and what is noted behind it
    stays. -/
theorem ConfigNoted.of_same {r r' : Raft} (h : ConfigNoted r) (he : r'.entries = r.entries)
    (hb : r'.log_base = r.log_base) (hc : r.commit_index ≤ r'.commit_index)
    (hp : ∀ i, r'.commit_index < i → r.pending_config_index = some i →
      r'.pending_config_index = some i) : ConfigNoted r' := by
  intro j hj hconfig hle
  rw [he] at hj hconfig
  rw [hb] at hle ⊢
  exact hp _ (by omega) (h j hj hconfig (by omega))

/-- A call that appends no configuration entry. -/
structure Configs (r r' : Raft) : Prop where
  uses : UsesLast r → UsesLast r'
  noted : r'.role = .RAFT_LEADER → ConfigNoted r → ConfigNoted r'

section Configs

variable {r r' r'' : Raft}

theorem Configs.trans (h : Configs r r') (h' : Configs r' r'')
    (hrole : r''.role = .RAFT_LEADER → r'.role = .RAFT_LEADER) : Configs r r'' :=
  ⟨h'.uses ∘ h.uses, fun hl hn => h'.noted hl (h.noted (hrole hl) hn)⟩

theorem Configs.refl (r : Raft) : Configs r r := ⟨id, fun _ => id⟩

/-- A call after one that has changed nothing that matters here. -/
theorem Configs.after_same (h : Configs r' r'') (he : r'.entries = r.entries)
    (hb : r'.log_base = r.log_base) (hm : r'.member_mask = r.member_mask)
    (hbm : r'.base_member_mask = r.base_member_mask) (hc : r'.commit_index = r.commit_index)
    (hp : r'.pending_config_index = r.pending_config_index) : Configs r r'' := by
  refine ⟨fun hu => h.uses ?_, fun hl hn => h.noted hl ?_⟩
  · unfold UsesLast at hu ⊢
    rw [hm, hbm, he, hu]
  · exact hn.of_same he hb hc.ge fun _ _ hi => hp.trans hi

theorem Configs.of_same (he : r'.entries = r.entries) (hb : r'.log_base = r.log_base)
    (hm : r'.member_mask = r.member_mask) (hbm : r'.base_member_mask = r.base_member_mask)
    (hc : r'.commit_index = r.commit_index)
    (hp : r'.pending_config_index = r.pending_config_index) : Configs r r' :=
  (Configs.refl r').after_same he hb hm hbm hc hp

theorem Configs.of_not_leader (hrole : r'.role ≠ .RAFT_LEADER) (huses : UsesLast r → UsesLast r') :
    Configs r r' :=
  ⟨huses, fun hl => absurd hl hrole⟩

theorem Configs.step_down (r : Raft) (u : Nat) : Configs r (step_down_if_higher r u) := by
  unfold step_down_if_higher
  split
  · exact .of_same rfl rfl rfl rfl rfl rfl
  · exact .refl r

theorem Configs.following (r : Raft) (u : Nat) : Configs r (following r u) :=
  .of_not_leader nofun (Configs.step_down r u).uses

theorem Configs.leader_advance_commit (r : Raft) : Configs r (leader_advance_commit r) := by
  rcases leader_advance_commit_cases r with heq | ⟨k, hk, -, heq⟩
  · rw [heq]
    exact .refl r
  · obtain ⟨applied, ctx, hto⟩ := commit_to_cases r k
    rw [heq, hto]
    split
    · refine ⟨id, fun _ hn => hn.of_same rfl rfl hk.le fun i hi hp => ?_⟩
      dsimp only at hi ⊢
      rw [hp]
      exact if_pos (decide_eq_true hi)
    · exact .of_not_leader nofun id

/-- An entry that is no configuration is appended. -/
theorem Configs.log_append (r : Raft) {e : RaftEntry} (he : e.is_config = false) :
    Configs r (log_append r e) := by
  refine ⟨fun h => h.log_append e, fun _ hn => ?_⟩
  rw [log_append_plain he]
  intro j hj hconfig
  dsimp only at hj hconfig
  rw [length_append, length_singleton] at hj
  rcases Nat.lt_succ_iff_lt_or_eq.mp hj with hlt | rfl
  · rw [getElem?_append_left hlt] at hconfig
    exact hn j hlt hconfig
  · simp [he] at hconfig

theorem Configs.take_office (r : Raft) : Configs r (take_office r) := by
  have hnoop := Configs.log_append { r with role := .RAFT_LEADER }
    (e := { term := r.current_term, command := 0, is_config := false, is_noop := true }) rfl
  unfold MiniDb.take_office
  dsimp only
  split
  · exact ⟨hnoop.uses, fun _ => hnoop.noted rfl⟩
  · exact .of_same rfl rfl rfl rfl rfl rfl

theorem Configs.become_leader (r : Raft) : Configs r (become_leader r []).1 :=
  ((Configs.take_office r).trans (Configs.leader_advance_commit _) fun _ => (take_office_spec r).role).trans
    (.of_same rfl rfl rfl rfl rfl rfl) id

theorem Configs.raft_tick (r : Raft) : Configs r (raft_tick r).1 := by
  unfold MiniDb.raft_tick
  split
  · dsimp only
    split <;> exact .of_same rfl rfl rfl rfl rfl rfl
  split
  swap
  · exact .refl r
  dsimp only
  split
  swap
  · exact .of_same rfl rfl rfl rfl rfl rfl
  unfold become_candidate
  dsimp only
  split
  · exact (Configs.become_leader _).after_same rfl rfl rfl rfl rfl rfl
  · exact .of_not_leader nofun id

theorem Configs.raft_submit (r : Raft) (command : Int) : Configs r (raft_submit r command).1 := by
  unfold MiniDb.raft_submit
  split
  · exact .refl r
  · next hl =>
    exact (Configs.log_append r rfl).trans (.of_same rfl rfl rfl rfl rfl rfl) id

theorem Configs.raft_snapshot {index : Nat} {sm_state : Int}
    (hs : raft_snapshot r index sm_state = some r') : Configs r r' := by
  obtain ⟨hnot, hr'⟩ := ite_none_left_eq_some.mp hs
  cases hr'
  push Not at hnot
  obtain ⟨hbase, hcommit, -⟩ := hnot
  refine ⟨fun h => ?_, fun _ hn j hj hconfig hle => ?_⟩
  · unfold UsesLast at h ⊢
    dsimp only
    rw [h]
    conv_lhs => rw [← take_append_drop (index - r.log_base) r.entries]
    exact fold_config_append _ _ _
  · -- what is compacted was committed
    dsimp only at hj hconfig hle ⊢
    rw [length_drop] at hj
    rw [getElem?_drop] at hconfig
    have hold := hn (index - r.log_base + j) (by omega) hconfig (by omega)
    rwa [show r.log_base + (index - r.log_base + j) + 1 = index + j + 1 by omega] at hold

theorem Configs.raft_read_index (r : Raft) : Configs r (raft_read_index r).1 := by
  unfold MiniDb.raft_read_index
  dsimp only
  repeat' split
  all_goals exact .of_same rfl rfl rfl rfl rfl rfl

theorem Configs.note_read_ack (r : Raft) (peer epoch : Nat) : Configs r (note_read_ack r peer epoch) := by
  unfold MiniDb.note_read_ack
  dsimp only
  repeat' split
  all_goals exact .of_same rfl rfl rfl rfl rfl rfl

theorem note_read_ack_role (r : Raft) (peer epoch : Nat) :
    (note_read_ack r peer epoch).role = r.role := by
  unfold note_read_ack
  dsimp only
  repeat' split
  all_goals rfl

theorem Configs.raft_recv (r : Raft) (msg : RaftMsg) : Configs r (raft_recv r msg).1 := by
  have hdown := Configs.step_down r msg.term
  have hfollow := Configs.following r msg.term
  have hadv (k) : Configs r (MiniDb.leader_advance_commit (note_match r msg.sender k)) :=
    (Configs.leader_advance_commit _).after_same rfl rfl rfl rfl rfl rfl
  have hrecv := raft_recv_received r msg
  generalize MiniDb.raft_recv r msg = res at hrecv ⊢
  cases hrecv with
  | ignored => exact .refl r
  | overtaken | counted | backed => exact .of_same rfl rfl rfl rfl rfl rfl
  | vote_refused | entries_old | snapshot_old => exact hdown
  | vote_granted => exact hdown.trans (.of_same rfl rfl rfl rfl rfl rfl) id
  | elected => exact (Configs.become_leader _).after_same rfl rfl rfl rfl rfl rfl
  | entries_refused | snapshot_known => exact hfollow
  | @entries_taken prev _ commit _ es =>
    obtain ⟨ents, mask, happ, -⟩ := append_all_eq (MiniDb.following r msg.term) prev es
    obtain ⟨k, applied, ctx, hcommit⟩ :=
      follow_commit_eq (append_all (MiniDb.following r msg.term) prev es) commit
    refine .of_not_leader ?_ fun h => ?_
    · rw [hcommit, happ]
      nofun
    · have huses := (hfollow.uses h).append_all prev es
      rw [hcommit]
      exact huses
  | @entries_acked k =>
    refine (hadv k).trans (Configs.note_read_ack _ _ _) fun hl => ?_
    rw [note_read_ack_role] at hl
    exact hl
  | installed => exact .of_not_leader nofun fun _ => rfl
  | @snapshot_acked k => exact hadv k

end Configs

/-- A configuration entry is appended by a leader that knows of no pending one,
    and it is noted; or nothing happens. -/
theorem raft_change_config_cases (r : Raft) (new_mask : Nat) :
    raft_change_config r new_mask = (r, none) ∨
      r.role = .RAFT_LEADER ∧ (raft_change_config r new_mask).2 ≠ none ∧
        r.pending_config_index.any (r.commit_index < ·) = false ∧ ∃ next mtch, (raft_change_config r new_mask).1 =
          { log_append r ⟨r.current_term, new_mask, true, false⟩ with
            next_index := next, match_index := mtch
            pending_config_index := some (raft_last_log_index
              (log_append r ⟨r.current_term, new_mask, true, false⟩)) } := by
  unfold raft_change_config
  split
  · exact .inl rfl
  next hl =>
  split
  · exact .inl rfl
  split
  · exact .inl rfl
  · next hnone => exact .inr ⟨not_not.mp hl, nofun, eq_false_of_ne_true hnone, _, _, rfl⟩

/-! ### Runs -/

/-- `r'` has won an election. -/
def elects (r r' : Raft) : Bool := decide (r.role ≠ .RAFT_LEADER ∧ r'.role = .RAFT_LEADER)

/-- An election is won only by a node that has noted the pending configurations
    it inherits. -/
def inherits_noted (c : Cluster) : Event → Bool
  | .tick i => !elects (c.nodes i) (raft_tick (c.nodes i)).1 || decide (ConfigNoted (c.nodes i))
  | .deliver k => (c.net[k]?).all fun msg =>
      !elects (c.nodes msg.receiver) (raft_recv (c.nodes msg.receiver) msg).1 ||
        decide (ConfigNoted (c.nodes msg.receiver))
  | _ => true

/-- Node `r` uses the last configuration of its log, and as a leader it has
    noted what is pending. -/
structure ConfigInv (r : Raft) : Prop where
  uses : UsesLast r
  noted : r.role = .RAFT_LEADER → ConfigNoted r

section Run

variable {c c' : Cluster} {r r' : Raft}

/-- A call that appends no configuration entry, on a leader or by a node that
    may win. -/
theorem ConfigInv.keep (h : ConfigInv r) (hc : Configs r r')
    (hwin : r'.role = .RAFT_LEADER → r.role = .RAFT_LEADER ∨ ConfigNoted r) : ConfigInv r' :=
  ⟨hc.uses h.uses, fun hl => hc.noted hl ((hwin hl).elim h.noted id)⟩

theorem may_win (h : (!elects r r' || decide (ConfigNoted r)) = true) :
    r'.role = .RAFT_LEADER → r.role = .RAFT_LEADER ∨ ConfigNoted r := by
  intro hl
  by_contra hno
  push Not at hno
  simp [elects, hl, hno.1, hno.2] at h

theorem UsesLast.change_config (h : UsesLast r) (new_mask : Nat) :
    UsesLast (raft_change_config r new_mask).1 := by
  rcases raft_change_config_cases r new_mask with heq | ⟨-, -, -, next, mtch, heq⟩
  · rw [heq]
    exact h
  · have huses := h.log_append ⟨r.current_term, new_mask, true, false⟩
    rw [heq]
    exact huses

/-- The check of the code: a leader that has noted what is pending appends a
    configuration only if nothing is. -/
theorem ConfigNoted.change_config (h : ConfigNoted r) (new_mask : Nat) :
    ConfigNoted (raft_change_config r new_mask).1 := by
  rcases raft_change_config_cases r new_mask with heq | ⟨-, -, hnone, next, mtch, heq⟩
  · rw [heq]
    exact h
  · rw [heq]
    intro j hj hconfig hle
    change j < (r.entries ++ [_]).length at hj
    change (r.entries ++ [_])[j]?.any _ = true at hconfig
    rw [length_append, length_singleton] at hj
    rcases Nat.lt_succ_iff_lt_or_eq.mp hj with hlt | rfl
    · rw [getElem?_append_left hlt] at hconfig
      rw [h j hlt hconfig hle, any_some, decide_eq_false_iff_not] at hnone
      exact absurd (Nat.lt_succ_of_le hle) hnone
    · simp [raft_last_log_index, log_append, maybe_adopt_config, Raft.log, Nat.add_assoc]

theorem ConfigInv.change_config (h : ConfigInv r) (new_mask : Nat) :
    ConfigInv (raft_change_config r new_mask).1 := by
  refine ⟨h.uses.change_config new_mask, fun hl => ?_⟩
  by_cases hr : r.role = .RAFT_LEADER
  · exact (h.noted hr).change_config new_mask
  · rw [raft_change_config, if_pos hr] at hl
    exact absurd hl hr

/-- What all nodes have, and the one that took a call. -/
theorem Cluster.put_all {P : Raft → Prop} {net : List RaftMsg} {i : Nat} {res : Raft × List RaftMsg}
    (h : ∀ i < c.size, P (c.nodes i)) (hres : P res.1) :
    ∀ j < c.size, P (({ c with net := net }.put i res).nodes j) := by
  intro j hj
  show P (update c.nodes i res.1 j)
  by_cases hji : j = i
  · rw [hji, update_self]
    exact hres
  · rw [update_of_ne hji]
    exact h j hj

theorem config_inv_step (h : ∀ i < c.size, ConfigInv (c.nodes i)) {ev : Event}
    (hok : inherits_noted c ev = true) (hs : c.step ev = some c') :
    ∀ i < c'.size, ConfigInv (c'.nodes i) := by
  obtain ⟨i, rest, res, hi, -, hcall, rfl⟩ := Cluster.step_calls hs
  have hi' := h i hi
  have hres : ConfigInv res.1 := by
    cases hcall with
    | tick => exact hi'.keep (.raft_tick _) (may_win hok)
    | submit _ command =>
      refine hi'.keep (.raft_submit _ command) fun hl => .inl ?_
      unfold raft_submit at hl
      split at hl <;> exact hl
    | crash_restart => exact hi'.keep (.of_not_leader nofun id) nofun
    | snapshot _ index sm_state r' hr' =>
      refine hi'.keep (.raft_snapshot hr') fun hl => .inl ?_
      obtain ⟨-, hr'⟩ := ite_none_left_eq_some.mp hr'
      cases hr'
      exact hl
    | change_config _ mask => exact hi'.change_config mask
    | read_index =>
      refine hi'.keep (.raft_read_index _) fun hl => .inl ?_
      unfold raft_read_index at hl
      dsimp only at hl
      repeat' split at hl
      all_goals exact hl
    | deliver k msg rest hperm hk =>
      unfold inherits_noted at hok
      simp only [hk, all_some] at hok
      exact hi'.keep (.raft_recv _ msg) (may_win hok)
  exact Cluster.put_all h hres

/-- In every run whose steps all meet `inherits_noted`, every leader has at most
    one configuration pending, the one it uses. -/
theorem configs_apart_in_run {n : Nat} {election_timeout heartbeat_timeout : Nat → Nat}
    {c₀ : Cluster} {evs : List Event}
    (hinit : cluster_init n election_timeout heartbeat_timeout = some c₀)
    (hrun : Steps Cluster.step (fun c ev => inherits_noted c ev = true) c₀ evs c) :
    ∀ i < c.size, (c.nodes i).role = .RAFT_LEADER → ConfigsApart (c.nodes i) := by
  have hstart : ∀ i < c₀.size, ConfigInv (c₀.nodes i) := by
    obtain ⟨r, hr, rfl⟩ := map_eq_some_iff.mp hinit
    exact fun i _ => ⟨rfl, nofun⟩
  have hall := hrun.invariant (fun c => ∀ i < c.size, ConfigInv (c.nodes i))
    (fun _ _ _ h hok hs => config_inv_step h hok hs) hstart
  intro i hi hl
  exact .of_length ((hall i hi).noted hl).length_le (hall i hi).uses

end Run

/-- Leader `0` removes node `2`, steps down for a candidate of term 2, and wins
    again in term 3; it then refuses to add node `2` back. -/
def change_kept : List Event :=
  [.tick 0, .deliver 0, .deliver 1, .change_config 0 3, .tick 1, .deliver 3, .tick 0, .deliver 5,
    .deliver 5, .change_config 0 7]

theorem configs_apart_change_kept :
    ∃ c₀ c, cluster_init 3 (fun _ => 1) (fun _ => 1) = some c₀ ∧
      run (fun c ev => if inherits_noted c ev then Cluster.step c ev else none) c₀
        change_kept = some c ∧
      (c.nodes 0).role = .RAFT_LEADER ∧ (c.nodes 0).current_term = 3 ∧
      pending_configs (c.nodes 0) = [⟨1, 3, true, false⟩] ∧
      ∀ i < c.size, (c.nodes i).role = .RAFT_LEADER → ConfigsApart (c.nodes i) := by
  have hfacts : (cluster_init 3 (fun _ => 1) (fun _ => 1)).any fun c₀ =>
      (run (fun c ev => if inherits_noted c ev then Cluster.step c ev else none) c₀
        change_kept).any fun c => (c.nodes 0).role = .RAFT_LEADER ∧ (c.nodes 0).current_term = 3 ∧
          pending_configs (c.nodes 0) = [⟨1, 3, true, false⟩] := by decide +kernel
  simp only [Option.any_eq_true, decide_eq_true_eq] at hfacts
  obtain ⟨c₀, hinit, c, hrun, hrole, hterm, hpending⟩ := hfacts
  exact ⟨c₀, c, hinit, hrun, hrole, hterm, hpending,
    configs_apart_in_run hinit (Steps.of_guarded hrun)⟩

/-- Leader `0` removes node `2`; the entry reaches node `1`, which wins the next
    election before the entry is committed. -/
def inherited_change : List Event :=
  [.tick 0, .deliver 0, .deliver 1, .change_config 0 3, .tick 0, .deliver 3, .tick 1, .deliver 4,
    .deliver 4]

/-- The new leader does not know that a change is pending and appends another
    one. -/
theorem pending_configs_overlap :
    ¬∀ (n : Nat) (election_timeout heartbeat_timeout : Nat → Nat) (c₀ c : Cluster)
      (evs : List Event), cluster_init n election_timeout heartbeat_timeout = some c₀ →
      run Cluster.step c₀ evs = some c →
      ∀ i < c.size, (c.nodes i).role = .RAFT_LEADER → ConfigsApart (c.nodes i) := by
  intro hall
  have hfacts : (cluster_init 3 (fun _ => 1) (fun _ => 1)).any fun c₀ =>
      (run Cluster.step c₀ (inherited_change ++ [.change_config 1 7])).any fun c => c.size = 3 ∧
        (c.nodes 1).role = .RAFT_LEADER ∧ (pending_configs (c.nodes 1)).length = 2 := by
    decide +kernel
  simp only [Option.any_eq_true, decide_eq_true_eq] at hfacts
  obtain ⟨c₀, hinit, c, hrun, hsize, hrole, hlen⟩ := hfacts
  obtain ⟨hone, -⟩ := hall 3 _ _ c₀ c _ hinit hrun 1 (by omega) hrole
  omega

/-! ### The mask over all runs -/

/-- A cluster, and the file of each node that it saves its state to. -/
structure Site where
  cluster : Cluster
  files : Nat → Option (List UInt8)

inductive SiteEvent where
  | event (ev : Event)
  | save (i : Nat)
  /-- A load, into the node as it is or into one that `raft_init` has just set up. -/
  | load (i : Nat) (fresh : Bool) (log_cap : Nat)

def Site.step (s : Site) : SiteEvent → Option Site
  | .event ev => (s.cluster.step ev).map fun c => { s with cluster := c }
  | .save i =>
      if i < s.cluster.size then
        some { s with files := update s.files i (some (save_bytes (s.cluster.nodes i))) }
      else none
  | .load i fresh log_cap =>
      let r := s.cluster.nodes i
      let r := if fresh then raft_start i r.n_nodes r.election_timeout r.heartbeat_timeout else r
      let load := raft_load (fun _ => true) log_cap r (s.files i)
      if i < s.cluster.size ∧ load.ok = true then
        some { s with cluster := s.cluster.put i (load.node, []) }
      else none

/-- What is saved are values of the C types. -/
def save_fits (s : Site) : SiteEvent → Prop
  | .save i => Storable (s.cluster.nodes i)
  | _ => True

instance (s : Site) : (ev : SiteEvent) → Decidable (save_fits s ev)
  | .save i => inferInstanceAs (Decidable (Storable (s.cluster.nodes i)))
  | .event _ | .load .. => .isTrue trivial

structure SiteInv (s : Site) : Prop where
  nodes : ∀ i < s.cluster.size, UsesLast (s.cluster.nodes i)
  files : ∀ i, ∀ bs ∈ s.files i, ∃ r, Storable r ∧ UsesLast r ∧ bs = save_bytes r

theorem uses_last_step {c c' : Cluster} {ev : Event} (h : ∀ i < c.size, UsesLast (c.nodes i))
    (hs : c.step ev = some c') : ∀ i < c'.size, UsesLast (c'.nodes i) := by
  obtain ⟨i, rest, res, hi, -, hcall, rfl⟩ := Cluster.step_calls hs
  have hi' := h i hi
  refine Cluster.put_all h ?_
  cases hcall with
  | tick => exact (Configs.raft_tick _).uses hi'
  | submit _ command => exact (Configs.raft_submit _ command).uses hi'
  | crash_restart => exact hi'
  | snapshot _ index sm_state r' hr' => exact (Configs.raft_snapshot hr').uses hi'
  | change_config _ mask => exact hi'.change_config mask
  | read_index => exact (Configs.raft_read_index _).uses hi'
  | deliver k msg rest hperm hk => exact (Configs.raft_recv _ msg).uses hi'

theorem SiteInv.step {s s' : Site} {ev : SiteEvent} (h : SiteInv s) (hok : save_fits s ev)
    (hs : s.step ev = some s') : SiteInv s' := by
  cases ev with
  | event ev =>
    obtain ⟨c, hc, rfl⟩ := map_eq_some_iff.mp hs
    exact ⟨uses_last_step h.nodes hc, h.files⟩
  | save i =>
    obtain ⟨hi, hs⟩ := ite_none_right_eq_some.mp hs
    cases hs
    refine ⟨h.nodes, fun j bs hbs => ?_⟩
    dsimp only at hbs
    by_cases hji : j = i
    · rw [hji, update_self] at hbs
      cases hbs
      exact ⟨_, hok, h.nodes i hi, rfl⟩
    · rw [update_of_ne hji] at hbs
      exact h.files j bs hbs
  | load i fresh log_cap =>
    obtain ⟨⟨-, hok⟩, hs⟩ := ite_none_right_eq_some.mp hs
    cases hs
    refine ⟨Cluster.put_all h.nodes ?_, h.files⟩
    cases hfile : s.files i with
    | none =>
      rw [hfile] at hok
      cases hok
    | some bs =>
      -- the file was written when the node had a fold of its log as its mask
      obtain ⟨r, hr, huses, rfl⟩ := h.files i bs hfile
      rw [(raft_load_saved _ log_cap hr (fun _ => rfl) _).2]
      exact huses

/-- In every state of every run, the mask of every node is the fold of the
    configuration entries of its log. -/
theorem member_mask_is_fold {n : Nat} {election_timeout heartbeat_timeout : Nat → Nat}
    {c₀ : Cluster} {s : Site} {evs : List SiteEvent}
    (hinit : cluster_init n election_timeout heartbeat_timeout = some c₀)
    (hrun : Steps Site.step save_fits ⟨c₀, fun _ => none⟩ evs s) :
    ∀ i < s.cluster.size, (s.cluster.nodes i).member_mask =
      fold_config (s.cluster.nodes i).base_member_mask (s.cluster.nodes i).entries := by
  refine (hrun.invariant SiteInv (fun _ _ _ h hok hs => h.step hok hs) ⟨?_, nofun⟩).nodes
  obtain ⟨r, hr, rfl⟩ := map_eq_some_iff.mp hinit
  exact fun i _ => rfl

/-- Node `0` removes node `1` and is cut off; node `1` wins, removes node `2`, and
    overwrites the entry of node `0`, which then saves its state and loads it
    into a new node. -/
def config_overwritten : List SiteEvent :=
  ([.tick 0, .deliver 0, .deliver 1, .change_config 0 5, .tick 1, .deliver 4, .deliver 4,
    .change_config 1 3, .tick 1, .deliver 6] : List Event).map .event ++ [.save 0, .load 0 true 1]

theorem member_mask_is_fold_overwritten :
    ∃ c₀ s, cluster_init 3 (fun _ => 1) (fun _ => 1) = some c₀ ∧
      run (fun s ev => if save_fits s ev then Site.step s ev else none) ⟨c₀, fun _ => none⟩
        config_overwritten = some s ∧
      (s.cluster.nodes 0).entries = [⟨2, 3, true, false⟩] ∧ (s.cluster.nodes 0).member_mask = 3 ∧
      ∀ i < s.cluster.size, (s.cluster.nodes i).member_mask =
        fold_config (s.cluster.nodes i).base_member_mask (s.cluster.nodes i).entries := by
  have hfacts : (cluster_init 3 (fun _ => 1) (fun _ => 1)).any fun c₀ =>
      (run (fun s ev => if save_fits s ev then Site.step s ev else none) ⟨c₀, fun _ => none⟩
        config_overwritten).any fun s => (s.cluster.nodes 0).entries = [⟨2, 3, true, false⟩] ∧
          (s.cluster.nodes 0).member_mask = 3 := by decide +kernel
  simp only [Option.any_eq_true, decide_eq_true_eq] at hfacts
  obtain ⟨c₀, hinit, s, hrun, hentries, hmask⟩ := hfacts
  exact ⟨c₀, s, hinit, hrun, hentries, hmask, member_mask_is_fold hinit (Steps.of_guarded hrun)⟩

end MiniDb
