import MiniDb.Raft.Membership

/-! # The progress a leader keeps of its followers

  `next_index` and `match_index` of the members are set up when a leader takes
  office and follow the answers of its own term.  The entries of nodes that
  are not members are left as they are, so a node that comes back may bring
  the numbers of an earlier term with it; `progress_fresh` is the condition
  that it does not. -/

namespace MiniDb

open Framework List Function

/-- How far an answer says that its sender holds the entries of the leader. -/
def acked_index : RaftBody → Nat
  | .append_entries_reply true match_index _ => match_index
  | .install_snapshot_reply match_index => match_index
  | _ => 0

/-- Among the messages sent, node `j` has acknowledged the entries of leader `r`
    up to `k`, in its term. -/
def Acknowledged (sent : List RaftMsg) (j : Nat) (r : Raft) (k : Nat) : Prop :=
  ∃ m ∈ sent, m.sender = j ∧ m.receiver = r.id ∧ m.term = r.current_term ∧ k ≤ acked_index m.body

instance (sent : List RaftMsg) (j : Nat) (r : Raft) (k : Nat) :
    Decidable (Acknowledged sent j r k) :=
  inferInstanceAs (Decidable (∃ m ∈ sent, _))

theorem Acknowledged.mono {sent sent' : List RaftMsg} {j k k' : Nat} {r : Raft}
    (h : Acknowledged sent j r k') (hsub : ∀ m ∈ sent, m ∈ sent') (hk : k ≤ k') :
    Acknowledged sent' j r k := by
  obtain ⟨m, hm, hs, hr, ht, hle⟩ := h
  exact ⟨m, hsub m hm, hs, hr, ht, le_trans hk hle⟩

/-- What leader `r` notes of member `j` is right. -/
structure ProgressOf (sent : List RaftMsg) (r : Raft) (j : Nat) : Prop where
  next_pos : 1 ≤ r.next_index j
  next_le : r.next_index j ≤ raft_last_log_index r + 1
  matched : ∀ k, 1 ≤ k → k ≤ r.match_index j → Acknowledged sent j r k

/-- What leader `r` notes of the other members is right. -/
def Progress (sent : List RaftMsg) (r : Raft) : Prop :=
  ∀ j < RAFT_MAX_NODES, j ≠ r.id → raft_is_member r j = true → ProgressOf sent r j

/-! ### What a call does to the tenure of a leader -/

/-- Nobody takes office twice in a term, and the log of a leader only grows. -/
structure Tenure (r r' : Raft) : Prop where
  id : r'.id = r.id
  term : r.current_term ≤ r'.current_term
  stands : r'.current_term = r.current_term → r'.role = .RAFT_CANDIDATE → r.role = .RAFT_CANDIDATE
  leads : r'.current_term = r.current_term → r'.role = .RAFT_LEADER →
    r.role = .RAFT_CANDIDATE ∨
      r.role = .RAFT_LEADER ∧ raft_last_log_index r ≤ raft_last_log_index r'

section Tenure

variable {r r' r'' : Raft}

theorem Tenure.of_same (hid : r'.id = r.id) (hterm : r'.current_term = r.current_term)
    (hrole : r'.role = r.role) (hlast : raft_last_log_index r ≤ raft_last_log_index r') :
    Tenure r r' :=
  ⟨hid, le_of_eq hterm.symm, fun _ hc => hrole ▸ hc, fun _ hl => .inr ⟨hrole ▸ hl, hlast⟩⟩

theorem Tenure.refl (r : Raft) : Tenure r r := .of_same rfl rfl rfl (Nat.le_refl _)

theorem Tenure.of_follower (hid : r'.id = r.id) (hterm : r.current_term ≤ r'.current_term)
    (hrole : r'.role = .RAFT_FOLLOWER) : Tenure r r' := by
  refine ⟨hid, hterm, fun _ hc => ?_, fun _ hl => ?_⟩
  · cases hrole.symm.trans hc
  · cases hrole.symm.trans hl

theorem Tenure.trans (h : Tenure r r') (h' : Tenure r' r'') : Tenure r r'' := by
  refine ⟨h'.id.trans h.id, le_trans h.term h'.term, fun hterm hc => ?_, fun hterm hl => ?_⟩ <;>
    have h1 := h.term <;> have h2 := h'.term
  · exact h.stands (by omega) (h'.stands (by omega) hc)
  · rcases h'.leads (by omega) hl with hc | ⟨hl', hlast'⟩
    · exact .inl (h.stands (by omega) hc)
    · exact (h.leads (by omega) hl').imp_right fun hlead =>
        ⟨hlead.1, le_trans hlead.2 hlast'⟩

theorem Tenure.step_down (r : Raft) (u : Nat) : Tenure r (step_down_if_higher r u) := by
  unfold step_down_if_higher
  split
  · next hu => exact .of_follower rfl (le_of_lt hu) rfl
  · exact .refl r

theorem Tenure.following (r : Raft) (u : Nat) : Tenure r (following r u) :=
  .of_follower (Tenure.step_down r u).id (Tenure.step_down r u).term rfl

end Tenure

/-! ### What a call does to the progress -/

/-- A call on a node, where the messages sent so far are `sent`. -/
structure Advance (sent : List RaftMsg) (r r' : Raft) : Prop where
  tenure : Tenure r r'
  progress : (r.role = .RAFT_LEADER → Progress sent r) → r'.role = .RAFT_LEADER → Progress sent r'

section Advance

variable {sent : List RaftMsg} {r r' r'' : Raft}

theorem Advance.trans (h : Advance sent r r') (h' : Advance sent r' r'') : Advance sent r r'' :=
  ⟨h.tenure.trans h'.tenure, fun hp => h'.progress (h.progress hp)⟩

/-- The numbers stay, and the log may grow. -/
theorem Progress.of_same (h : Progress sent r) (hid : r'.id = r.id)
    (hterm : r'.current_term = r.current_term) (hmask : r'.member_mask = r.member_mask)
    (hnext : r'.next_index = r.next_index) (hmatch : ∀ j ≠ r.id, r'.match_index j = r.match_index j)
    (hlast : raft_last_log_index r ≤ raft_last_log_index r') : Progress sent r' := by
  intro j hj hne hmem
  rw [raft_is_member, hmask] at hmem
  have hne' : j ≠ r.id := hid ▸ hne
  obtain ⟨hpos, hle, hm⟩ := h j hj hne' hmem
  refine ⟨hnext ▸ hpos, by rw [hnext]; omega, fun k hk hkm => ?_⟩
  rw [hmatch j hne'] at hkm
  unfold Acknowledged
  rw [hid, hterm]
  exact hm k hk hkm

theorem Progress.mono {sent' : List RaftMsg} (h : Progress sent r) (hsub : ∀ m ∈ sent, m ∈ sent') :
    Progress sent' r := by
  intro j hj hne hmem
  obtain ⟨hpos, hle, hm⟩ := h j hj hne hmem
  exact ⟨hpos, hle, fun k hk hkm => (hm k hk hkm).mono hsub (Nat.le_refl k)⟩

theorem Advance.of_same (hid : r'.id = r.id) (hterm : r'.current_term = r.current_term)
    (hrole : r'.role = r.role) (hmask : r'.member_mask = r.member_mask)
    (hnext : r'.next_index = r.next_index) (hmatch : ∀ j ≠ r.id, r'.match_index j = r.match_index j)
    (hlast : raft_last_log_index r ≤ raft_last_log_index r') : Advance sent r r' :=
  ⟨.of_same hid hterm hrole hlast, fun hp hl =>
    (hp (hrole ▸ hl)).of_same hid hterm hmask hnext hmatch hlast⟩

theorem Advance.refl (r : Raft) : Advance sent r r :=
  .of_same rfl rfl rfl rfl rfl (fun _ _ => rfl) le_rfl

theorem Advance.of_follower (h : Tenure r r') (hrole : r'.role ≠ .RAFT_LEADER) : Advance sent r r' :=
  ⟨h, fun _ hl => absurd hl hrole⟩

theorem Advance.step_down (r : Raft) (u : Nat) : Advance sent r (step_down_if_higher r u) := by
  unfold step_down_if_higher
  split
  · next hu => exact .of_follower (.of_follower rfl (le_of_lt hu) rfl) nofun
  · exact .refl r

/-- A commit leaves the numbers alone, also when it makes the leader step down. -/
theorem leader_advance_commit_keeps (r : Raft) :
    (leader_advance_commit r).id = r.id ∧ (leader_advance_commit r).current_term = r.current_term ∧
      ((leader_advance_commit r).role = r.role ∨ (leader_advance_commit r).role = .RAFT_FOLLOWER) ∧
      (leader_advance_commit r).member_mask = r.member_mask ∧
      (leader_advance_commit r).next_index = r.next_index ∧
      (leader_advance_commit r).match_index = r.match_index ∧
      raft_last_log_index (leader_advance_commit r) = raft_last_log_index r := by
  rcases leader_advance_commit_cases r with heq | ⟨k, -, -, heq⟩
  · rw [heq]
    exact ⟨rfl, rfl, .inl rfl, rfl, rfl, rfl, rfl⟩
  · obtain ⟨applied, ctx, hto⟩ := commit_to_cases r k
    rw [heq, hto]
    split
    · exact ⟨rfl, rfl, .inl rfl, rfl, rfl, rfl, rfl⟩
    · exact ⟨rfl, rfl, .inr rfl, rfl, rfl, rfl, rfl⟩

theorem Progress.leader_advance_commit (h : Progress sent r) :
    Progress sent (leader_advance_commit r) := by
  obtain ⟨hid, hterm, -, hmask, hnext, hmatch, hlast⟩ := leader_advance_commit_keeps r
  exact h.of_same hid hterm hmask hnext (fun j _ => by rw [hmatch]) (le_of_eq hlast.symm)

theorem Advance.leader_advance_commit (r : Raft) : Advance sent r (leader_advance_commit r) := by
  obtain ⟨hid, hterm, hrole, hmask, hnext, hmatch, hlast⟩ := leader_advance_commit_keeps r
  rcases hrole with hrole | hrole
  · exact .of_same hid hterm hrole hmask hnext (fun j _ => by rw [hmatch]) (le_of_eq hlast.symm)
  · exact .of_follower (.of_follower hid (le_of_eq hterm.symm) hrole) (by rw [hrole]; nofun)

theorem last_index_append (r : Raft) (es : List RaftEntry) :
    raft_last_log_index { r with entries := r.entries ++ es } = raft_last_log_index r + es.length := by
  unfold raft_last_log_index Raft.log
  simp only [length_cons, length_append]
  omega

theorem last_index_log_append (r : Raft) (e : RaftEntry) :
    raft_last_log_index (log_append r e) = raft_last_log_index r + 1 := by
  have happ := last_index_append r [e]
  unfold log_append maybe_adopt_config
  split <;> exact happ

/-- A new leader starts from the end of its log. -/
theorem progress_take_office (r : Raft) : Progress sent (take_office r) := by
  unfold take_office
  dsimp only
  intro j hj hne hmem
  split at hne
  · next hnoop =>
    rw [if_pos hnoop] at hmem ⊢
    rw [log_append_plain rfl] at hne hmem ⊢
    have hset : j < RAFT_MAX_NODES ∧ raft_is_member r j = true := ⟨hj, hmem⟩
    refine ⟨?_, ?_, ?_⟩
    · dsimp only
      rw [if_pos hset]
      omega
    · refine le_trans (le_of_eq (if_pos hset)) ?_
      have := last_index_append r [⟨r.current_term, 0, false, true⟩]
      show raft_last_log_index r + 1 ≤ raft_last_log_index { r with
        entries := r.entries ++ [⟨r.current_term, 0, false, true⟩] } + 1
      omega
    · intro k hk hkm
      dsimp only at hkm
      rw [update_of_ne hne, if_pos hset] at hkm
      omega
  · next hnoop =>
    rw [if_neg hnoop] at hmem ⊢
    have hset : j < RAFT_MAX_NODES ∧ raft_is_member r j = true := ⟨hj, hmem⟩
    refine ⟨?_, ?_, ?_⟩
    · dsimp only
      rw [if_pos hset]
      omega
    · exact le_of_eq (if_pos hset)
    · intro k hk hkm
      dsimp only at hkm
      rw [update_of_ne hne, if_pos hset] at hkm
      omega

/-- A node wins an election. -/
theorem Advance.become_leader {x : Raft} (hid : x.id = r.id)
    (hterm : r.role = .RAFT_CANDIDATE ∧ x.current_term = r.current_term ∨
      r.current_term < x.current_term) : Advance sent r (become_leader x []).1 := by
  have hspec := take_office_spec x
  have hoffice : Advance sent r (take_office x) := by
    refine ⟨⟨hspec.id.trans hid, ?_, fun _ hc => ?_, fun hsame _ => ?_⟩, fun _ _ =>
      progress_take_office x⟩
    · rw [hspec.term]
      omega
    · cases hspec.role.symm.trans hc
    · rw [hspec.term] at hsame
      rcases hterm with ⟨hcand, -⟩ | hlt
      · exact .inl hcand
      · omega
  exact (hoffice.trans (.leader_advance_commit _)).trans
    (.of_same rfl rfl rfl rfl rfl (fun _ _ => rfl) le_rfl)

theorem Advance.raft_tick (r : Raft) : Advance sent r (raft_tick r).1 := by
  unfold MiniDb.raft_tick
  split
  · dsimp only
    split <;> exact .of_same rfl rfl rfl rfl rfl (fun _ _ => rfl) le_rfl
  split
  swap
  · exact .refl r
  dsimp only
  split
  swap
  · exact .of_same rfl rfl rfl rfl rfl (fun _ _ => rfl) le_rfl
  unfold become_candidate
  dsimp only
  split
  · exact .become_leader rfl (.inr (Nat.lt_succ_self _))
  · refine .of_follower ⟨rfl, Nat.le_succ _, fun hsame _ => ?_, nofun⟩ nofun
    exact absurd hsame (Nat.succ_ne_self _)

theorem Advance.raft_submit (r : Raft) (command : Int) : Advance sent r (raft_submit r command).1 := by
  unfold MiniDb.raft_submit
  split
  · exact .refl r
  · refine .of_same rfl rfl rfl rfl rfl (fun j hj => update_of_ne hj _ _) ?_
    exact le_trans (Nat.le_succ _) (le_of_eq
      (last_index_log_append r ⟨r.current_term, command, false, false⟩).symm)

theorem Advance.raft_snapshot {index : Nat} {sm_state : Int}
    (hs : raft_snapshot r index sm_state = some r') : Advance sent r r' := by
  obtain ⟨hnot, hr'⟩ := Option.ite_none_left_eq_some.mp hs
  cases hr'
  refine .of_same rfl rfl rfl rfl rfl (fun _ _ => rfl) ?_
  unfold raft_last_log_index Raft.log at *
  simp only [length_cons, length_drop] at *
  omega

theorem Advance.raft_crash_restart (r : Raft) : Advance sent r (raft_crash_restart r) :=
  .of_follower (.of_follower rfl le_rfl rfl) nofun

theorem Advance.raft_read_index (r : Raft) : Advance sent r (raft_read_index r).1 := by
  unfold MiniDb.raft_read_index
  dsimp only
  repeat' split
  all_goals exact .of_same rfl rfl rfl rfl rfl (fun _ _ => rfl) le_rfl

theorem Advance.note_read_ack (r : Raft) (peer epoch : Nat) :
    Advance sent r (note_read_ack r peer epoch) := by
  unfold MiniDb.note_read_ack
  dsimp only
  repeat' split
  all_goals exact .of_same rfl rfl rfl rfl rfl (fun _ _ => rfl) le_rfl

/-- A leader notes an acknowledgement that reaches no further than its log. -/
theorem Advance.note_match (r : Raft) (peer k : Nat)
    (hack : 1 ≤ k → Acknowledged sent peer r k ∧ k ≤ raft_last_log_index r)
    (hold : ∀ j k, 1 ≤ k → Acknowledged sent j r k → k ≤ raft_last_log_index r) :
    Advance sent r (note_match r peer k) := by
  refine ⟨.of_same rfl rfl rfl le_rfl, fun hp hl j hj hne hmem => ?_⟩
  obtain ⟨hpos, hle, hm⟩ := hp hl j hj hne hmem
  by_cases hjp : j = peer
  swap
  · refine ⟨?_, ?_, ?_⟩
    · show 1 ≤ update r.next_index peer _ j
      rw [update_of_ne hjp]
      exact hpos
    · show update r.next_index peer _ j ≤ raft_last_log_index r + 1
      rw [update_of_ne hjp]
      exact hle
    · intro i hi him
      have him' : i ≤ update r.match_index peer _ j := him
      rw [update_of_ne hjp] at him'
      exact hm i hi him'
  subst hjp
  -- the larger of the two numbers has been acknowledged
  have hacked : ∀ i, 1 ≤ i → i ≤ (if r.match_index j < k then k else r.match_index j) →
      Acknowledged sent j r i ∧ i ≤ raft_last_log_index r := by
    intro i hi him
    split at him
    · obtain ⟨hk, hkl⟩ := hack (by omega)
      exact ⟨hk.mono (fun _ => id) him, by omega⟩
    · exact ⟨hm i hi him, hold j i hi (hm i hi him)⟩
  refine ⟨?_, ?_, ?_⟩
  · show 1 ≤ update r.next_index j _ j
    rw [update_self]
    omega
  · show update r.next_index j _ j ≤ raft_last_log_index r + 1
    rw [update_self]
    generalize hmax : (if r.match_index j < k then k else r.match_index j) = i at hacked ⊢
    rcases Nat.eq_zero_or_pos i with hz | hipos
    · omega
    · have := (hacked i hipos le_rfl).2
      omega
  · intro i hi him
    have him' : i ≤ update r.match_index j _ j := him
    rw [update_self] at him'
    exact (hacked i hi him').1

/-- A follower has refused: the next attempt starts one entry earlier. -/
theorem Advance.next_back (r : Raft) (peer : Nat) (hpeer : 1 < r.next_index peer) :
    Advance sent r { r with next_index := update r.next_index peer (r.next_index peer - 1) } := by
  refine ⟨.of_same rfl rfl rfl le_rfl, fun hp hl j hj hne hmem => ?_⟩
  obtain ⟨hpos, hle, hm⟩ := hp hl j hj hne hmem
  have hnext : ∀ P : Nat → Prop, P (r.next_index j) → (j = peer → P (r.next_index peer - 1)) →
      P (update r.next_index peer (r.next_index peer - 1) j) := by
    intro P hsame hback
    by_cases hjp : j = peer
    · rw [hjp, update_self]
      exact hback hjp
    · rw [update_of_ne hjp]
      exact hsame
  refine ⟨hnext (1 ≤ ·) hpos fun _ => by omega, hnext (· ≤ raft_last_log_index r + 1) hle ?_, hm⟩
  intro hjp
  rw [hjp] at hle
  show r.next_index peer - 1 ≤ _
  omega

end Advance

/-! ### Sent messages -/

/-- What node `a` has sent, or has been told, in term `t` about index `k` lies in
    its log as long as it leads that term. -/
def Below (c : Cluster) (a t k : Nat) : Prop :=
  k = 0 ∨ t ≤ (c.nodes a).current_term ∧
    (t = (c.nodes a).current_term → (c.nodes a).role ≠ .RAFT_CANDIDATE ∧
      ((c.nodes a).role = .RAFT_LEADER → k ≤ raft_last_log_index (c.nodes a)))

/-- The indexes of a message lie in the log of its leader. -/
def BoundOk (c : Cluster) (m : RaftMsg) : Prop :=
  match m.body with
  | .append_entries prev_log_index _ _ entries _ =>
      Below c m.sender m.term (prev_log_index + entries.length)
  | .install_snapshot last_included_index _ _ _ => Below c m.sender m.term last_included_index
  | .append_entries_reply success match_index _ =>
      success = true → Below c m.receiver m.term match_index
  | .install_snapshot_reply match_index => Below c m.receiver m.term match_index
  | _ => True

/-- What node `r'` may send after it has received a message of `net`. -/
def SentOk (net : List RaftMsg) (r' : Raft) (m : RaftMsg) : Prop :=
  match m.body with
  | .append_entries prev_log_index _ _ entries _ =>
      m.sender = r'.id ∧ m.term = r'.current_term ∧ r'.role ≠ .RAFT_CANDIDATE ∧
        prev_log_index + entries.length ≤ raft_last_log_index r'
  | .install_snapshot last_included_index _ _ _ =>
      m.sender = r'.id ∧ m.term = r'.current_term ∧ r'.role ≠ .RAFT_CANDIDATE ∧
        last_included_index ≤ raft_last_log_index r'
  | .append_entries_reply success match_index _ => success = true →
      ∃ msg ∈ net, msg.sender = m.receiver ∧ msg.term = m.term ∧
        ∃ prev prev_term commit entries epoch,
          msg.body = .append_entries prev prev_term commit entries epoch ∧
            match_index = prev + entries.length
  | .install_snapshot_reply match_index => match_index = 0 ∨
      ∃ msg ∈ net, msg.sender = m.receiver ∧ msg.term = m.term ∧
        ∃ term value mask, msg.body = .install_snapshot match_index term value mask
  | _ => True

section Sends

variable {net sent : List RaftMsg} {r : Raft} {msg : RaftMsg}

/-- What a leader sends lies in its log, because `next_index` does. -/
theorem sent_ok_heartbeat (hl : r.role ≠ .RAFT_CANDIDATE) (hp : Progress sent r) :
    ∀ m ∈ for_peers r (send_append_entries r) [], SentOk net r m := by
  unfold for_peers
  have hall : ∀ (peers : List Nat) (out : List RaftMsg), (∀ i ∈ peers, i < RAFT_MAX_NODES) →
      (∀ m ∈ out, SentOk net r m) → ∀ m ∈ peers.foldl (fun out i =>
        if i ≠ r.id ∧ raft_is_member r i = true then send_append_entries r i out else out) out,
        SentOk net r m := by
    intro peers
    -- by induction on the peers that are left
    induction peers with
    | nil => exact fun out _ hout => hout
    | cons i peers ih =>
      intro out hlt hout
      rw [foldl_cons]
      refine ih _ (fun j hj => hlt j (mem_cons_of_mem i hj)) ?_
      split
      swap
      · exact hout
      next hi =>
      obtain ⟨hpos, hle, -⟩ := hp i (hlt i mem_cons_self) hi.1 hi.2
      intro m hm
      unfold send_append_entries send_install_snapshot at hm
      split at hm
      · rcases mem_push_msg hm with hm | rfl
        · exact hout m hm
        · refine ⟨rfl, rfl, hl, ?_⟩
          unfold raft_last_log_index Raft.log
          rw [length_cons]
          omega
      · rcases mem_push_msg hm with hm | rfl
        · exact hout m hm
        · refine ⟨rfl, rfl, hl, ?_⟩
          rw [length_take, length_drop]
          unfold raft_last_log_index at hle ⊢
          omega
  exact hall _ [] (fun i hi => mem_range.mp hi) (by simp)

theorem sent_ok_request_vote (r r' : Raft) :
    ∀ m ∈ for_peers r (send_request_vote r) [], SentOk net r' m := by
  refine for_peers_all ?_ (by simp)
  intro i out _ _ hout m hm
  rcases mem_push_msg hm with hm | rfl
  · exact hout m hm
  · exact trivial

theorem sent_ok_become_leader (x : Raft) :
    ∀ m ∈ (become_leader x []).2, SentOk net (become_leader x []).1 m := by
  have hprogress : Progress [] (leader_advance_commit (take_office x)) :=
    (progress_take_office x).leader_advance_commit
  refine sent_ok_heartbeat ?_ (hprogress.of_same rfl rfl rfl rfl (fun _ _ => rfl)
    le_rfl)
  show (leader_advance_commit (take_office x)).role ≠ _
  obtain ⟨-, -, hrole, -⟩ := leader_advance_commit_keeps (take_office x)
  rcases hrole with hrole | hrole
  · rw [hrole, (take_office_spec x).role]
    nofun
  · rw [hrole]
    nofun

theorem sent_ok_raft_tick (r : Raft) (hp : r.role = .RAFT_LEADER → Progress sent r) :
    ∀ m ∈ (raft_tick r).2, SentOk net (raft_tick r).1 m := by
  unfold raft_tick
  split
  · next hl =>
    dsimp only
    split
    · exact sent_ok_heartbeat (by rw [hl]; nofun)
        ((hp hl).of_same rfl rfl rfl rfl (fun _ _ => rfl) le_rfl)
    · simp
  split
  swap
  · simp
  dsimp only
  split
  swap
  · simp
  unfold become_candidate
  dsimp only
  split
  · exact sent_ok_become_leader _
  · exact sent_ok_request_vote _ _

theorem sent_ok_raft_read_index (r : Raft) (hp : r.role = .RAFT_LEADER → Progress sent r) :
    ∀ m ∈ (raft_read_index r).2.1, SentOk net (raft_read_index r).1 m := by
  unfold raft_read_index
  split
  · simp
  next hl =>
  split
  · simp
  have hl' := not_not.mp hl
  dsimp only
  split <;> exact sent_ok_heartbeat (by rw [hl']; nofun)
    ((hp hl').of_same rfl rfl rfl rfl (fun _ _ => rfl) le_rfl)

end Sends

/-! ### Received messages -/

section Receive

variable {c : Cluster} {sent : List RaftMsg} {a : Nat} {msg : RaftMsg}

theorem BoundOk.acked (h : BoundOk c msg) : Below c msg.receiver msg.term (acked_index msg.body) := by
  unfold BoundOk at h
  cases hbody : msg.body with
  | append_entries_reply success k epoch =>
    rw [hbody] at h
    cases success with
    | true => exact h rfl
    | false => exact .inl rfl
  | install_snapshot_reply k =>
    rw [hbody] at h
    exact h
  | _ => exact .inl rfl

variable (hb : ∀ m ∈ sent, BoundOk c m)

include hb

/-- What has been acknowledged to a leader in its term lies in its log. -/
theorem Acknowledged.le_last (hid : (c.nodes a).id = a)
    (hl : (c.nodes a).role = .RAFT_LEADER) {j k : Nat} (hk : 1 ≤ k)
    (h : Acknowledged sent j (c.nodes a) k) : k ≤ raft_last_log_index (c.nodes a) := by
  obtain ⟨m, hm, -, hto, hterm, hle⟩ := h
  have hbelow := (hb m hm).acked
  rw [hto.trans hid, hterm] at hbelow
  rcases hbelow with hz | ⟨-, hbelow⟩
  · omega
  · exact le_trans hle ((hbelow rfl).2 hl)

/-- A leader takes note of an acknowledgement of its term. -/
theorem Advance.acknowledged (hid : (c.nodes a).id = a)
    (hl : (c.nodes a).role = .RAFT_LEADER) (hmem : msg ∈ sent) (hto : msg.receiver = a)
    (hterm : msg.term = (c.nodes a).current_term) {k : Nat} (hk : acked_index msg.body = k) :
    Advance sent (c.nodes a)
      (MiniDb.leader_advance_commit (MiniDb.note_match (c.nodes a) msg.sender k)) := by
  have hack : Acknowledged sent msg.sender (c.nodes a) k :=
    ⟨msg, hmem, rfl, hto.trans hid.symm, hterm, le_of_eq hk.symm⟩
  exact (Advance.note_match (c.nodes a) msg.sender k
    (fun hk => ⟨hack, hack.le_last hb hid hl hk⟩)
    (fun j i hi hj => hj.le_last hb hid hl hi)).trans (.leader_advance_commit _)

omit hb in
theorem following_term {r : Raft} {u : Nat} (hold : ¬u < (step_down_if_higher r u).current_term) :
    (following r u).current_term = u := by
  show (step_down_if_higher r u).current_term = u
  have := le_step_down r u
  omega

theorem raft_recv_advance (hid : (c.nodes a).id = a)
    (hsub : ∀ m ∈ c.net, m ∈ sent) (hmem : msg ∈ c.net) (hto : msg.receiver = a) :
    Advance sent (c.nodes a) (raft_recv (c.nodes a) msg).1 ∧
      ∀ m ∈ (raft_recv (c.nodes a) msg).2, SentOk c.net (raft_recv (c.nodes a) msg).1 m := by
  have hdown : Advance sent (c.nodes a) (step_down_if_higher (c.nodes a) msg.term) := .step_down _ _
  have hten := Tenure.following (c.nodes a) msg.term
  have hrecv := raft_recv_received (c.nodes a) msg
  generalize raft_recv (c.nodes a) msg = res at hrecv ⊢
  cases hrecv with
  | ignored => exact ⟨.refl _, nofun⟩
  | overtaken hlater => exact ⟨.of_follower (.of_follower rfl (le_of_lt hlater) rfl) nofun, nofun⟩
  | vote_refused => exact ⟨hdown, forall_mem_singleton.mpr trivial⟩
  | vote_granted =>
    exact ⟨hdown.trans (.of_same rfl rfl rfl rfl rfl (fun _ _ => rfl) le_rfl),
      forall_mem_singleton.mpr trivial⟩
  | counted => exact ⟨.of_same rfl rfl rfl rfl rfl (fun _ _ => rfl) le_rfl, nofun⟩
  | elected _ hrole => exact ⟨.become_leader rfl (.inl ⟨hrole, rfl⟩), sent_ok_become_leader _⟩
  | entries_old => exact ⟨hdown, forall_mem_singleton.mpr nofun⟩
  | entries_refused => exact ⟨.of_follower hten nofun, forall_mem_singleton.mpr nofun⟩
  | @entries_taken prev _ commit _ es hbody hold =>
    obtain ⟨ents, mask, happ, -⟩ := append_all_eq (following (c.nodes a) msg.term) prev es
    obtain ⟨k, applied, ctx, hcommit⟩ :=
      follow_commit_eq (append_all (following (c.nodes a) msg.term) prev es) commit
    refine ⟨?_, forall_mem_singleton.mpr fun _ =>
      ⟨msg, hmem, rfl, (following_term hold).symm, _, _, _, _, _, hbody, rfl⟩⟩
    rw [hcommit, happ]
    exact .of_follower (.of_follower hten.id hten.term rfl) nofun
  | backed _ hnext => exact ⟨.next_back _ _ hnext, nofun⟩
  | entries_acked hbody hrole hterm =>
    exact ⟨(Advance.acknowledged hb hid hrole (hsub msg hmem) hto hterm
      (by rw [hbody, acked_index])).trans (.note_read_ack _ _ _), nofun⟩
  | snapshot_old => exact ⟨hdown, forall_mem_singleton.mpr (.inl rfl)⟩
  | snapshot_known hbody hold =>
    exact ⟨.of_follower hten nofun, forall_mem_singleton.mpr
      (.inr ⟨msg, hmem, rfl, (following_term hold).symm, _, _, _, hbody⟩)⟩
  | installed hbody hold =>
    exact ⟨.of_follower (.of_follower hten.id hten.term rfl) nofun, forall_mem_singleton.mpr
      (.inr ⟨msg, hmem, rfl, (following_term hold).symm, _, _, _, hbody⟩)⟩
  | snapshot_acked hbody hrole hterm =>
    exact ⟨.acknowledged hb hid hrole (hsub msg hmem) hto hterm (by rw [hbody, acked_index]), nofun⟩

end Receive

/-! ### New members -/

/-- What leader `r` still notes of node `j`, which is about to join, is nothing
    or is right. -/
def FreshMember (sent : List RaftMsg) (r : Raft) (j : Nat) : Prop :=
  r.next_index j = 0 ∨ r.next_index j ≤ raft_last_log_index r + 2 ∧
    (r.match_index j = 0 ∨ Acknowledged sent j r (r.match_index j))

instance (sent : List RaftMsg) (r : Raft) (j : Nat) : Decidable (FreshMember sent r j) :=
  inferInstanceAs (Decidable (_ ∨ _))

theorem mask_of_testBit (new_mask : Nat) {j : Nat} (hj : j < RAFT_MAX_NODES) :
    (mask_of new_mask).testBit j = new_mask.testBit j := by
  have hmask : mask_of new_mask = new_mask % 2 ^ 32 := by
    unfold mask_of
    omega
  have hj' : j < 32 := Nat.lt_trans hj (by decide)
  rw [hmask, Nat.testBit_mod_two_pow, decide_eq_true hj', Bool.true_and]

theorem Advance.raft_change_config {sent : List RaftMsg} (r : Raft) (new_mask : Nat)
    (hfresh : (raft_change_config r new_mask).2 ≠ none → ∀ j < RAFT_MAX_NODES, j ≠ r.id →
      new_mask.testBit j = true → raft_is_member r j = false → FreshMember sent r j) :
    Advance sent r (raft_change_config r new_mask).1 := by
  rcases raft_change_config_cases r new_mask with heq | ⟨hl, hsome, -⟩
  · rw [heq]
    exact .refl r
  have hfresh' := hfresh hsome
  unfold MiniDb.raft_change_config at hsome ⊢
  split at hsome
  · exact absurd rfl hsome
  next hlead =>
  split at hsome
  · exact absurd rfl hsome
  next hone =>
  split at hsome
  · exact absurd rfl hsome
  next hpend =>
  rw [if_neg hlead, if_neg hone, if_neg hpend]
  have happ : log_append r ⟨r.current_term, new_mask, true, false⟩ =
      { r with entries := r.entries ++ [⟨r.current_term, new_mask, true, false⟩],
               member_mask := mask_of new_mask } := rfl
  have hlast := last_index_append r [⟨r.current_term, new_mask, true, false⟩]
  dsimp only
  rw [happ]
  refine ⟨.of_same rfl rfl rfl ?_, fun hp _ j hj hne hmem => ?_⟩
  · exact le_trans (Nat.le_add_right _ _) (le_of_eq hlast.symm)
  have hbit : new_mask.testBit j = true := by
    rw [← mask_of_testBit new_mask hj]
    exact hmem
  have hne' : j ≠ r.id := hne
  -- what the leader has noted of the node already
  have hnoted : r.next_index j = 0 ∨ 1 ≤ r.next_index j ∧
      r.next_index j ≤ raft_last_log_index r + 2 ∧
      ∀ k, 1 ≤ k → k ≤ r.match_index j → Acknowledged sent j r k := by
    by_cases hold : raft_is_member r j = true
    · obtain ⟨hpos, hle, hm⟩ := hp hl j hj hne' hold
      exact .inr ⟨hpos, by omega, hm⟩
    · rcases hfresh' j hj hne' hbit (Bool.eq_false_iff.mpr hold) with hz | ⟨hle, hm⟩
      · exact .inl hz
      · rcases Nat.eq_zero_or_pos (r.next_index j) with hz | hpos
        · exact .inl hz
        · refine .inr ⟨hpos, hle, fun k hk hkm => ?_⟩
          rcases hm with hz | hm
          · omega
          · exact hm.mono (fun _ => id) hkm
  have hlast' : raft_last_log_index r + 1 + 1 = raft_last_log_index { r with
      entries := r.entries ++ [⟨r.current_term, new_mask, true, false⟩] } + 1 := by
    rw [hlast]
    rfl
  rcases hnoted with hz | ⟨hpos, hle, hm⟩
  · have hset : (decide (j < RAFT_MAX_NODES) && new_mask.testBit j && decide (j ≠ r.id) &&
        decide (r.next_index j = 0)) = true := by
      simp [hj, hbit, hne', hz]
    refine ⟨le_of_eq (if_pos hset).symm, ?_, fun k hk hkm => ?_⟩
    · refine le_trans (le_of_eq (if_pos hset)) (le_trans ?_ (le_of_eq hlast'))
      omega
    · have := le_trans hkm (le_of_eq (if_pos hset))
      omega
  · have hkept : ¬(decide (j < RAFT_MAX_NODES) && new_mask.testBit j && decide (j ≠ r.id) &&
        decide (r.next_index j = 0)) = true := by
      have hnz : r.next_index j ≠ 0 := by omega
      simp [hnz]
    refine ⟨le_trans hpos (le_of_eq (if_neg hkept).symm), ?_, fun k hk hkm => ?_⟩
    · exact le_trans (le_of_eq (if_neg hkept)) (le_trans hle (le_of_eq hlast'))
    · have hkm' := le_trans hkm (le_of_eq (if_neg hkept))
      rw [update_of_ne hne'] at hkm'
      exact hm k hk hkm'

/-! ### Runs -/

/-- A cluster together with every message its nodes have sent. -/
structure Traced where
  cluster : Cluster
  sent : List RaftMsg

/-- The messages of the network that an event leaves there. -/
def Cluster.kept (c : Cluster) : Event → Nat
  | .deliver _ => c.net.length - 1
  | _ => c.net.length

def Traced.step (s : Traced) (ev : Event) : Option Traced :=
  (s.cluster.step ev).map fun c' => ⟨c', s.sent ++ c'.net.drop (s.cluster.kept ev)⟩

/-- An accepted configuration adds no node of which the leader still has the
    numbers of an earlier term. -/
def progress_fresh (s : Traced) : Event → Bool
  | .change_config i new_mask =>
      let r := s.cluster.nodes i
      decide ((raft_change_config r new_mask).2 ≠ none → ∀ j < RAFT_MAX_NODES, j ≠ r.id →
        new_mask.testBit j = true → raft_is_member r j = false → FreshMember s.sent r j)
  | _ => true

structure TracedInv (s : Traced) : Prop where
  id : ∀ a, (s.cluster.nodes a).id = a
  progress : ∀ a, (s.cluster.nodes a).role = .RAFT_LEADER → Progress s.sent (s.cluster.nodes a)
  net : ∀ m ∈ s.cluster.net, m ∈ s.sent
  bound : ∀ m ∈ s.sent, BoundOk s.cluster m

section Run

variable {s s' : Traced} {c c' : Cluster} {ev : Event} {m : RaftMsg}

theorem Traced.step_calls (hs : s.step ev = some s') :
    ∃ i rest res, (∀ m ∈ rest, m ∈ s.cluster.net) ∧ Calls s.cluster ev i rest res ∧
      s'.cluster = { s.cluster with net := rest }.put i res ∧ s'.sent = s.sent ++ res.2 := by
  obtain ⟨c', hc', rfl⟩ := Option.map_eq_some_iff.mp hs
  obtain ⟨i, rest, res, -, hsub, hcall, rfl⟩ := Cluster.step_calls hc'
  have hlen : s.cluster.kept ev = rest.length := by
    cases hcall with
    | deliver k msg _ hperm =>
      show s.cluster.net.length - 1 = rest.length
      rw [← hperm.length_eq, length_cons, Nat.add_sub_cancel]
    | _ => rfl
  refine ⟨i, rest, res, hsub, hcall, rfl, ?_⟩
  show s.sent ++ (rest ++ res.2).drop (s.cluster.kept ev) = _
  rw [hlen, drop_left]

/-- What the call of an event does, and what it sends. -/
theorem TracedInv.call (h : TracedInv s) (hok : progress_fresh s ev = true) {i : Nat}
    {rest : List RaftMsg} {res : Raft × List RaftMsg} (hcall : Calls s.cluster ev i rest res) :
    Advance s.sent (s.cluster.nodes i) res.1 ∧ ∀ m ∈ res.2, SentOk s.cluster.net res.1 m := by
  cases hcall with
  | tick => exact ⟨.raft_tick _, sent_ok_raft_tick _ (h.progress i)⟩
  | submit _ command => exact ⟨.raft_submit _ command, by simp⟩
  | crash_restart => exact ⟨.raft_crash_restart _, by simp⟩
  | snapshot _ index sm_state r hr => exact ⟨.raft_snapshot hr, by simp⟩
  | change_config _ new_mask =>
    exact ⟨.raft_change_config _ new_mask (of_decide_eq_true hok), by simp⟩
  | read_index => exact ⟨.raft_read_index _, sent_ok_raft_read_index _ (h.progress i)⟩
  | deliver k msg _ hperm =>
    exact raft_recv_advance h.bound (h.id _) h.net (hperm.subset mem_cons_self) rfl

theorem Below.step {a t k : Nat} (h : Below c a t k) (ht : Tenure (c.nodes a) (c'.nodes a)) :
    Below c' a t k := by
  rcases h with hz | ⟨hle, hsame⟩
  · exact .inl hz
  have hterm := ht.term
  refine .inr ⟨le_trans hle hterm, fun ht' => ?_⟩
  obtain ⟨hcand, hlast⟩ := hsame (by omega)
  refine ⟨fun hc => hcand (ht.stands (by omega) hc), fun hl => ?_⟩
  rcases ht.leads (by omega) hl with hc | ⟨hl', hgrow⟩
  · exact absurd hc hcand
  · exact le_trans (hlast hl') hgrow

theorem BoundOk.step (h : BoundOk c m)
    (ht : ∀ a, Tenure (c.nodes a) (c'.nodes a)) : BoundOk c' m := by
  unfold BoundOk at *
  split at h
  · exact h.step (ht _)
  · exact h.step (ht _)
  · exact fun hs => (h hs).step (ht _)
  · exact h.step (ht _)
  · trivial

theorem SentOk.bound {i : Nat} {res : Raft} (hm : SentOk c.net res m)
    (hid : res.id = i) (hres : c'.nodes i = res) (hb : ∀ m ∈ c.net, BoundOk c' m) :
    BoundOk c' m := by
  have hown : ∀ {k}, m.sender = res.id → m.term = res.current_term →
      res.role ≠ .RAFT_CANDIDATE → k ≤ raft_last_log_index res → Below c' m.sender m.term k := by
    intro k hs hterm hrole hk
    rw [hs, hid, hterm]
    unfold Below
    rw [hres]
    exact .inr ⟨le_rfl, fun _ => ⟨hrole, fun _ => hk⟩⟩
  unfold SentOk at hm
  unfold BoundOk
  split at hm
  · exact hown hm.1 hm.2.1 hm.2.2.1 hm.2.2.2
  · exact hown hm.1 hm.2.1 hm.2.2.1 hm.2.2.2
  · intro hsucc
    obtain ⟨msg, hmem, hto, hterm, prev, prev_term, commit, es, epoch, hbody, hk⟩ := hm hsucc
    have hmsg := hb msg hmem
    unfold BoundOk at hmsg
    rw [hbody] at hmsg
    rw [hk, ← hto, ← hterm]
    exact hmsg
  · rcases hm with hz | ⟨msg, hmem, hto, hterm, term, value, mask, hbody⟩
    · exact .inl hz
    · have hmsg := hb msg hmem
      unfold BoundOk at hmsg
      rw [hbody] at hmsg
      rw [← hto, ← hterm]
      exact hmsg
  · trivial

theorem TracedInv.step (h : TracedInv s) (hok : progress_fresh s ev = true)
    (hs : s.step ev = some s') : TracedInv s' := by
  obtain ⟨i, rest, res, hsub, hcall, hcl, hsent⟩ := Traced.step_calls hs
  obtain ⟨hadv, hmsgs⟩ := h.call hok hcall
  have hself : s'.cluster.nodes i = res.1 := by
    rw [hcl]
    exact update_self _ _ _
  have hother : ∀ a, a ≠ i → s'.cluster.nodes a = s.cluster.nodes a := fun a ha => by
    rw [hcl]
    exact update_of_ne ha _ _
  have hten : ∀ a, Tenure (s.cluster.nodes a) (s'.cluster.nodes a) := by
    intro a
    by_cases ha : a = i
    · rw [ha, hself]
      exact hadv.tenure
    · rw [hother a ha]
      exact .refl _
  have hgrow : ∀ m ∈ s.sent, m ∈ s'.sent := fun m hm => by
    rw [hsent]
    exact mem_append_left _ hm
  refine ⟨fun a => (hten a).id.trans (h.id a), ?_, ?_, ?_⟩
  · intro a hl
    have hprog : Progress s.sent (s'.cluster.nodes a) := by
      by_cases ha : a = i
      · rw [ha, hself] at hl ⊢
        exact hadv.progress (h.progress i) hl
      · rw [hother a ha] at hl ⊢
        exact h.progress a hl
    exact hprog.mono hgrow
  · intro m hm
    rw [hcl] at hm
    rw [hsent]
    rcases mem_append.mp hm with hm | hm
    · exact mem_append_left _ (h.net m (hsub m hm))
    · exact mem_append_right _ hm
  · intro m hm
    rw [hsent] at hm
    rcases mem_append.mp hm with hm | hm
    · exact (h.bound m hm).step hten
    · exact (hmsgs m hm).bound (hadv.tenure.id.trans (h.id i)) hself fun msg hmem =>
        (h.bound msg (h.net msg hmem)).step hten

/-- In every run whose steps all meet `progress_fresh`, what a leader notes of
    the other members is right. -/
theorem progress_in_run {n : Nat} {election_timeout heartbeat_timeout : Nat → Nat} {c₀ : Cluster}
    {evs : List Event} (hinit : cluster_init n election_timeout heartbeat_timeout = some c₀)
    (hrun : Steps Traced.step (fun s ev => progress_fresh s ev = true) ⟨c₀, []⟩ evs s) :
    ∀ i < s.cluster.size, (s.cluster.nodes i).role = .RAFT_LEADER →
      Progress s.sent (s.cluster.nodes i) := by
  have hstart : TracedInv ⟨c₀, []⟩ := by
    obtain ⟨r, hr, rfl⟩ := Option.map_eq_some_iff.mp hinit
    exact ⟨fun _ => rfl, nofun, nofun, nofun⟩
  have hall := hrun.invariant TracedInv (fun _ _ _ h hok hs => h.step hok hs) hstart
  exact fun i _ hl => hall.progress i hl

end Run

/-- Leader `0` removes node `2`, which holds its first entry, and takes it back
    in the same term. -/
def member_returns : List Event :=
  [.tick 0, .deliver 0, .deliver 1, .submit 0 1, .tick 0, .deliver 4, .deliver 4,
    .change_config 0 3, .tick 0, .deliver 4, .deliver 4, .change_config 0 7]

theorem progress_member_returns :
    ∃ c₀ s, cluster_init 3 (fun _ => 1) (fun _ => 1) = some c₀ ∧
      run (fun s ev => if progress_fresh s ev then Traced.step s ev else none) ⟨c₀, []⟩
        member_returns = some s ∧
      (s.cluster.nodes 0).role = .RAFT_LEADER ∧ (s.cluster.nodes 0).member_mask = 7 ∧
      (s.cluster.nodes 0).match_index 2 = 1 ∧
      ∀ i < s.cluster.size, (s.cluster.nodes i).role = .RAFT_LEADER →
        Progress s.sent (s.cluster.nodes i) := by
  have hfacts : (cluster_init 3 (fun _ => 1) (fun _ => 1)).any fun c₀ =>
      (run (fun s ev => if progress_fresh s ev then Traced.step s ev else none) ⟨c₀, []⟩
        member_returns).any fun s => (s.cluster.nodes 0).role = .RAFT_LEADER ∧
          (s.cluster.nodes 0).member_mask = 7 ∧ (s.cluster.nodes 0).match_index 2 = 1 := by
    decide +kernel
  simp only [Option.any_eq_true, decide_eq_true_eq] at hfacts
  obtain ⟨c₀, hinit, s, hrun, hrole, hmask, hmatch⟩ := hfacts
  exact ⟨c₀, s, hinit, hrun, hrole, hmask, hmatch,
    progress_in_run hinit (Steps.of_guarded hrun)⟩

/-- Leader `0` of term 3 has a tail that nobody else holds.  Node `1` wins term 4,
    removes node `2` and replaces that tail; node `0` wins term 5 and takes node
    `2` back, with the `next_index` of term 3. -/
def stale_member : List Event :=
  [.tick 0, .deliver 0, .deliver 1, .submit 0 1, .submit 0 2, .submit 0 3, .submit 0 4,
    .tick 1, .deliver 3, .tick 0, .deliver 5, .deliver 6,
    .tick 1, .deliver 9, .deliver 9, .change_config 1 3, .tick 1, .deliver 11,
    .tick 0, .deliver 12, .deliver 12, .change_config 0 7]

theorem progress_stale_member :
    ¬∀ (n : Nat) (election_timeout heartbeat_timeout : Nat → Nat) (c₀ : Cluster) (s : Traced)
      (evs : List Event), cluster_init n election_timeout heartbeat_timeout = some c₀ →
      run Traced.step ⟨c₀, []⟩ evs = some s →
      ∀ i < s.cluster.size, (s.cluster.nodes i).role = .RAFT_LEADER →
        Progress s.sent (s.cluster.nodes i) := by
  intro hall
  have hfacts : (cluster_init 3 (fun _ => 1) (fun _ => 1)).any fun c₀ =>
      (run Traced.step ⟨c₀, []⟩ stale_member).any fun s => s.cluster.size = 3 ∧
        (s.cluster.nodes 0).role = .RAFT_LEADER ∧ (s.cluster.nodes 0).id = 0 ∧
        raft_is_member (s.cluster.nodes 0) 2 = true ∧ (s.cluster.nodes 0).next_index 2 = 5 ∧
        raft_last_log_index (s.cluster.nodes 0) = 3 := by decide +kernel
  simp only [Option.any_eq_true, decide_eq_true_eq] at hfacts
  obtain ⟨c₀, hinit, s, hrun, hsize, hrole, hid, hmem, hnext, hlast⟩ := hfacts
  obtain ⟨-, hle, -⟩ := hall 3 _ _ c₀ s _ hinit hrun 0 (by omega) hrole 2 (by decide)
    (by rw [hid]; decide) hmem
  omega

end MiniDb
