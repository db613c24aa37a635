import Mathlib.Algebra.Group.Int.Defs
import Mathlib.Algebra.Group.Nat.Defs
import MiniDb.Framework.ReplicatedLog

/-! # A consensus node

  The node of `raft.c`: elections, log replication, membership entries,
  snapshots and read barriers, as functions on the node's state.  Each call
  returns the new state and the messages it wants to send.

  Logical index `i` lives at position `i - log_base` of the log array, whose
  first element is the marker of the snapshot; the array is
  `marker :: entries`.  Indexes and terms are natural numbers; `-1` for
  "none" is `none`. -/

namespace MiniDb

def RAFT_MAX_NODES : Nat := 7

/-- Most entries one `AppendEntries` carries. -/
def RAFT_MAX_BATCH : Nat := 16

inductive RaftRole where
  | RAFT_FOLLOWER
  | RAFT_CANDIDATE
  | RAFT_LEADER
  deriving DecidableEq, Repr

structure RaftEntry where
  term : Nat
  command : Int
  is_config : Bool
  is_noop : Bool
  deriving DecidableEq, Repr, Inhabited

/-- What a message carries, by its type. -/
inductive RaftBody where
  | request_vote (last_log_index last_log_term : Nat)
  | request_vote_reply (vote_granted : Bool)
  | append_entries (prev_log_index prev_log_term leader_commit : Nat)
      (entries : List RaftEntry) (read_epoch : Nat)
  | append_entries_reply (success : Bool) (match_index read_epoch : Nat)
  | install_snapshot (last_included_index last_included_term : Nat) (snapshot_value : Int)
      (member_mask : Nat)
  | install_snapshot_reply (match_index : Nat)
  deriving DecidableEq, Repr

structure RaftMsg where
  sender : Nat
  receiver : Nat
  term : Nat
  body : RaftBody
  deriving DecidableEq, Repr

/-- One call of a callback of the node's user. -/
inductive Applied where
  | apply (index : Nat) (command : Int)
  | snap_install (last_index : Nat) (sm_state : Int)
  deriving DecidableEq, Repr

structure Raft where
  id : Nat
  n_nodes : Nat
  member_mask : Nat
  base_member_mask : Nat
  pending_config_index : Option Nat
  current_term : Nat
  voted_for : Option Nat
  /-- `log[0]`. -/
  marker : RaftEntry
  /-- `log[1]`, `log[2]`, … -/
  entries : List RaftEntry
  log_base : Nat
  snapshot_value : Int
  role : RaftRole
  commit_index : Nat
  last_applied : Nat
  votes_granted : Nat
  next_index : Nat → Nat
  match_index : Nat → Nat
  read_gate_index : Nat
  election_elapsed : Nat
  election_timeout : Nat
  heartbeat_elapsed : Nat
  heartbeat_timeout : Nat
  read_barrier_index : Option Nat
  read_ack_mask : Nat
  read_confirmed_index : Option Nat
  read_epoch : Nat
  /-- What the callbacks have been passed, first call first. -/
  apply_ctx : List Applied

/-! ### The log -/

def Raft.log (r : Raft) : List RaftEntry := r.marker :: r.entries

def raft_last_log_index (r : Raft) : Nat := r.log_base + r.log.length - 1

def raft_last_log_term (r : Raft) : Nat := ((r.log)[r.log.length - 1]?.getD default).term

/-- Behind the last entry this is the default's term; the source reads what an
    earlier, longer log left there. -/
def term_at (r : Raft) (i : Nat) : Nat := ((r.log)[i - r.log_base]?.getD default).term

def ent (r : Raft) (i : Nat) : RaftEntry := (r.log)[i - r.log_base]?.getD default

/-! ### Membership -/

def raft_is_member (r : Raft) (id : Nat) : Bool := r.member_mask.testBit id

/-- The set bits of a mask. -/
def mask_count (m : Nat) : Nat := (List.range 32).countP m.testBit

def member_count (r : Raft) : Nat := mask_count r.member_mask

def majority (r : Raft) : Nat := member_count r / 2 + 1

/-- A command taken as a member mask. -/
def mask_of (command : Int) : Nat := (command % 2 ^ 32).toNat

def maybe_adopt_config (r : Raft) (e : RaftEntry) : Raft :=
  if e.is_config then { r with member_mask := mask_of e.command } else r

def log_append (r : Raft) (e : RaftEntry) : Raft :=
  maybe_adopt_config { r with entries := r.entries ++ [e] } e

/-- Apply the configuration entries of a list to a mask. -/
def fold_config (m : Nat) (es : List RaftEntry) : Nat :=
  es.foldl (fun m e => if e.is_config then mask_of e.command else m) m

def recompute_member_mask (r : Raft) : Raft :=
  { r with member_mask := fold_config r.base_member_mask r.entries }

def candidate_log_up_to_date (r : Raft) (cand_idx cand_term : Nat) : Bool :=
  if cand_term ≠ raft_last_log_term r then decide (raft_last_log_term r < cand_term)
  else decide (raft_last_log_index r ≤ cand_idx)

/-! ### Roles -/

def become_follower (r : Raft) (term : Nat) : Raft :=
  { r with
    role := .RAFT_FOLLOWER
    current_term := term
    voted_for := none
    election_elapsed := 0
    read_barrier_index := none
    read_confirmed_index := none }

def step_down_if_higher (r : Raft) (term : Nat) : Raft :=
  if r.current_term < term then become_follower r term else r

/-- The outbox has room for two messages per node. -/
def push_msg (out : List RaftMsg) (m : RaftMsg) : List RaftMsg :=
  if out.length < RAFT_MAX_NODES * 2 then out ++ [m] else out

def send_install_snapshot (r : Raft) (peer : Nat) (out : List RaftMsg) : List RaftMsg :=
  push_msg out ⟨r.id, peer, r.current_term,
    .install_snapshot r.log_base r.marker.term r.snapshot_value r.base_member_mask⟩

def send_append_entries (r : Raft) (peer : Nat) (out : List RaftMsg) : List RaftMsg :=
  -- `prev < log_base` for `prev = next_index - 1`
  if r.next_index peer < r.log_base + 1 then send_install_snapshot r peer out
  else
    let prev := r.next_index peer - 1
    push_msg out ⟨r.id, peer, r.current_term,
      .append_entries prev (term_at r prev) r.commit_index
        ((r.log.drop (r.next_index peer - r.log_base)).take RAFT_MAX_BATCH) r.read_epoch⟩

/-- Do something for every other member, in order of the ids. -/
def for_peers (r : Raft) (send : Nat → List RaftMsg → List RaftMsg) (out : List RaftMsg) :
    List RaftMsg :=
  (List.range RAFT_MAX_NODES).foldl
    (fun out i => if i ≠ r.id ∧ raft_is_member r i = true then send i out else out) out

/-- The loop of `apply_committed`, once for each index to apply. -/
def apply_loop : Nat → Raft → Raft
  | 0, r => r
  | n + 1, r =>
      let r := { r with last_applied := r.last_applied + 1 }
      apply_loop n
        (if (ent r r.last_applied).is_noop then r
        else { r with apply_ctx := r.apply_ctx ++
          [.apply r.last_applied (ent r r.last_applied).command] })

def apply_committed (r : Raft) : Raft := apply_loop (r.commit_index - r.last_applied) r

/-- Members whose `match_index` has reached `n`. -/
def acked_by (r : Raft) (n : Nat) : Nat :=
  (List.range RAFT_MAX_NODES).countP fun i => raft_is_member r i && decide (n ≤ r.match_index i)

/-- A leader commits up to `n`. -/
def commit_to (r : Raft) (n : Nat) : Raft :=
  let r := { r with
    commit_index := n
    pending_config_index := r.pending_config_index.filter (n < ·) }
  let r := apply_committed r
  if raft_is_member r r.id then r else become_follower r r.current_term

/-- The loop of `leader_advance_commit`, from `n` down. -/
def advance_loop (r : Raft) : Nat → Raft
  | 0 => r
  | n + 1 =>
      if n + 1 ≤ r.commit_index then r
      else if term_at r (n + 1) ≠ r.current_term then advance_loop r n
      else if majority r ≤ acked_by r (n + 1) then commit_to r (n + 1)
      else advance_loop r n

def leader_advance_commit (r : Raft) : Raft := advance_loop r (raft_last_log_index r)

/-- The state of `become_leader` before it commits and sends. -/
def take_office (r : Raft) : Raft :=
  let last := raft_last_log_index r
  let r := { r with
    role := .RAFT_LEADER
    read_barrier_index := none
    read_confirmed_index := none
    next_index := fun i => if i < RAFT_MAX_NODES ∧ raft_is_member r i = true then last + 1
      else r.next_index i
    match_index := fun i => if i < RAFT_MAX_NODES ∧ raft_is_member r i = true then 0
      else r.match_index i }
  let r := if r.commit_index < last then
      log_append r { term := r.current_term, command := 0, is_config := false, is_noop := true }
    else r
  { r with
    read_gate_index := raft_last_log_index r
    match_index := Function.update r.match_index r.id (raft_last_log_index r) }

def become_leader (r : Raft) (out : List RaftMsg) : Raft × List RaftMsg :=
  let r := { leader_advance_commit (take_office r) with heartbeat_elapsed := 0 }
  (r, for_peers r (send_append_entries r) out)

/-- Ask a peer for its vote. -/
def send_request_vote (r : Raft) (peer : Nat) (out : List RaftMsg) : List RaftMsg :=
  push_msg out ⟨r.id, peer, r.current_term,
    .request_vote (raft_last_log_index r) (raft_last_log_term r)⟩

def become_candidate (r : Raft) (out : List RaftMsg) : Raft × List RaftMsg :=
  let r := { r with
    current_term := r.current_term + 1
    role := .RAFT_CANDIDATE
    voted_for := some r.id
    votes_granted := 1
    election_elapsed := 0 }
  if majority r ≤ r.votes_granted then become_leader r out
  else (r, for_peers r (send_request_vote r) out)

/-! ### Calls of the user -/

/-- A node as `raft_init` leaves it. -/
def raft_start (id n_nodes election_timeout heartbeat_timeout : Nat) : Raft where
  id := id
  n_nodes := n_nodes
  member_mask := 2 ^ n_nodes - 1
  base_member_mask := 2 ^ n_nodes - 1
  pending_config_index := none
  current_term := 0
  voted_for := none
  marker := { term := 0, command := 0, is_config := false, is_noop := false }
  entries := []
  log_base := 0
  snapshot_value := 0
  role := .RAFT_FOLLOWER
  commit_index := 0
  last_applied := 0
  votes_granted := 0
  next_index := fun _ => 0
  match_index := fun _ => 0
  read_gate_index := 0
  election_elapsed := 0
  election_timeout := election_timeout
  heartbeat_elapsed := 0
  heartbeat_timeout := heartbeat_timeout
  read_barrier_index := none
  read_ack_mask := 0
  read_confirmed_index := none
  read_epoch := 0
  apply_ctx := []

def raft_init (id n_nodes election_timeout heartbeat_timeout : Nat) : Option Raft :=
  if n_nodes < 1 ∨ RAFT_MAX_NODES < n_nodes then none
  else some (raft_start id n_nodes election_timeout heartbeat_timeout)

def raft_tick (r : Raft) : Raft × List RaftMsg :=
  if r.role = .RAFT_LEADER then
    let r := { r with heartbeat_elapsed := r.heartbeat_elapsed + 1 }
    if r.heartbeat_timeout ≤ r.heartbeat_elapsed then
      let r := { r with heartbeat_elapsed := 0 }
      (r, for_peers r (send_append_entries r) [])
    else (r, [])
  else if raft_is_member r r.id then
    let r := { r with election_elapsed := r.election_elapsed + 1 }
    if r.election_timeout ≤ r.election_elapsed then become_candidate r [] else (r, [])
  else (r, [])

def raft_submit (r : Raft) (command : Int) : Raft × Option Nat :=
  if r.role ≠ .RAFT_LEADER then (r, none)
  else
    let r := log_append r { term := r.current_term, command := command, is_config := false, is_noop := false }
    ({ r with match_index := Function.update r.match_index r.id (raft_last_log_index r) },
      some (raft_last_log_index r))

def raft_change_config (r : Raft) (new_mask : Nat) : Raft × Option Nat :=
  if r.role ≠ .RAFT_LEADER then (r, none)
  else if mask_count (r.member_mask ^^^ new_mask) ≠ 1 then (r, none)
  else if (r.pending_config_index.any (r.commit_index < ·)) then (r, none)
  else
    let r := log_append r
      { term := r.current_term, command := new_mask, is_config := true, is_noop := false }
    let last := raft_last_log_index r
    let fresh := fun i : Nat => decide (i < RAFT_MAX_NODES) && new_mask.testBit i &&
      decide (i ≠ r.id) && decide (r.next_index i = 0)
    let r := { r with
      match_index := Function.update r.match_index r.id last
      pending_config_index := some last }
    ({ r with
        next_index := fun i => if fresh i then 1 else r.next_index i
        match_index := fun i => if fresh i then 0 else r.match_index i },
      some last)

def raft_read_index (r : Raft) : Raft × List RaftMsg × Option Nat :=
  if r.role ≠ .RAFT_LEADER then (r, [], none)
  else if r.commit_index < r.read_gate_index then (r, [], none)
  else
    let r := { r with
      read_barrier_index := some r.commit_index
      read_confirmed_index := none
      read_ack_mask := 2 ^ r.id
      read_epoch := r.read_epoch + 1 }
    let r := if member_count r = 1 then
        { r with read_confirmed_index := r.read_barrier_index, read_barrier_index := none }
      else r
    (r, for_peers r (send_append_entries r) [], some r.commit_index)

def raft_read_confirmed (r : Raft) : Option Nat := r.read_confirmed_index

/-! ### Received messages -/

def handle_request_vote (r : Raft) (msg : RaftMsg) (last_log_index last_log_term : Nat) :
    Raft × RaftMsg :=
  let r := step_down_if_higher r msg.term
  let reply (granted : Bool) : RaftMsg :=
    ⟨r.id, msg.sender, r.current_term, .request_vote_reply granted⟩
  if msg.term < r.current_term then (r, reply false)
  else if (r.voted_for = none ∨ r.voted_for = some msg.sender) ∧
      candidate_log_up_to_date r last_log_index last_log_term = true then
    ({ r with voted_for := some msg.sender, election_elapsed := 0 }, reply true)
  else (r, reply false)

def handle_request_vote_reply (r : Raft) (msg : RaftMsg) (vote_granted : Bool) :
    Raft × List RaftMsg :=
  if r.current_term < msg.term then (become_follower r msg.term, [])
  else if r.role ≠ .RAFT_CANDIDATE ∨ msg.term ≠ r.current_term then (r, [])
  else if vote_granted then
    let r := { r with votes_granted := r.votes_granted + 1 }
    if majority r ≤ r.votes_granted then become_leader r [] else (r, [])
  else (r, [])

/-- The loop that appends the entries from index `idx` on; `true` when it has
    cut off a tail. -/
def append_loop (r : Raft) (truncated : Bool) (idx : Nat) : List RaftEntry → Raft × Bool
  | [] => (r, truncated)
  | e :: es =>
      if idx ≤ r.log_base then append_loop r truncated (idx + 1) es
      else if idx ≤ raft_last_log_index r then
        if term_at r idx ≠ e.term then
          append_loop (log_append { r with entries := r.entries.take (idx - r.log_base - 1) } e)
            true (idx + 1) es
        else append_loop r truncated (idx + 1) es
      else append_loop (log_append r e) truncated (idx + 1) es

/-- The log of `r` has what the message builds on. -/
def prev_matches (r : Raft) (prev_log_index prev_log_term : Nat) : Bool :=
  decide (prev_log_index ≤ raft_last_log_index r) &&
    (decide (prev_log_index < r.log_base) || decide (term_at r prev_log_index = prev_log_term))

/-- The log after the entries of a message have been taken over. -/
def append_all (r : Raft) (prev_log_index : Nat) (entries : List RaftEntry) : Raft :=
  let res := append_loop r false (prev_log_index + 1) entries
  if res.2 then recompute_member_mask res.1 else res.1

/-- Follow the leader's commit index, as far as the own log reaches. -/
def follow_commit (r : Raft) (leader_commit : Nat) : Raft :=
  if r.commit_index < leader_commit then
    apply_committed { r with
      commit_index :=
        if leader_commit < raft_last_log_index r then leader_commit else raft_last_log_index r }
  else r

def handle_append_entries (r : Raft) (msg : RaftMsg)
    (prev_log_index prev_log_term leader_commit : Nat) (entries : List RaftEntry)
    (read_epoch : Nat) : Raft × RaftMsg :=
  let r := step_down_if_higher r msg.term
  let reply (success : Bool) (match_index : Nat) : RaftMsg :=
    ⟨r.id, msg.sender, r.current_term, .append_entries_reply success match_index read_epoch⟩
  if msg.term < r.current_term then (r, reply false 0)
  else
    let r := { r with role := .RAFT_FOLLOWER, election_elapsed := 0 }
    if prev_matches r prev_log_index prev_log_term then
      (follow_commit (append_all r prev_log_index entries) leader_commit,
        reply true (prev_log_index + entries.length))
    else (r, reply false 0)

/-- A follower holds the leader's entries up to `match_index`. -/
def note_match (r : Raft) (peer match_index : Nat) : Raft :=
  let m := if r.match_index peer < match_index then match_index else r.match_index peer
  { r with
    match_index := Function.update r.match_index peer m
    next_index := Function.update r.next_index peer (m + 1) }

/-- Count an answer to the current read barrier. -/
def note_read_ack (r : Raft) (peer read_epoch : Nat) : Raft :=
  if r.read_barrier_index ≠ none ∧ read_epoch = r.read_epoch then
    let r := { r with read_ack_mask := r.read_ack_mask ||| 2 ^ peer }
    let acks := (List.range RAFT_MAX_NODES).countP fun i =>
      raft_is_member r i && r.read_ack_mask.testBit i
    if majority r ≤ acks then
      { r with read_confirmed_index := r.read_barrier_index, read_barrier_index := none }
    else r
  else r

def handle_append_entries_reply (r : Raft) (msg : RaftMsg) (success : Bool)
    (match_index read_epoch : Nat) : Raft :=
  if r.current_term < msg.term then become_follower r msg.term
  else if r.role ≠ .RAFT_LEADER ∨ msg.term ≠ r.current_term then r
  else if success then
    note_read_ack (leader_advance_commit (note_match r msg.sender match_index)) msg.sender read_epoch
  else if 1 < r.next_index msg.sender then
    { r with next_index := Function.update r.next_index msg.sender (r.next_index msg.sender - 1) }
  else r

def handle_install_snapshot (r : Raft) (msg : RaftMsg)
    (last_included_index last_included_term : Nat) (snapshot_value : Int) (member_mask : Nat) :
    Raft × RaftMsg :=
  let r := step_down_if_higher r msg.term
  let reply (match_index : Nat) : RaftMsg :=
    ⟨r.id, msg.sender, r.current_term, .install_snapshot_reply match_index⟩
  if msg.term < r.current_term then (r, reply 0)
  else
    let r := { r with role := .RAFT_FOLLOWER, election_elapsed := 0 }
    if last_included_index ≤ r.commit_index then (r, reply last_included_index)
    else
      ({ r with
          marker :=
            { term := last_included_term, command := 0, is_config := false, is_noop := false }
          entries := []
          log_base := last_included_index
          commit_index := last_included_index
          last_applied := last_included_index
          snapshot_value := snapshot_value
          base_member_mask := member_mask
          member_mask := member_mask
          apply_ctx := r.apply_ctx ++ [.snap_install last_included_index snapshot_value] },
        reply last_included_index)

def handle_install_snapshot_reply (r : Raft) (msg : RaftMsg) (match_index : Nat) : Raft :=
  if r.current_term < msg.term then become_follower r msg.term
  else if r.role ≠ .RAFT_LEADER ∨ msg.term ≠ r.current_term then r
  else leader_advance_commit (note_match r msg.sender match_index)

/-- A received message: the new state, the reply and the other messages sent. -/
def raft_recv (r : Raft) (msg : RaftMsg) : Raft × List RaftMsg :=
  match msg.body with
  | .request_vote idx term =>
      let res := handle_request_vote r msg idx term
      (res.1, [res.2])
  | .request_vote_reply granted => handle_request_vote_reply r msg granted
  | .append_entries prev prev_term commit entries epoch =>
      let res := handle_append_entries r msg prev prev_term commit entries epoch
      (res.1, [res.2])
  | .append_entries_reply success m epoch => (handle_append_entries_reply r msg success m epoch, [])
  | .install_snapshot idx term value mask =>
      let res := handle_install_snapshot r msg idx term value mask
      (res.1, [res.2])
  | .install_snapshot_reply m => (handle_install_snapshot_reply r msg m, [])

/-! ### Compaction and restart -/

/-- `none` when the index cannot be compacted. -/
def raft_snapshot (r : Raft) (index : Nat) (sm_state : Int) : Option Raft :=
  if index ≤ r.log_base ∨ r.commit_index < index ∨ raft_last_log_index r < index then none
  else some { r with
    base_member_mask := fold_config r.base_member_mask (r.entries.take (index - r.log_base))
    marker := { term := term_at r index, command := 0, is_config := false, is_noop := false }
    entries := r.entries.drop (index - r.log_base)
    log_base := index
    snapshot_value := sm_state }

def raft_crash_restart (r : Raft) : Raft :=
  { r with
    role := .RAFT_FOLLOWER
    commit_index := r.log_base
    last_applied := r.log_base
    votes_granted := 0
    election_elapsed := 0
    heartbeat_elapsed := 0
    pending_config_index := none
    read_barrier_index := none
    read_confirmed_index := none
    next_index := fun _ => 0
    match_index := fun _ => 0 }

end MiniDb
