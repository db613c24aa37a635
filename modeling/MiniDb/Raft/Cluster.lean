import MiniDb.Framework.Run
import MiniDb.Raft.Node

/-! # A cluster

  Nodes `0 … size - 1` and the messages that are on their way.  A message is
  taken out of the network when it is delivered, so it is delivered at most
  once; it may be delivered at any time or never, and in any order. -/

namespace MiniDb

open Framework

structure Cluster where
  size : Nat
  nodes : Nat → Raft
  net : List RaftMsg

inductive Event where
  | tick (i : Nat)
  | submit (i : Nat) (command : Int)
  | crash_restart (i : Nat)
  | snapshot (i index : Nat) (sm_state : Int)
  | change_config (i new_mask : Nat)
  | read_index (i : Nat)
  /-- Deliver the `k`-th message of the network. -/
  | deliver (k : Nat)
  deriving DecidableEq

/-- `raft_init` on every node; `none` when it refuses the size. -/
def cluster_init (n : Nat) (election_timeout heartbeat_timeout : Nat → Nat) : Option Cluster :=
  (raft_init 0 n (election_timeout 0) (heartbeat_timeout 0)).map fun _ =>
    { size := n
      nodes := fun i => raft_start i n (election_timeout i) (heartbeat_timeout i)
      net := [] }

/-- Node `i` has taken a call that sends `out`. -/
def Cluster.put (c : Cluster) (i : Nat) (res : Raft × List RaftMsg) : Cluster :=
  { c with nodes := Function.update c.nodes i res.1, net := c.net ++ res.2 }

def Cluster.step (c : Cluster) : Event → Option Cluster
  | .tick i => if i < c.size then some (c.put i (raft_tick (c.nodes i))) else none
  | .submit i command =>
      if i < c.size then some (c.put i ((raft_submit (c.nodes i) command).1, [])) else none
  | .crash_restart i =>
      if i < c.size then some (c.put i (raft_crash_restart (c.nodes i), [])) else none
  | .snapshot i index sm_state =>
      if i < c.size then
        (raft_snapshot (c.nodes i) index sm_state).map fun r => c.put i (r, [])
      else none
  | .change_config i new_mask =>
      if i < c.size then some (c.put i ((raft_change_config (c.nodes i) new_mask).1, [])) else none
  | .read_index i =>
      if i < c.size then
        let res := raft_read_index (c.nodes i)
        some (c.put i (res.1, res.2.1))
      else none
  | .deliver k =>
      match c.net[k]? with
      | none => none
      | some msg =>
          if msg.receiver < c.size then
            some ({ c with net := c.net.eraseIdx k }.put msg.receiver
              (raft_recv (c.nodes msg.receiver) msg))
          else none

end MiniDb
