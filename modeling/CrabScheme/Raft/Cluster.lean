import CrabScheme.Lib.Actions
import CrabScheme.Raft.Node

/-!
# A cluster of replicas

The replicas and everything they ever sent. A message stays in the record when it is delivered, so
that it can be delivered late, again, out of order or not at all. Clients, timers, crashes and the
network are the actions that drive the cluster; a crash falls between two handlers and the replica
resumes from its store.
-/

namespace CrabScheme.Raft

/-- **What a cluster is started with.** -/
structure Setup (σ : Type) where
  machine : StateMachine σ
  sm : σ
  voters : List ReplicaId
  cfg : ReplicaId → Config

/-- A message on the network. -/
structure Packet where
  sender : ReplicaId
  receiver : ReplicaId
  msg : Message
deriving DecidableEq

/-- **A cluster**: the replicas, and all messages sent so far. -/
structure Cluster (σ : Type) where
  nodes : ReplicaId → Node σ
  sent : List Packet

/-- What can happen: a replica is driven, a message is delivered, a replica crashes and resumes. -/
inductive Action
  | tick (i : ReplicaId)
  | propose (i : ReplicaId) (command : Bytes)
  | proposeConf (i : ReplicaId) (newVoters : List ReplicaId)
  | read (i : ReplicaId) (reqId : ℕ) (query : Bytes)
  | takeReadyReads (i : ReplicaId)
  | takeApplied (i : ReplicaId)
  | compact (i : ReplicaId)
  /-- The message with the given number is delivered. -/
  | deliver (k : ℕ)
  | restart (i : ReplicaId)
deriving DecidableEq

variable {σ : Type}

/-- Replica `i` moves on and sends messages. -/
def Cluster.act (c : Cluster σ) (i : ReplicaId) (r : Node σ × List Out) : Cluster σ where
  nodes := Function.update c.nodes i r.1
  sent := c.sent ++ r.2.map fun o => ⟨i, o.1, o.2⟩

namespace Setup

variable (S : Setup σ)

/-- The membership every replica starts with. -/
def bootstrap : ConfState := .simple (ConfState.sorted S.voters)

/-- The cluster at the start. -/
def init : Cluster σ := ⟨fun i => Node.new i S.voters (S.cfg i) S.sm, []⟩

/-- What replica `i` does in an action that drives it. -/
def drive (c : Cluster σ) : Action → Option (ReplicaId × Node σ × List Out)
  | .tick i => some (i, (c.nodes i).onTick S.machine)
  | .propose i command => some (i, ((c.nodes i).propose S.machine command).2)
  | .proposeConf i newVoters => some (i, ((c.nodes i).proposeConf newVoters).2)
  | .read i reqId query => some (i, (c.nodes i).read S.machine reqId query)
  | .takeReadyReads i => some (i, (c.nodes i).takeReadyReads.2, [])
  | .takeApplied i => some (i, (c.nodes i).takeApplied.2, [])
  | .compact i => some (i, (c.nodes i).compact S.machine, [])
  | .deliver k => c.sent[k]?.map fun p =>
      (p.receiver, (c.nodes p.receiver).onMessage S.machine p.sender p.msg)
  | .restart i =>
    some (i, Node.restoreFrom S.machine i S.voters (S.cfg i) S.sm (c.nodes i).store, [])

/-- **One action.** -/
def step (a : Action) (c : Cluster σ) : Cluster σ :=
  match S.drive c a with
  | some (i, r) => c.act i r
  | none => c

/-- **The cluster after a list of actions.** -/
def run (as : List Action) : Cluster σ := Actions.run S.step as S.init

lemma run_take_succ {as : List Action} {k : ℕ} {a : Action} (h : as[k]? = some a) :
    S.run (as.take (k + 1)) = S.step a (S.run (as.take k)) := by
  obtain ⟨hk, rfl⟩ := List.getElem?_eq_some_iff.mp h
  rw [List.take_succ_eq_append_getElem hk]
  exact Actions.run_concat _ _ _

lemma run_take_of_none {as : List Action} {k : ℕ} (h : as[k]? = none) :
    S.run (as.take (k + 1)) = S.run (as.take k) := by
  have hk := List.getElem?_eq_none_iff.mp h
  rw [List.take_of_length_le hk, List.take_of_length_le (hk.trans (Nat.le_succ k))]

/-- A state machine that keeps every command it was given. -/
def journal : StateMachine Bytes where
  apply s cmd := (s ++ cmd, [])
  query s _ := s
  snapshot s := s
  restore _ data := data

/-- A cluster of `n` voters to evaluate runs on: an election timer runs out at the first tick, and
snapshots are taken on request. -/
def ofSize (n : ℕ) : Setup Bytes := ⟨journal, [], List.range n, fun _ => ⟨1, 1, 1, 0⟩⟩

end Setup

end CrabScheme.Raft
