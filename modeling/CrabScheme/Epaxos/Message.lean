import CrabScheme.Lib.Sorted
import CrabScheme.Raft.Store

/-!
# EPaxos messages

The messages of the leaderless protocol of `cs-consensus`: any replica leads the commands it
receives. A command occupies an instance, with the set of instances it depends on and a sequence
number.
-/

namespace CrabScheme.Epaxos

open Raft (ReplicaId Bytes)

/-- An instance of the command log: the `slot`-th command led by `replica`. -/
@[ext] structure Instance where
  replica : ReplicaId
  slot : ℕ
deriving DecidableEq

/-- The fields of an instance, in the order in which they are compared. -/
def Instance.key (i : Instance) : ℕ ×ₗ ℕ := toLex (i.replica, i.slot)

lemma Instance.key_injective : Function.Injective Instance.key := by
  intro i j h
  have hpair : (i.replica, i.slot) = (j.replica, j.slot) := h
  exact Instance.ext (congrArg Prod.fst hpair) (congrArg Prod.snd hpair)

instance : LinearOrder Instance := LinearOrder.lift' Instance.key Instance.key_injective

/-- A set of instances. -/
abbrev Deps := SortedSet Instance

/-- **Messages** between replicas. -/
inductive Message
  | preAccept (inst : Instance) (ballot : ℕ) (command : Bytes) (seq : ℕ) (deps : Deps)
  | preAcceptReply (inst : Instance) (ballot : ℕ) (seq : ℕ) (deps : Deps)
  | accept (inst : Instance) (ballot : ℕ) (command : Bytes) (seq : ℕ) (deps : Deps)
  | acceptReply (inst : Instance) (ballot : ℕ)
  | commit (inst : Instance) (command : Bytes) (seq : ℕ) (deps : Deps)
deriving DecidableEq

end CrabScheme.Epaxos
