import CrabScheme.Vm.Overlay
import CrabScheme.Vm.Values
import CrabScheme.Raft.Fidelity
import CrabScheme.Vm.Emitted
import CrabScheme.Raft.Commitment
import CrabScheme.Raft.Linearizable
import CrabScheme.Expand.Invertible
import CrabScheme.Codec.Hostile
import CrabScheme.Rocks.Refinement
import CrabScheme.Raft.Joint
import CrabScheme.Raft.Recovery
import CrabScheme.Raft.Acknowledgement
import CrabScheme.Raft.Observer
import CrabScheme.Text.Atoms
import CrabScheme.Gc.Sweep
import CrabScheme.Consensus.Pmap
import CrabScheme.Distrib.Router
import CrabScheme.Table.Mailbox
import CrabScheme.Consensus.EpaxosSafety
import CrabScheme.Channels.Select
import CrabScheme.Actor.Exact
import CrabScheme.Data.Circular
import CrabScheme.Data.Raising
import CrabScheme.Core.Division
import CrabScheme.Core.Nanbox
import CrabScheme.Core.ProcTable
import CrabScheme.Data.Sorting
import CrabScheme.Contract.Arrow
