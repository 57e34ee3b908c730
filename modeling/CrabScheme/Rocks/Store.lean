import CrabScheme.Codec.RoundTrip
import CrabScheme.Lib.Actions

/-!
# The durable log store

`store/rocks.rs`: the log, the hard state and the snapshot of a replica in an ordered key-value map
on disk, with a small cache of the bounds. The map is the one of the disk: its keys are log indices
in the log family (eight big-endian bytes order them as numbers) and one key each for the hard state
and the snapshot. A put, and a batch of puts or deletions, is one atomic write. A call makes a list
of writes one after the other; a crash leaves the first few of them.
-/

namespace CrabScheme.Rocks

open Raft (Bytes Entry HardState SnapshotMeta MemLogStore)
open Codec (putU8 putU64 fromBeBytes encodeEntry decodeEntry machine)

/-! ## The disk -/

/-- **The disk**: the three column families. -/
structure Disk where
  log : SortedMap ℕ Bytes
  hard : Option Bytes
  snap : Option Bytes

/-- An empty disk. -/
def Disk.empty : Disk := ⟨.empty, none, none⟩

/-- **An atomic write.** -/
inductive Write
  | putLog (entries : List Entry)
  | deleteLog (lo hi : ℕ)
  | putHard (value : Bytes)
  | putSnap (value : Bytes)

/-- What a write does. -/
def Disk.write (d : Disk) : Write → Disk
  | .putLog entries =>
    { d with log := entries.foldl (fun m e => m.insert e.index (encodeEntry e)) d.log }
  | .deleteLog lo hi =>
    { d with log := d.log.filterKeys fun k => !(decide (lo ≤ k) && decide (k ≤ hi)) }
  | .putHard value => { d with hard := some value }
  | .putSnap value => { d with snap := some value }

/-- Writes one after the other. -/
def Disk.writeAll (d : Disk) (ws : List Write) : Disk := ws.foldl Disk.write d

/-! ## Records -/

/-- The entry a value of the log family holds, for a size of entries in memory. -/
def readEntry (k : ℕ) (value : Bytes) : Option Entry :=
  match decodeEntry (machine k) value with
  | .ok e _ => some e
  | _ => none

/-- The record of a hard state. -/
def encodeHard (hs : HardState) : Bytes :=
  let vote :=
    match hs.votedFor with
    | some v => putU8 1 ++ putU64 v
    | none => putU8 0 ++ putU64 0
  putU64 hs.term ++ vote ++ putU64 hs.commitIndex

/-- Eight bytes of a record from an offset on, as a number. -/
def wordAt (raw : Bytes) (offset : ℕ) : ℕ := fromBeBytes ((raw.drop offset).take 8)

/-- `load_hard_state`. -/
def Disk.loadHardState (d : Disk) : HardState :=
  match d.hard with
  | some raw =>
    if raw.length = 25 then
      ⟨wordAt raw 0, if raw[8]? = some 1 then some (wordAt raw 9) else none, wordAt raw 17⟩
    else ⟨0, none, 0⟩
  | none => ⟨0, none, 0⟩

/-- The record of a snapshot. -/
def encodeSnapshot (m : SnapshotMeta) : Bytes :=
  putU64 m.lastIncludedIndex ++ putU64 m.lastIncludedTerm ++ putU64 m.data.length ++ m.data

/-- `load_snapshot`. -/
def Disk.loadSnapshot (d : Disk) : Option SnapshotMeta :=
  match d.snap with
  | some raw =>
    if raw.length < 24 then none
    else
      let len := wordAt raw 16
      let data := if 24 + len ≤ raw.length then (raw.drop 24).take len else []
      some ⟨wordAt raw 0, wordAt raw 8, data⟩
  | none => none

/-! ## The store -/

/-- **The store**: the disk and the cached bounds. -/
structure RocksLogStore where
  db : Disk
  baseIndex : ℕ
  baseTerm : ℕ
  hasSnapshot : Bool
  lastIndex : ℕ
  lastTerm : ℕ

/-- **The calls** of the log store. -/
inductive Call
  | append (entries : List Entry)
  | truncateSuffix (idx : ℕ)
  | saveHardState (hs : HardState)
  | saveSnapshot (m : SnapshotMeta)

/-- The call on the in-memory store. -/
def Call.onMem (mem : MemLogStore) : Call → MemLogStore
  | append entries => mem.append entries
  | truncateSuffix idx => mem.truncateSuffix idx
  | saveHardState hs => mem.saveHardState hs
  | saveSnapshot m => mem.saveSnapshot m

namespace RocksLogStore

variable (k : ℕ) (s : RocksLogStore)

/-- `refresh_tail`: the bounds of the log from the highest key. -/
def refreshTail : RocksLogStore :=
  match s.db.log.entries.getLast?.bind fun b => readEntry k b.2 with
  | some e => { s with lastIndex := e.index, lastTerm := e.term }
  | none => { s with lastIndex := s.baseIndex, lastTerm := s.baseTerm }

/-- **`open`**, with `recover_bounds`. -/
def openStore (db : Disk) : RocksLogStore :=
  match db.loadSnapshot with
  | some m =>
    refreshTail k ⟨db, m.lastIncludedIndex, m.lastIncludedTerm, true, m.lastIncludedIndex,
      m.lastIncludedTerm⟩
  | none => refreshTail k ⟨db, 0, 0, false, 0, 0⟩

/-- The first index that `truncate_suffix` drops. -/
def cut (idx : ℕ) : ℕ := max idx (s.baseIndex + 1)

/-- **The writes of a call.** -/
def writes : Call → List Write
  | .append entries => if entries.isEmpty then [] else [.putLog entries]
  | .truncateSuffix idx =>
    if s.lastIndex < s.cut idx then [] else [.deleteLog (s.cut idx) s.lastIndex]
  | .saveHardState hs => [.putHard (encodeHard hs)]
  | .saveSnapshot m =>
    [.putSnap (encodeSnapshot m), .deleteLog (s.baseIndex + 1) m.lastIncludedIndex]

/-- **The store after a call**: all writes are made, and the cache follows. -/
def perform (c : Call) : RocksLogStore :=
  let s' := { s with db := s.db.writeAll (s.writes c) }
  match c with
  | .append entries =>
    match entries.getLast? with
    | some e => { s' with lastIndex := e.index, lastTerm := e.term }
    | none => s'
  | .truncateSuffix idx => if s.lastIndex < s.cut idx then s' else s'.refreshTail k
  | .saveHardState _ => s'
  | .saveSnapshot m =>
    refreshTail k { s' with
      baseIndex := m.lastIncludedIndex
      baseTerm := m.lastIncludedTerm
      hasSnapshot := true }

/-- `entries`; the range is empty where `hi < lo`. -/
def entries (lo hi : ℕ) : List Entry :=
  (s.db.log.entries.filter fun b =>
    decide (max lo (s.baseIndex + 1) ≤ b.1) && decide (b.1 ≤ hi)).filterMap fun b => readEntry k b.2

/-- `entry`. -/
def entry (idx : ℕ) : Option Entry :=
  if idx ≤ s.baseIndex ∨ s.lastIndex < idx then none
  else (s.db.log.get? idx).bind (readEntry k)

/-- `entry_term`. -/
def entryTerm (idx : ℕ) : Option ℕ := (s.entry k idx).map Entry.term

/-- The keys of the log family. -/
def keys : List ℕ := s.db.log.keys

end RocksLogStore

/-! ## Runs -/

/-- **What happens to a store**: a call completes; the process dies after some of the writes of a
call, and the store is opened again; or it dies between calls. -/
inductive Event
  | call (c : Call)
  | crash (c : Call) (made : ℕ)
  | restart

variable (k : ℕ)

/-- One event. -/
def step (e : Event) (s : RocksLogStore) : RocksLogStore :=
  match e with
  | .call c => s.perform k c
  | .crash c made => .openStore k (s.db.writeAll ((s.writes c).take made))
  | .restart => .openStore k s.db

/-- **A run** from an empty disk. -/
def run (es : List Event) : RocksLogStore :=
  Actions.run (step k) es (.openStore k .empty)

/-- **The calls that count** after a run: every completed one, and of the calls that a crash cut
short some, in order. -/
inductive Kept : List Event → List Call → Prop
  | nil : Kept [] []
  | completed {es cs} (c : Call) : Kept es cs → Kept (es ++ [Event.call c]) (cs ++ [c])
  | lost {es cs} (c : Call) (made : ℕ) : Kept es cs → Kept (es ++ [Event.crash c made]) cs
  | made {es cs} (c : Call) (made : ℕ) : Kept es cs → Kept (es ++ [Event.crash c made]) (cs ++ [c])
  | restart {es cs} : Kept es cs → Kept (es ++ [Event.restart]) cs

/-- The in-memory store after a list of calls. -/
def memAfter (cs : List Call) : MemLogStore := cs.foldl Call.onMem .new

/-- **The store shows what the in-memory store shows.** -/
structure Shows (s : RocksLogStore) (mem : MemLogStore) : Prop where
  bounds : s.baseIndex ≤ s.lastIndex
  baseIndex : s.baseIndex = mem.baseIndex
  baseTerm : s.baseTerm = mem.baseTerm
  lastIndex : s.lastIndex = mem.lastIndex
  lastTerm : s.lastTerm = mem.lastTerm
  entries : ∀ lo hi, s.entries k lo hi = mem.entries lo hi
  entry : ∀ idx, s.entry k idx = mem.entry idx
  hardState : s.db.loadHardState = mem.hardState
  snapshot : s.db.loadSnapshot = mem.loadSnapshot

end CrabScheme.Rocks
