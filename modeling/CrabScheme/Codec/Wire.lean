import CrabScheme.Lib.Reader
import CrabScheme.Epaxos.Message

/-!
# The wire codec of the consensus messages

`codec.rs`: Raft messages, log entries and EPaxos messages as bytes, numbers in eight big-endian
bytes, vectors and sets after their length. The decoders walk a cursor over the frame. What they ask
of the machine is explicit: the ends of slices are `usize` values, and a vector that is allocated
ahead may not exceed `isize::MAX` bytes. The machine is a 64-bit one; the size of an `Entry` in
memory is a parameter.
-/

namespace CrabScheme.Codec

open Raft (ReplicaId Bytes ConfState EntryPayload Entry)

/-! ## Writing -/

/-- The low `width` bytes of a number, most significant first. -/
def toBeBytes : ℕ → ℕ → Bytes
  | 0, _ => []
  | width + 1, n => toBeBytes width (n / 256) ++ [UInt8.ofNat n]

/-- The number that bytes spell, most significant first. -/
def fromBeBytes (b : Bytes) : ℕ := b.foldl (fun n x => n * 256 + x.toNat) 0

/-- `put_u8`. -/
def putU8 (v : UInt8) : Bytes := [v]

/-- `put_u64`. -/
def putU64 (v : ℕ) : Bytes := toBeBytes 8 v

/-- A `bool as u8`. -/
def putBool (b : Bool) : Bytes := putU8 (if b then 1 else 0)

/-- `put_bytes`. -/
def putBytes (b : Bytes) : Bytes := putU64 b.length ++ b

/-- A length, then the items one after the other. -/
def putAll {ι : Type} (put : ι → Bytes) (items : List ι) : Bytes :=
  putU64 items.length ++ (items.map put).flatten

/-- `put_ids`. -/
def putIds (ids : List ReplicaId) : Bytes := putAll putU64 ids

/-- `put_conf`. -/
def putConf : ConfState → Bytes
  | .simple v => putU8 0 ++ putIds v
  | .joint old new => putU8 1 ++ (putIds old ++ putIds new)

/-- The payload of an entry. -/
def putPayload : EntryPayload → Bytes
  | .command c => putU8 0 ++ putBytes c
  | .noop => putU8 1
  | .config c => putU8 2 ++ putConf c

/-- `put_entry`. -/
def putEntry (e : Entry) : Bytes := putU64 e.term ++ (putU64 e.index ++ putPayload e.payload)

/-- `encode`. -/
def encode : Raft.Message → Bytes
  | .requestVote term candidate lastLogIndex lastLogTerm =>
    putU8 0 ++ (putU64 term ++ (putU64 candidate ++ (putU64 lastLogIndex ++ putU64 lastLogTerm)))
  | .requestVoteResp term granted => putU8 1 ++ (putU64 term ++ putBool granted)
  | .appendEntries term leader prevLogIndex prevLogTerm entries leaderCommit readSeq =>
    putU8 2 ++ (putU64 term ++ (putU64 leader ++ (putU64 prevLogIndex ++ (putU64 prevLogTerm ++
      (putAll putEntry entries ++ (putU64 leaderCommit ++ putU64 readSeq))))))
  | .appendEntriesResp term success matchIndex conflictIndex readSeq =>
    putU8 3 ++ (putU64 term ++ (putBool success ++ (putU64 matchIndex ++ (putU64 conflictIndex ++
      putU64 readSeq))))
  | .installSnapshot term leader lastIncludedIndex lastIncludedTerm lastIncludedConfig data
      readSeq =>
    putU8 4 ++ (putU64 term ++ (putU64 leader ++ (putU64 lastIncludedIndex ++
      (putU64 lastIncludedTerm ++ (putConf lastIncludedConfig ++ (putBytes data ++
        putU64 readSeq))))))

/-- `encode_entry`. -/
def encodeEntry (e : Entry) : Bytes := putEntry e

/-- `put_instance`. -/
def putInstance (i : Epaxos.Instance) : Bytes := putU64 i.replica ++ putU64 i.slot

/-- `put_inst_set`. -/
def putInstSet (deps : Epaxos.Deps) : Bytes := putAll putInstance deps.elems

/-- `encode_epaxos`. -/
def encodeEpaxos : Epaxos.Message → Bytes
  | .preAccept inst ballot command seq deps =>
    putU8 0 ++ (putInstance inst ++ (putU64 ballot ++ (putBytes command ++ (putU64 seq ++
      putInstSet deps))))
  | .preAcceptReply inst ballot seq deps =>
    putU8 1 ++ (putInstance inst ++ (putU64 ballot ++ (putU64 seq ++ putInstSet deps)))
  | .accept inst ballot command seq deps =>
    putU8 2 ++ (putInstance inst ++ (putU64 ballot ++ (putBytes command ++ (putU64 seq ++
      putInstSet deps))))
  | .acceptReply inst ballot => putU8 3 ++ (putInstance inst ++ putU64 ballot)
  | .commit inst command seq deps =>
    putU8 4 ++ (putInstance inst ++ (putBytes command ++ (putU64 seq ++ putInstSet deps)))

/-! ## Reading -/

/-- A frame was malformed or truncated. -/
structure DecodeError where
  text : String
deriving DecidableEq

/-- **What a decoder asks of the machine**: that a position after a step of fixed width is a
`usize`; that the end of a slice whose length the frame gives is one; that a vector of as many
replica ids, or entries, as the frame announces can be allocated. -/
inductive Demand
  | advance (stop : ℕ)
  | extent (stop : ℕ)
  | reserveIds (count : ℕ)
  | reserveEntries (count : ℕ)
deriving DecidableEq

/-- `isize::MAX`, the most bytes an allocation can have. -/
def isizeMax : ℕ := 2 ^ 63 - 1

/-- **The machine**, for a size of an `Entry`. -/
def machine (entrySize : ℕ) : Demand → Bool
  | .advance stop => decide (stop < 2 ^ 64)
  | .extent stop => decide (stop < 2 ^ 64)
  | .reserveIds count => decide (count * 8 ≤ isizeMax)
  | .reserveEntries count => decide (count * entrySize ≤ isizeMax)

/-- A reader of frames. -/
abbrev Cursor (α : Type) := Reader UInt8 Demand DecodeError α

namespace Cursor

open Reader

/-- `u8`. -/
def u8 : Cursor UInt8 := do
  let b ← item ⟨"eof u8"⟩
  request .advance
  pure b

/-- `u64`. -/
def u64 : Cursor ℕ := do
  let s ← slice (fun pos => .advance (pos + 8)) 8 ⟨"eof u64"⟩
  pure (fromBeBytes s)

/-- A `u8` that is compared with zero. -/
def bool : Cursor Bool := do
  let b ← u8
  pure (b != 0)

/-- `bytes`. -/
def bytes : Cursor Bytes := do
  let n ← u64
  slice (fun pos => .extent (pos + n)) n ⟨"eof bytes"⟩

/-- The turns of a loop that pushes what it reads. -/
def collect {α : Type} (r : Cursor α) (n : ℕ) : Cursor (List α) :=
  loop (fun v => do let a ← r; pure (v ++ [a])) n []

/-- `ids`. -/
def ids : Cursor (List ReplicaId) := do
  let n ← u64
  request fun _ => .reserveIds n
  collect u64 n

/-- `conf`. -/
def conf : Cursor ConfState := do
  match (← u8).toNat with
  | 0 => do
    let v ← ids
    pure (.simple v)
  | 1 => do
    let old ← ids
    let new ← ids
    pure (.joint old new)
  | _ => fail ⟨"bad conf tag"⟩

/-- The payload of an entry. -/
def payload : Cursor EntryPayload := do
  match (← u8).toNat with
  | 0 => do
    let c ← bytes
    pure (.command c)
  | 1 => pure .noop
  | 2 => do
    let c ← conf
    pure (.config c)
  | _ => fail ⟨"bad payload tag"⟩

/-- `entry`. -/
def entry : Cursor Entry := do
  let term ← u64
  let index ← u64
  let payload ← payload
  pure ⟨term, index, payload⟩

/-- The entries of an `AppendEntries`. -/
def entries : Cursor (List Entry) := do
  let n ← u64
  request fun _ => .reserveEntries n
  collect entry n

/-- A Raft message. -/
def message : Cursor Raft.Message := do
  match (← u8).toNat with
  | 0 => do
    let term ← u64
    let candidate ← u64
    let lastLogIndex ← u64
    let lastLogTerm ← u64
    pure (.requestVote term candidate lastLogIndex lastLogTerm)
  | 1 => do
    let term ← u64
    let granted ← bool
    pure (.requestVoteResp term granted)
  | 2 => do
    let term ← u64
    let leader ← u64
    let prevLogIndex ← u64
    let prevLogTerm ← u64
    let entries ← entries
    let leaderCommit ← u64
    let readSeq ← u64
    pure (.appendEntries term leader prevLogIndex prevLogTerm entries leaderCommit readSeq)
  | 3 => do
    let term ← u64
    let success ← bool
    let matchIndex ← u64
    let conflictIndex ← u64
    let readSeq ← u64
    pure (.appendEntriesResp term success matchIndex conflictIndex readSeq)
  | 4 => do
    let term ← u64
    let leader ← u64
    let lastIncludedIndex ← u64
    let lastIncludedTerm ← u64
    let lastIncludedConfig ← conf
    let data ← bytes
    let readSeq ← u64
    pure (.installSnapshot term leader lastIncludedIndex lastIncludedTerm lastIncludedConfig data
      readSeq)
  | _ => fail ⟨"bad message tag"⟩

/-- `instance`. -/
def inst : Cursor Epaxos.Instance := do
  let replica ← u64
  let slot ← u64
  pure ⟨replica, slot⟩

/-- `inst_set`. -/
def instSet : Cursor Epaxos.Deps := do
  let n ← u64
  loop (fun s => do let i ← inst; pure (s.insert i)) n .empty

/-- An EPaxos message. -/
def epaxosMessage : Cursor Epaxos.Message := do
  match (← u8).toNat with
  | 0 => do
    let i ← inst
    let ballot ← u64
    let command ← bytes
    let seq ← u64
    let deps ← instSet
    pure (.preAccept i ballot command seq deps)
  | 1 => do
    let i ← inst
    let ballot ← u64
    let seq ← u64
    let deps ← instSet
    pure (.preAcceptReply i ballot seq deps)
  | 2 => do
    let i ← inst
    let ballot ← u64
    let command ← bytes
    let seq ← u64
    let deps ← instSet
    pure (.accept i ballot command seq deps)
  | 3 => do
    let i ← inst
    let ballot ← u64
    pure (.acceptReply i ballot)
  | 4 => do
    let i ← inst
    let command ← bytes
    let seq ← u64
    let deps ← instSet
    pure (.commit i command seq deps)
  | _ => fail ⟨"bad epaxos message tag"⟩

end Cursor

section Decoders

variable (M : Demand → Bool) (buf : Bytes)

/-- **`decode`.** -/
def decode : Outcome Demand DecodeError Raft.Message := Cursor.message M buf 0

/-- **`decode_entry`.** -/
def decodeEntry : Outcome Demand DecodeError Entry := Cursor.entry M buf 0

/-- **`decode_epaxos`.** -/
def decodeEpaxos : Outcome Demand DecodeError Epaxos.Message := Cursor.epaxosMessage M buf 0

end Decoders

end CrabScheme.Codec
