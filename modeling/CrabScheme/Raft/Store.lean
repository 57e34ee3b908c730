import Mathlib

/-!
# Entries, messages and the log store of Raft

The data of `cs-consensus`: memberships, log entries, the messages between replicas, and the
in-memory log store with the hard state and the snapshot that survive a restart. Terms, indices
and counters are natural numbers: they only grow by one at a time.
-/

namespace CrabScheme.Raft

abbrev ReplicaId := ℕ
abbrev Bytes := List UInt8

/-! ## Memberships -/

/-- **Cluster memberships**: a settled one, or a transition whose quorums need both halves. -/
inductive ConfState
  | simple (voters : List ReplicaId)
  | joint (old new : List ReplicaId)
deriving DecidableEq

namespace ConfState

/-- `sort_unstable` and `dedup`. -/
def sorted (v : List ReplicaId) : List ReplicaId := (v.insertionSort (· ≤ ·)).dedup

/-- All voters that participate. -/
def voters : ConfState → List ReplicaId
  | simple v => v
  | joint old new => sorted (old ++ new)

/-- Whether more than half of a voter set acknowledged. -/
def maj (acked set : List ReplicaId) : Bool :=
  decide (set.length / 2 < (set.filter acked.contains).length)

/-- `is_quorum`: a majority of the voters, of both halves during a transition. -/
def isQuorum (c : ConfState) (acked : List ReplicaId) : Bool :=
  match c with
  | simple v => maj acked v
  | joint old new => maj acked old && maj acked new

end ConfState

/-! ## Entries and messages -/

/-- What a log entry carries. -/
inductive EntryPayload
  | command (cmd : Bytes)
  | noop
  | config (c : ConfState)
deriving DecidableEq

/-- The membership an entry sets. -/
def EntryPayload.config? : EntryPayload → Option ConfState
  | config c => some c
  | _ => none

/-- One replicated log entry. -/
structure Entry where
  term : ℕ
  index : ℕ
  payload : EntryPayload
deriving DecidableEq

/-- **Messages** between replicas. -/
inductive Message
  | requestVote (term : ℕ) (candidate : ReplicaId) (lastLogIndex : ℕ) (lastLogTerm : ℕ)
  | requestVoteResp (term : ℕ) (granted : Bool)
  | appendEntries (term : ℕ) (leader : ReplicaId) (prevLogIndex : ℕ) (prevLogTerm : ℕ)
      (entries : List Entry) (leaderCommit : ℕ) (readSeq : ℕ)
  | appendEntriesResp (term : ℕ) (success : Bool) (matchIndex conflictIndex : ℕ)
      (readSeq : ℕ)
  | installSnapshot (term : ℕ) (leader : ReplicaId) (lastIncludedIndex : ℕ)
      (lastIncludedTerm : ℕ) (lastIncludedConfig : ConfState) (data : Bytes) (readSeq : ℕ)
deriving DecidableEq

/-- A message with the replica it is for. -/
abbrev Out := ReplicaId × Message

/-! ## The store -/

/-- The hard state that survives a crash. -/
structure HardState where
  term : ℕ
  votedFor : Option ReplicaId
  commitIndex : ℕ
deriving DecidableEq

/-- A snapshot: the entries up to `lastIncludedIndex` folded into a blob. -/
structure SnapshotMeta where
  lastIncludedIndex : ℕ
  lastIncludedTerm : ℕ
  data : Bytes
deriving DecidableEq

/-- **The in-memory log store**: the live entries after `baseIndex`, in order, the snapshot and the
hard state. -/
structure MemLogStore where
  log : List Entry
  baseIndex : ℕ
  baseTerm : ℕ
  snapshotData : Bytes
  hardState : HardState
  hasSnapshot : Bool
deriving DecidableEq

namespace MemLogStore

/-- `MemLogStore::new`. -/
def new : MemLogStore := ⟨[], 0, 0, [], ⟨0, none, 0⟩, false⟩

variable (s : MemLogStore)

/-- `append`. -/
def append (es : List Entry) : MemLogStore := { s with log := s.log ++ es }

/-- `entries`: the live entries with an index in the range. -/
def entries (lo hi : ℕ) : List Entry :=
  s.log.filter fun e => decide (lo ≤ e.index) && decide (e.index ≤ hi) && decide (s.baseIndex < e.index)

/-- `entry`: the live entry at an index. -/
def entry (idx : ℕ) : Option Entry :=
  if idx ≤ s.baseIndex then none else s.log[idx - s.baseIndex - 1]?

/-- `entry_term`. -/
def entryTerm (idx : ℕ) : Option ℕ := (s.entry idx).map Entry.term

/-- `last_index`. -/
def lastIndex : ℕ := (s.log.getLast?.map Entry.index).getD s.baseIndex

/-- `last_term`. -/
def lastTerm : ℕ := (s.log.getLast?.map Entry.term).getD s.baseTerm

/-- `RaftNode::term_at`: the term of the entry at an index, when it is known; at the base it is the
term of the snapshot. -/
def termAt (idx : ℕ) : Option ℕ :=
  if idx = 0 then some 0
  else if idx = s.baseIndex then some s.baseTerm
  else if idx < s.baseIndex then none
  else s.entryTerm idx

/-- `truncate_suffix`: every live entry from an index on is dropped. -/
def truncateSuffix (idx : ℕ) : MemLogStore :=
  if idx ≤ s.baseIndex then { s with log := [] }
  else { s with log := s.log.take (idx - s.baseIndex - 1) }

/-- `save_hard_state`. -/
def saveHardState (hs : HardState) : MemLogStore := { s with hardState := hs }

/-- `save_snapshot`: the entries the snapshot covers are dropped. -/
def saveSnapshot (m : SnapshotMeta) : MemLogStore :=
  { s with
    log := s.log.filter fun e => decide (m.lastIncludedIndex < e.index)
    baseIndex := m.lastIncludedIndex
    baseTerm := m.lastIncludedTerm
    snapshotData := m.data
    hasSnapshot := true }

/-- One entry of an `AppendEntries`: it is skipped when it is covered by the snapshot or already
there, replaces a conflicting suffix, or extends the log. -/
def splice (e : Entry) : MemLogStore :=
  if e.index ≤ s.baseIndex then s
  else
    match s.termAt e.index with
    | some t => if t = e.term then s else (s.truncateSuffix e.index).append [e]
    | none => s.append [e]

/-- `RaftNode::live_entries`. -/
def liveEntries : List Entry := s.entries (s.baseIndex + 1) s.lastIndex

/-- The membership in effect: the last one in the log, committed or not, else the one of the
snapshot. -/
def effective (base : ConfState) : ConfState :=
  (s.liveEntries.reverse.findSome? fun e => e.payload.config?).getD base

/-- `RaftNode::config_at`: the last membership set at or before an index, else the one of the
snapshot. -/
def configAt (base : ConfState) (idx : ℕ) : ConfState :=
  ((s.liveEntries.reverse.find? fun e => decide (e.index ≤ idx) && e.payload.config?.isSome).bind
    fun e => e.payload.config?).getD base

/-- `RaftNode::last_config_index`. -/
def lastConfigIndex : Option ℕ :=
  (s.liveEntries.reverse.find? fun e => e.payload.config?.isSome).map Entry.index

/-- `load_snapshot`. -/
def loadSnapshot : Option SnapshotMeta :=
  if s.hasSnapshot then some ⟨s.baseIndex, s.baseTerm, s.snapshotData⟩ else none

end MemLogStore

/-! ## Numbered stores -/

lemma filter_gt_of_numbered {l : List Entry} {n m : ℕ}
    (h : ∀ i e, l[i]? = some e → e.index = n + i + 1) (hn : n ≤ m) :
    l.filter (fun e => decide (m < e.index)) = l.drop (m - n) := by
  induction l generalizing n with
  | nil => simp
  | cons e l ih =>
    have he := h 0 e rfl
    have htail : ∀ i e, l[i]? = some e → e.index = n + 1 + i + 1 := fun i x hx => by
      rw [h (i + 1) x hx]
      omega
    rcases Nat.lt_or_ge n m with hlt | hge
    · rw [List.filter_cons_of_neg (by simp; omega), ih htail hlt,
        show m - n = m - (n + 1) + 1 by omega, List.drop_succ_cons]
    · obtain rfl : n = m := by omega
      rw [Nat.sub_self, List.drop_zero, List.filter_eq_self]
      intro x hx
      obtain ⟨i, hi⟩ := List.getElem?_of_mem hx
      have := h i x hi
      exact decide_eq_true (by omega)

lemma filter_le_of_numbered {l : List Entry} {n m : ℕ}
    (h : ∀ i e, l[i]? = some e → e.index = n + i + 1) :
    l.filter (fun e => decide (e.index ≤ m)) = l.take (m - n) := by
  induction l generalizing n with
  | nil => simp
  | cons e l ih =>
    have he := h 0 e rfl
    have htail : ∀ i e, l[i]? = some e → e.index = n + 1 + i + 1 := fun i x hx => by
      rw [h (i + 1) x hx]
      omega
    rcases Nat.lt_or_ge n m with hlt | hge
    · rw [List.filter_cons_of_pos (by simp; omega), ih htail,
        show m - n = m - (n + 1) + 1 by omega, List.take_succ_cons]
    · rw [List.filter_cons_of_neg (by simp [he]; omega), ih htail,
        show m - (n + 1) = 0 by omega, show m - n = 0 by omega, List.take_zero, List.take_zero]

namespace MemLogStore

/-- **The live entries are numbered from the base on.** -/
def Numbered (s : MemLogStore) : Prop :=
  ∀ q e, s.log[q]? = some e → e.index = s.baseIndex + q + 1

namespace Numbered

variable {s : MemLogStore}

lemma lastIndex_eq (h : s.Numbered) : s.lastIndex = s.baseIndex + s.log.length := by
  unfold MemLogStore.lastIndex
  cases hlast : s.log.getLast? with
  | none => simp [List.getLast?_eq_none_iff.mp hlast]
  | some e =>
    rw [List.getLast?_eq_getElem?] at hlast
    have hindex := h _ e hlast
    obtain ⟨hlt, -⟩ := List.getElem?_eq_some_iff.mp hlast
    simp only [Option.map_some, Option.getD_some]
    omega

lemma entry_eq_some_iff (h : s.Numbered) {j : ℕ} {e : Entry} :
    s.entry j = some e ↔ e ∈ s.log ∧ e.index = j := by
  unfold MemLogStore.entry
  constructor
  · intro hj
    split_ifs at hj with hbase
    have hindex := h _ e hj
    exact ⟨List.mem_of_getElem? hj, by omega⟩
  · rintro ⟨he, rfl⟩
    obtain ⟨q, hq⟩ := List.mem_iff_getElem?.mp he
    have hindex := h q e hq
    rw [if_neg (by omega)]
    have hsub : e.index - s.baseIndex - 1 = q := by omega
    rw [hsub]
    exact hq

lemma bounds (h : s.Numbered) {e : Entry} (he : e ∈ s.log) :
    s.baseIndex < e.index ∧ e.index ≤ s.lastIndex := by
  obtain ⟨q, hq⟩ := List.mem_iff_getElem?.mp he
  have hindex := h q e hq
  have hlast := h.lastIndex_eq
  obtain ⟨hlt, -⟩ := List.getElem?_eq_some_iff.mp hq
  omega

lemma append (h : s.Numbered) {es : List Entry}
    (hes : ∀ q e, es[q]? = some e → e.index = s.lastIndex + q + 1) : (s.append es).Numbered := by
  intro q e hq
  have hlast := h.lastIndex_eq
  have hq : (s.log ++ es)[q]? = some e := hq
  rw [List.getElem?_append] at hq
  show e.index = s.baseIndex + q + 1
  split_ifs at hq with hlt
  · exact h q e hq
  · have := hes _ e hq
    omega

lemma truncateSuffix (h : s.Numbered) (idx : ℕ) : (s.truncateSuffix idx).Numbered := by
  intro q e hq
  unfold MemLogStore.truncateSuffix at hq ⊢
  split_ifs at hq ⊢ with hidx
  · simp at hq
  · rw [List.getElem?_take] at hq
    split_ifs at hq
    exact h q e hq

lemma saveSnapshot_log (h : s.Numbered) {m : SnapshotMeta} (hm : s.baseIndex ≤ m.lastIncludedIndex) :
    (s.saveSnapshot m).log = s.log.drop (m.lastIncludedIndex - s.baseIndex) :=
  filter_gt_of_numbered h hm

lemma saveSnapshot (h : s.Numbered) {m : SnapshotMeta} (hm : s.baseIndex ≤ m.lastIncludedIndex) :
    (s.saveSnapshot m).Numbered := by
  intro q e hq
  rw [h.saveSnapshot_log hm, List.getElem?_drop] at hq
  have := h _ e hq
  show e.index = m.lastIncludedIndex + q + 1
  omega

end Numbered

end MemLogStore

end CrabScheme.Raft
