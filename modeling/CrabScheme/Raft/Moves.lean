import CrabScheme.Raft.HardState

/-!
# The elementary moves of a replica

A handler does several things one after the other: it steps down, takes over entries, moves the
commit index, applies, serves reads, compacts, answers. This file names these moves, on a replica
without its timers, and shows that every handler is a sequence of them. What holds along every run
is then shown move by move.

## Design

The rules are parameters of the moves, so that one list of moves serves runs without compaction,
runs in which snapshots arrive in any state, and runs in which they arrive as expected.
-/

namespace CrabScheme.Raft

variable {σ : Type}

/-- **The part of a replica the safety argument looks at.** -/
structure View (σ : Type) where
  id : ReplicaId
  cfg : Config
  config : ConfState
  baseConfig : ConfState
  term : ℕ
  votedFor : Option ReplicaId
  store : MemLogStore
  role : Role
  commitIndex : ℕ
  lastApplied : ℕ
  votes : List ReplicaId
  nextIndex : ReplicaId → Option ℕ
  matchIndex : ReplicaId → Option ℕ
  readSeq : ℕ
  ackedSeq : ReplicaId → Option ℕ
  pendingReads : List PendingRead
  readyReads : List (ℕ × ReadResult)
  sm : σ
  history : List Entry

/-- The store without the persisted hard state. -/
def MemLogStore.bare (s : MemLogStore) : MemLogStore := s.saveHardState ⟨0, none, 0⟩

/-- What a view keeps of a replica. -/
def Node.view (n : Node σ) : View σ where
  id := n.id
  cfg := n.cfg
  config := n.config
  baseConfig := n.baseConfig
  term := n.currentTerm
  votedFor := n.votedFor
  store := n.store.bare
  role := n.role
  commitIndex := n.commitIndex
  lastApplied := n.lastApplied
  votes := n.votes
  nextIndex := n.nextIndex
  matchIndex := n.matchIndex
  readSeq := n.readSeq
  ackedSeq := n.ackedSeq
  pendingReads := n.pendingReads
  readyReads := n.readyReads
  sm := n.sm
  history := n.history

namespace View

variable (M : StateMachine σ) (v : View σ)

/-- The replica is a follower of term `t`. -/
def follow (t : ℕ) : View σ :=
  { v with
    role := .follower
    term := t
    votedFor := if t ≠ v.term then none else v.votedFor
    votes := []
    readyReads := v.readyReads ++ v.pendingReads.map fun pr => (pr.reqId, ReadResult.notLeader)
    pendingReads := []
    ackedSeq := fun _ => none }

/-- The replica campaigns in the next term. -/
def campaign : View σ :=
  { v with role := .candidate, term := v.term + 1, votedFor := some v.id, votes := [v.id] }

/-- The peers of the replica. -/
def peers : List ReplicaId := v.config.voters.filter (· ≠ v.id)

/-- The replica takes over as leader. -/
def lead : View σ :=
  { v with
    role := .leader
    nextIndex := fun p => if p ∈ v.peers then some (v.store.lastIndex + 1) else none
    matchIndex := fun p => if p ∈ v.peers then some 0 else none }

/-- The log with a new entry. -/
def append (payload : EntryPayload) : View σ :=
  { v with
    store := v.store.append [⟨v.term, v.store.lastIndex + 1, payload⟩]
    matchIndex := fun p =>
      if p = v.id then (v.matchIndex p).map fun _ => v.store.lastIndex + 1 else v.matchIndex p
    config := if payload.config?.isSome then
        (v.store.append [⟨v.term, v.store.lastIndex + 1, payload⟩]).effective v.baseConfig
      else v.config }

/-- What a leader sends to a peer. -/
def appendFor (peer : ReplicaId) : Message :=
  let next := (v.nextIndex peer).getD 1
  if next ≤ v.store.baseIndex then
    .installSnapshot v.term v.id v.store.baseIndex v.store.baseTerm v.baseConfig
      v.store.snapshotData v.readSeq
  else
    .appendEntries v.term v.id (next - 1) ((v.store.termAt (next - 1)).getD 0)
      (v.store.entries next v.store.lastIndex) v.commitIndex v.readSeq

/-- The replicas known to hold the log up to an index. -/
def ackers (idx : ℕ) : List ReplicaId :=
  v.id :: v.peers.filter fun p => decide (idx ≤ (v.matchIndex p).getD 0)

/-- The entry after the last applied one is applied. -/
def applyNext : View σ :=
  let v₁ := { v with lastApplied := v.lastApplied + 1 }
  match (if v.lastApplied + 1 ≤ v.store.baseIndex then none else v.store.entry (v.lastApplied + 1)) with
  | none => v₁
  | some e =>
    { v₁ with
      sm := M.exec v.sm e
      history := v.history ++ [e] }

/-- The applied entries are folded into a snapshot. -/
def compact (term : ℕ) : View σ :=
  let store := v.store.saveSnapshot ⟨v.lastApplied, term, M.snapshot v.sm⟩
  let base := v.store.configAt v.baseConfig v.lastApplied
  { v with store := store, baseConfig := base, config := store.effective base }

/-- Entries of a leader are taken over. -/
def accept (es : List Entry) (leaderCommit : ℕ) : View σ :=
  let store := es.foldl MemLogStore.splice v.store
  { v with
    store := store
    config := store.effective v.baseConfig
    commitIndex :=
      if v.commitIndex < leaderCommit then min leaderCommit store.lastIndex else v.commitIndex }

/-- A snapshot is installed. -/
def install (idx : ℕ) (term : ℕ) (config : ConfState) (data : Bytes) : View σ :=
  let kept :=
    if v.store.termAt idx ≠ some term then v.store.truncateSuffix (v.store.baseIndex + 1)
    else v.store
  let store := kept.saveSnapshot ⟨idx, term, data⟩
  { v with
    sm := M.restore v.sm data
    store := store
    baseConfig := config
    config := store.effective config
    commitIndex := max v.commitIndex idx
    lastApplied := max v.lastApplied idx }

/-- A peer has the log up to an index, and has confirmed a heartbeat. -/
def matched (s : ReplicaId) (m r : ℕ) : View σ :=
  { v with
    ackedSeq := fun p => if p = s then some (max r ((v.ackedSeq s).getD 0)) else v.ackedSeq p
    matchIndex := fun p => if p = s then some m else v.matchIndex p
    nextIndex := fun p => if p = s then some (m + 1) else v.nextIndex p }

/-- A peer lacks entries before the ones it was sent, and has confirmed a heartbeat. -/
def back (s : ReplicaId) (k r : ℕ) : View σ :=
  { v with
    ackedSeq := fun p => if p = s then some (max r ((v.ackedSeq s).getD 0)) else v.ackedSeq p
    nextIndex := fun p => if p = s then some k else v.nextIndex p }

/-- A read waits for the next heartbeat. -/
def ask (reqId : ℕ) (query : Bytes) : View σ :=
  { v with
    readSeq := v.readSeq + 1
    pendingReads := v.pendingReads ++ [⟨reqId, query, v.commitIndex, v.readSeq + 1⟩] }

/-- The reads of a kind are answered. -/
def serve (ready : PendingRead → Bool) : View σ :=
  { v with
    readyReads := v.readyReads ++ (v.pendingReads.filter ready).map fun pr =>
      (pr.reqId, .value (M.query v.sm pr.query))
    pendingReads := v.pendingReads.filter fun pr => !ready pr }

/-- A heartbeat is confirmed by a quorum. -/
def Confirmed (r : ℕ) : Prop :=
  ∃ acked, v.config.isQuorum acked = true ∧ ∀ p ∈ acked, p = v.id ∨ r ≤ (v.ackedSeq p).getD 0

/-- The replica resumes from its store. -/
def resume (bootstrap : ConfState) (sm : σ) : View σ :=
  { v with
    role := .follower
    votes := []
    nextIndex := fun _ => none
    matchIndex := fun _ => none
    baseConfig := v.store.configAt bootstrap v.store.baseIndex
    config := v.store.effective (v.store.configAt bootstrap v.store.baseIndex)
    commitIndex := max v.commitIndex v.store.baseIndex
    lastApplied := v.store.baseIndex
    readSeq := 0
    ackedSeq := fun _ => none
    pendingReads := []
    readyReads := []
    sm := if v.store.hasSnapshot then M.restore sm v.store.snapshotData else sm
    history := [] }

end View

/-- **What is assumed of a run**, beyond what the code does. -/
structure Rules where
  /-- Snapshots are taken. -/
  compacts : Prop
  /-- The membership changes. -/
  reconfigures : Prop
  /-- A snapshot that the replica's own covers only reaches it when its whole log is committed. -/
  settled : Prop
  /-- A snapshot is only installed when it covers what the replica has applied. -/
  fresh : Prop
  /-- A replica only resumes from a snapshot taken under the first membership. -/
  anchored : Prop
  /-- The rejection of a message of an earlier term confirms no read of the leader it reaches. -/
  timely : Prop

/-- **A message that follows the rules**, as a replica receives it. -/
def Node.Receives (R : Rules) (n : Node σ) : Message → Prop
  | .installSnapshot t _ li _ _ _ _ => n.currentTerm ≤ t →
    (R.settled → li ≤ n.store.baseIndex → n.lastLogIndex ≤ n.commitIndex) ∧
      (R.fresh → n.store.baseIndex < li → n.lastApplied ≤ li)
  | .appendEntriesResp t ok _ ci r => R.timely → n.role = .leader → t = n.currentTerm →
    ok = false → ci = 0 → r ≤ n.readSeq ∧ ∀ pr ∈ n.pendingReads, r < pr.minSeq
  | _ => True

lemma Node.receives_of_not {R : Rules} {n : Node σ} {msg : Message} (hset : ¬R.settled)
    (hfresh : ¬R.fresh) (htimely : ¬R.timely) : n.Receives R msg := by
  unfold Node.Receives
  split
  · exact fun _ => ⟨fun h => absurd h hset, fun h => absurd h hfresh⟩
  · exact fun h => absurd h htimely
  · trivial

/-- **One move of a replica.** `inbox` are the messages that were sent to it. -/
inductive Move (M : StateMachine σ) (R : Rules) (inbox : ReplicaId → Message → Prop) :
    View σ → View σ → List Out → Prop
  | follow {v : View σ} {t : ℕ} : v.term ≤ t → Move M R inbox v (v.follow t) []
  | campaign {v : View σ} : v.role ≠ .leader → v.id ∈ v.config.voters →
      Move M R inbox v v.campaign []
  | solicit {v : View σ} (ps : List ReplicaId) : v.role = .candidate →
      Move M R inbox v v (ps.map fun p =>
        (p, .requestVote v.term v.id v.store.lastIndex v.store.lastTerm))
  | vote {v : View σ} {s c : ReplicaId} {li : ℕ} {lt : ℕ} :
      inbox s (.requestVote v.term c li lt) →
      (v.store.lastTerm < lt ∨ v.store.lastTerm = lt ∧ v.store.lastIndex ≤ li) →
      (v.votedFor = none ∨ v.votedFor = some c) →
      Move M R inbox v { v with votedFor := some c } [(c, .requestVoteResp v.term true)]
  | refuse {v : View σ} (p : ReplicaId) (t : ℕ) :
      Move M R inbox v v [(p, .requestVoteResp t false)]
  | count {v : View σ} {s : ReplicaId} : v.role = .candidate →
      inbox s (.requestVoteResp v.term true) →
      Move M R inbox v { v with votes := v.votes.insert s } []
  | win {v : View σ} : v.role = .candidate → v.config.isQuorum v.votes = true →
      Move M R inbox v v.lead []
  | append {v : View σ} {payload : EntryPayload} : v.role = .leader → payload.config? = none →
      Move M R inbox v (v.append payload) []
  /-- A membership change starts. -/
  | begin {v : View σ} {old new : List ReplicaId} : R.reconfigures → v.role = .leader →
      v.config = .simple old →
      Move M R inbox v (v.append (.config (.joint old new))) []
  /-- A membership change ends. -/
  | finalize {v : View σ} {old new : List ReplicaId} {idx : ℕ} : v.role = .leader →
      v.config = .joint old new → v.store.lastConfigIndex = some idx → idx ≤ v.commitIndex →
      Move M R inbox v (v.append (.config (.simple new))) []
  | heartbeat {v : View σ} : Move M R inbox v { v with readSeq := v.readSeq + 1 } []
  | send {v : View σ} (ps : List ReplicaId) : v.role = .leader →
      Move M R inbox v v (ps.map fun p => (p, v.appendFor p))
  | matched {v : View σ} {s : ReplicaId} {m ci readSeq : ℕ} : v.role = .leader →
      inbox s (.appendEntriesResp v.term true m ci readSeq) →
      Move M R inbox v (v.matched s m readSeq) []
  | back {v : View σ} {s : ReplicaId} {m ci readSeq k : ℕ} : v.role = .leader →
      inbox s (.appendEntriesResp v.term false m ci readSeq) → 1 ≤ k →
      k ≤ max ((v.nextIndex s).getD 1 - 1) 1 →
      (R.timely → ci = 0 → readSeq ≤ v.readSeq ∧ ∀ pr ∈ v.pendingReads, readSeq < pr.minSeq) →
      Move M R inbox v (v.back s k readSeq) []
  | commit {v : View σ} {idx : ℕ} : v.role = .leader → v.commitIndex < idx →
      idx ≤ v.store.lastIndex → v.store.termAt idx = some v.term →
      v.config.isQuorum (v.ackers idx) = true →
      Move M R inbox v { v with commitIndex := idx } []
  | apply {v : View σ} : v.lastApplied < v.commitIndex → Move M R inbox v (v.applyNext M) []
  | compact {v : View σ} {t : ℕ} : R.compacts → v.store.baseIndex < v.lastApplied →
      v.store.termAt v.lastApplied = some t → Move M R inbox v (v.compact M t) []
  | accept {v : View σ} {s l : ReplicaId} {prev : ℕ} {pt : ℕ} {es : List Entry} {c : ℕ}
      {readSeq : ℕ} : v.role = .follower → inbox s (.appendEntries v.term l prev pt es c readSeq) →
      v.store.termAt prev = some pt →
      Move M R inbox v (v.accept es c)
        [(l, .appendEntriesResp v.term true (prev + es.length) 0 readSeq)]
  | install {v : View σ} {s l : ReplicaId} {idx : ℕ} {t : ℕ} {config : ConfState}
      {data : Bytes} {readSeq : ℕ} : v.role = .follower →
      inbox s (.installSnapshot v.term l idx t config data readSeq) → v.store.baseIndex < idx →
      (R.fresh → v.lastApplied ≤ idx) →
      Move M R inbox v (v.install M idx t config data)
        [(l, .appendEntriesResp v.term true idx 0 readSeq)]
  /-- A snapshot that the replica's own covers is answered with the end of the log. -/
  | covered {v : View σ} {s l : ReplicaId} {idx : ℕ} {t : ℕ} {config : ConfState}
      {data : Bytes} {readSeq : ℕ} : v.role = .follower →
      inbox s (.installSnapshot v.term l idx t config data readSeq) → idx ≤ v.store.baseIndex →
      (R.settled → v.store.lastIndex ≤ v.commitIndex) →
      Move M R inbox v v [(l, .appendEntriesResp v.term true v.store.lastIndex 0 readSeq)]
  /-- A message of an earlier term is answered with the own term. -/
  | outdated {v : View σ} (p : ReplicaId) (readSeq : ℕ) :
      Move M R inbox v v [(p, .appendEntriesResp v.term false 0 0 readSeq)]
  | conflict {v : View σ} {s l : ReplicaId} {prev pt : ℕ} {es : List Entry} {c readSeq : ℕ}
      (ci : ℕ) : v.role = .follower → inbox s (.appendEntries v.term l prev pt es c readSeq) →
      Move M R inbox v v [(l, .appendEntriesResp v.term false 0 ci readSeq)]
  /-- A read is issued: it waits for the next heartbeat. -/
  | ask {v : View σ} (reqId : ℕ) (query : Bytes) : v.role = .leader →
      Move M R inbox v (v.ask reqId query) []
  /-- Reads that are confirmed and whose index is applied are answered. -/
  | serve {v : View σ} {ready : PendingRead → Bool} : v.role = .leader →
      (∀ pr, ready pr = true →
        pr.readIndex ≤ v.lastApplied ∧ (pr.minSeq = 0 ∨ v.Confirmed pr.minSeq)) →
      Move M R inbox v (v.serve M ready) []
  | decline {v : View σ} (reqId : ℕ) :
      Move M R inbox v { v with readyReads := v.readyReads ++ [(reqId, .notLeader)] } []
  /-- The answers are handed out. -/
  | collect {v : View σ} : Move M R inbox v { v with readyReads := [] } []

/-- **A sequence of moves**, with the messages sent. -/
inductive Moves (M : StateMachine σ) (R : Rules) (inbox : ReplicaId → Message → Prop) :
    View σ → View σ → List Out → Prop
  | refl (v : View σ) : Moves M R inbox v v []
  | head {v v₁ v₂ : View σ} {o o' : List Out} : Move M R inbox v v₁ o →
      Moves M R inbox v₁ v₂ o' → Moves M R inbox v v₂ (o ++ o')

section Moves

variable {M : StateMachine σ} {R : Rules} {inbox : ReplicaId → Message → Prop}
variable {v v₁ v₂ : View σ} {o o' : List Out}

lemma Moves.trans (h : Moves M R inbox v v₁ o) (h' : Moves M R inbox v₁ v₂ o') :
    Moves M R inbox v v₂ (o ++ o') := by
  induction h with
  | refl => exact h'
  | head hm _ ih =>
    rw [List.append_assoc]
    exact .head hm (ih h')

lemma Move.moves (h : Move M R inbox v v₁ o) : Moves M R inbox v v₁ o := by
  have := Moves.head h (.refl v₁)
  rwa [List.append_nil] at this

end Moves

/-! ## Views and the hard state -/

section Bare

variable (s : MemLogStore)

@[simp] lemma bare_baseIndex : s.bare.baseIndex = s.baseIndex := rfl
@[simp] lemma bare_lastIndex : s.bare.lastIndex = s.lastIndex := rfl
@[simp] lemma bare_termAt (idx : ℕ) : s.bare.termAt idx = s.termAt idx := rfl
@[simp] lemma bare_effective (c : ConfState) : s.bare.effective c = s.effective c := rfl
@[simp] lemma bare_configAt (c : ConfState) (idx : ℕ) :
    s.bare.configAt c idx = s.configAt c idx := rfl
@[simp] lemma bare_lastConfigIndex : s.bare.lastConfigIndex = s.lastConfigIndex := rfl
@[simp] lemma bare_snapshotData : s.bare.snapshotData = s.snapshotData := rfl
@[simp] lemma bare_hasSnapshot : s.bare.hasSnapshot = s.hasSnapshot := rfl
@[simp] lemma bare_append (es : List Entry) : (s.append es).bare = s.bare.append es := rfl

@[simp] lemma bare_truncateSuffix (idx : ℕ) :
    (s.truncateSuffix idx).bare = s.bare.truncateSuffix idx := by
  unfold MemLogStore.truncateSuffix
  by_cases h : idx ≤ s.baseIndex
  · rw [if_pos h, if_pos (show idx ≤ s.bare.baseIndex from h)]
    rfl
  · rw [if_neg h, if_neg (show ¬idx ≤ s.bare.baseIndex from h)]
    rfl

@[simp] lemma bare_splice (e : Entry) : (s.splice e).bare = s.bare.splice e := by
  unfold MemLogStore.splice
  rw [bare_termAt, bare_baseIndex]
  by_cases h : e.index ≤ s.baseIndex
  · rw [if_pos h, if_pos h]
  · rw [if_neg h, if_neg h]
    cases s.termAt e.index with
    | none => rfl
    | some t =>
      by_cases ht : t = e.term
      · simp only [if_pos ht]
      · simp only [if_neg ht, bare_append, bare_truncateSuffix]

@[simp] lemma bare_splices (es : List Entry) :
    (es.foldl MemLogStore.splice s).bare = es.foldl MemLogStore.splice s.bare := by
  induction es generalizing s with
  | nil => rfl
  | cons e es ih => rw [List.foldl_cons, ih, bare_splice, List.foldl_cons]

end Bare

/-! ## Handlers as sequences of moves -/

namespace Node

variable {M : StateMachine σ} {R : Rules} {inbox : ReplicaId → Message → Prop} (n : Node σ)

@[simp] lemma view_persistHardState : n.persistHardState.view = n.view := rfl
@[simp] lemma view_resetElectionTimer : n.resetElectionTimer.view = n.view := rfl

lemma confirmed_of_le {r : ℕ} (h : r ≤ n.confirmedReadSeq) : r = 0 ∨ n.view.Confirmed r := by
  unfold confirmedReadSeq at h
  dsimp only at h
  generalize ((n.config.voters.map n.effSeq).insertionSort (· ≥ ·)).dedup = cands at h
  cases hs : cands.find? fun s =>
      n.config.isQuorum (n.config.voters.filter fun v => decide (s ≤ n.effSeq v)) with
  | none =>
    rw [hs] at h
    exact .inl (Nat.le_zero.mp h)
  | some s =>
    rw [hs] at h
    have hq := List.find?_some hs
    refine .inr ⟨_, hq, fun p hp => ?_⟩
    have hle := of_decide_eq_true (List.mem_filter.mp hp).2
    unfold effSeq at hle
    split at hle
    · exact .inl ‹_›
    · exact .inr (le_trans h hle)

lemma moves_serveReads : Moves M R inbox n.view (n.serveReads M).view [] := by
  unfold serveReads
  split
  · rename_i hrole
    refine Move.moves (Move.serve hrole fun pr hpr => ?_)
    have hready := Bool.and_eq_true_iff.mp hpr
    exact ⟨of_decide_eq_true hready.2, confirmed_of_le n (of_decide_eq_true hready.1)⟩
  · exact .refl _

@[simp] lemma view_becomeFollower (t : ℕ) (l : Option ReplicaId) :
    (n.becomeFollower t l).view = n.view.follow t := by
  unfold becomeFollower
  by_cases h : t = n.currentTerm <;>
    simp only [h, ne_eq, not_true_eq_false, not_false_eq_true, decide_true, decide_false, if_true,
      Bool.false_eq_true, if_false, view_persistHardState, view_resetElectionTimer] <;>
    simp [view, View.follow, h]

lemma view_appendLocal (payload : EntryPayload) :
    (n.appendLocal payload).view = n.view.append payload := by
  unfold appendLocal View.append
  by_cases h : payload.config?.isSome = true
  · simp only [if_pos h]
    rfl
  · simp only [if_neg h]
    rfl

lemma moves_broadcastAppend (h : n.role = .leader) :
    Moves M R inbox n.view n.broadcastAppend.1.view n.broadcastAppend.2 :=
  .head .heartbeat (Move.send (v := { n.view with readSeq := n.readSeq + 1 }) n.peers h).moves

lemma view_applyNext : (n.applyNext M).view = n.view.applyNext M := by
  have hentry : (if n.view.lastApplied + 1 ≤ n.view.store.baseIndex then none
      else n.view.store.entry (n.view.lastApplied + 1)) = n.entryAt (n.lastApplied + 1) := rfl
  unfold applyNext View.applyNext
  rw [hentry]
  dsimp only
  cases n.entryAt (n.lastApplied + 1) with
  | none => rfl
  | some e =>
    cases e with
    | mk t i payload => cases payload <;> rfl

lemma moves_applyLoop (k : ℕ) (n : Node σ) (hk : k ≤ n.commitIndex - n.lastApplied) :
    Moves M R inbox n.view (applyLoop M k n).view [] := by
  induction k generalizing n with
  | zero => exact .refl _
  | succ k ih =>
    have hci : (n.applyNext M).commitIndex = n.commitIndex ∧
        (n.applyNext M).lastApplied = n.lastApplied + 1 := by
      unfold applyNext
      dsimp only
      split
      · exact ⟨rfl, rfl⟩
      · split <;> exact ⟨rfl, rfl⟩
    have hmove : Move M R inbox n.view (n.applyNext M).view [] := by
      rw [view_applyNext]
      exact .apply (show n.lastApplied < n.commitIndex by omega)
    exact .head hmove (ih _ (by omega))

lemma moves_compact (hR : R.compacts) : Moves M R inbox n.view (n.compact M).view [] := by
  unfold compact
  split
  · exact .refl _
  · cases ht : n.store.termAt n.lastApplied with
    | none => exact .refl _
    | some t =>
      have hmove : Move M R inbox n.view (n.view.compact M t) [] :=
        .compact hR (show n.store.baseIndex < n.lastApplied by omega) ht
      exact hmove.moves

lemma moves_applyCommitted (hR : 0 < n.cfg.snapshotThreshold → R.compacts) :
    Moves M R inbox n.view (n.applyCommitted M).view [] := by
  unfold applyCommitted maybeCompact
  set n1 := applyLoop M (n.commitIndex - n.lastApplied) n with hn1
  have h1 : Moves M R inbox n.view (n1.serveReads M).view [] :=
    (moves_applyLoop _ n le_rfl).trans (moves_serveReads n1)
  dsimp only
  split
  · rename_i hthr
    refine h1.trans (moves_compact _ (hR ?_))
    rw [(calm_serveReads M n1).cfg, (calm_applyLoop M _ n).cfg] at hthr
    exact hthr.1
  · exact h1

lemma moves_finalizeJointIfCommitted :
    Moves M R inbox n.view n.finalizeJointIfCommitted.view [] := by
  unfold finalizeJointIfCommitted
  split
  · rename_i hrole
    cases hc : n.config with
    | simple vs => exact .refl _
    | joint old new =>
      cases hidx : n.store.lastConfigIndex with
      | none => exact .refl _
      | some idx =>
        dsimp only
        split
        · rename_i hle
          rw [view_appendLocal]
          exact (Move.finalize (v := n.view) hrole hc hidx hle).moves
        · exact .refl _
  · exact .refl _

lemma moves_maybeAdvanceCommit (hR : 0 < n.cfg.snapshotThreshold → R.compacts) :
    Moves M R inbox n.view (n.maybeAdvanceCommit M).view [] := by
  refine maybeAdvanceCommit_cases (P := fun n' => Moves M R inbox n.view n'.view []) (.refl _)
    fun idx hrole hlt hlast hcomm => ?_
  rw [committable, Bool.and_eq_true] at hcomm
  have hmove : Move M R inbox n.view { n.view with commitIndex := idx } [] :=
    .commit hrole hlt hlast (of_decide_eq_true hcomm.1) hcomm.2
  refine Moves.head hmove (Moves.trans (o := []) ?_ (moves_finalizeJointIfCommitted _))
  exact moves_applyCommitted ({ n with commitIndex := idx }.persistHardState) hR

lemma maybeAdvanceCommit_role : (n.maybeAdvanceCommit M).role = n.role :=
  maybeAdvanceCommit_cases (P := fun n' => n'.role = n.role) rfl fun _ _ _ _ _ =>
    ((calm_applyCommitted M _).trans (calm_finalizeJointIfCommitted _)).role

lemma moves_becomeLeader (hR : 0 < n.cfg.snapshotThreshold → R.compacts)
    (hrole : n.role = .candidate) (hq : n.isQuorum n.votes = true) :
    Moves M R inbox n.view (n.becomeLeader M).1.view (n.becomeLeader M).2 := by
  have h1 : Moves M R inbox n.view n.leading.view [] := (Move.win (v := n.view) hrole hq).moves
  have h2 : Moves M R inbox n.leading.view (n.leading.appendLocal .noop).view [] := by
    rw [view_appendLocal]
    exact (Move.append rfl rfl).moves
  have hcalm := calm_appendLocal n.leading .noop
  have h3 : Moves M R inbox _ _ [] :=
    moves_maybeAdvanceCommit (n.leading.appendLocal .noop) (by rw [hcalm.cfg]; exact hR)
  refine ((h1.trans h2).trans h3).trans (moves_broadcastAppend _ ?_)
  rw [maybeAdvanceCommit_role]
  rfl

/-! ## The handlers -/

lemma moves_becomeFollower {t : ℕ} (h : n.currentTerm ≤ t) (l : Option ReplicaId) :
    Moves M R inbox n.view (n.becomeFollower t l).view [] := by
  rw [view_becomeFollower]
  exact (Move.follow h).moves

lemma cfg_becomeFollower (t : ℕ) (l : Option ReplicaId) : (n.becomeFollower t l).cfg = n.cfg :=
  congrArg View.cfg (view_becomeFollower n t l)

lemma moves_heard (t : ℕ) : Moves M R inbox n.view (n.heard t).view [] := by
  unfold heard
  split
  · rename_i hlt
    exact moves_becomeFollower n hlt.le none
  · exact .refl _

lemma moves_accepting (hR : 0 < n.cfg.snapshotThreshold → R.compacts) {s l : ReplicaId}
    {prev pt c r : ℕ} {es : List Entry} (hrole : n.role = .follower)
    (hin : inbox s (.appendEntries n.currentTerm l prev pt es c r))
    (hprev : n.store.termAt prev = some pt) :
    Moves M R inbox n.view (n.accepting M es c).view [(l, .appendEntriesResp
      (n.accepting M es c).currentTerm true (prev + es.length) 0 r)] := by
  have hmove := Move.accept (M := M) (R := R) (v := n.view) hrole hin hprev
  have hsplice : es.foldl MemLogStore.splice n.view.store =
      (es.foldl MemLogStore.splice n.store).bare := (bare_splices _ _).symm
  unfold View.accept at hmove
  rw [hsplice] at hmove
  dsimp only at hmove
  unfold accepting
  split
  · rename_i hc
    rw [if_pos (show n.view.commitIndex < c from hc)] at hmove
    rw [(calm_applyCommitted M _).term]
    exact .head hmove (moves_applyCommitted ((n.splicing es).committing _) hR)
  · rename_i hc
    rw [if_neg (show ¬n.view.commitIndex < c from hc)] at hmove
    exact hmove.moves

lemma view_installing (idx t : ℕ) (config : ConfState) (data : Bytes) :
    (n.installing M idx t config data).view = n.view.install M idx t config data := by
  have hkept : (if n.view.store.termAt idx ≠ some t then
        n.view.store.truncateSuffix (n.view.store.baseIndex + 1) else n.view.store) =
      (if n.store.termAt idx ≠ some t then n.store.truncateSuffix (n.store.baseIndex + 1)
        else n.store).bare := by
    rw [apply_ite MemLogStore.bare, bare_truncateSuffix]
    rfl
  unfold View.install
  rw [hkept]
  rfl

variable {n}

/-- **Every branch of a handler is a sequence of moves.** -/
lemma Branch.moves {input : Input} {out : Node σ × List Out} (h : n.Branch M input out)
    (hR : 0 < n.cfg.snapshotThreshold → R.compacts)
    (hmsg : ∀ s msg, input = .message s msg → inbox s msg ∧ n.Receives R msg)
    (hconf : ∀ vs, input = .proposeConf vs → R.reconfigures) :
    Moves M R inbox n.view out.1.view out.2 := by
  have hview (t : ℕ) (l : ReplicaId) : (n.becomeFollower t (some l)).view = n.view.follow t :=
    view_becomeFollower n t _
  have hterm (t : ℕ) (l : ReplicaId) : (n.becomeFollower t (some l)).view.term = t :=
    congrArg View.term (hview t l)
  have hrole (t : ℕ) (l : ReplicaId) := congrArg View.role (hview t l)
  have hbase (t : ℕ) (l : ReplicaId) := congrArg (fun v => v.store.baseIndex) (hview t l)
  cases h with
  | ignore | wait => exact .refl _
  | heartbeat hrole => exact moves_broadcastAppend { n with heartbeatElapsed := 0 } hrole
  | campaign hrole hid =>
    exact .head (Move.campaign (v := n.view) hrole hid)
      (Move.solicit (v := n.campaigning.view) n.campaigning.peers rfl).moves
  | elect hrole hid _ hq =>
    exact .head (Move.campaign (v := n.view) hrole hid) (moves_becomeLeader n.campaigning hR rfl hq)
  | refuse => exact (moves_heard n _).trans (Move.refuse _ _).moves
  | @vote s c li lt t hterm hlog hvote =>
    have hin : inbox s (.requestVote (n.heard t).view.term c li lt) := by
      have hin := (hmsg _ _ rfl).1
      rw [hterm] at hin
      exact hin
    exact (moves_heard n t).trans (Move.vote (v := (n.heard t).view) hin hlog hvote).moves
  | depose hlt => exact moves_becomeFollower n hlt.le none
  | count hrole => exact (Move.count (v := n.view) hrole (hmsg _ _ rfl).1).moves
  | win hrole hq =>
    exact .head (Move.count (v := n.view) hrole (hmsg _ _ rfl).1)
      (moves_becomeLeader (n.counting _) hR hrole hq)
  | outdated => exact (Move.outdated (v := n.view) _ _).moves
  | @conflict s l t prev pt es c r ci hle =>
    have hin := (hmsg _ _ rfl).1
    rw [← hterm t l] at hin
    exact (moves_becomeFollower n hle _).trans (Move.conflict ci (hrole t l) hin).moves
  | @accept s l t prev pt es c r hle hprev =>
    have hin := (hmsg _ _ rfl).1
    rw [← hterm t l] at hin
    refine (moves_becomeFollower n hle _).trans (moves_accepting _ ?_ (hrole t l) hin hprev)
    rw [cfg_becomeFollower]
    exact hR
  | @cover s l t li lt config data r hle hcover =>
    obtain ⟨hin, hreceives⟩ := hmsg _ _ rfl
    rw [← hterm t l] at hin
    refine (moves_becomeFollower n hle _).trans (Move.covered (hrole t l) hin hcover ?_).moves
    intro hset
    rw [hview]
    exact (hreceives hle).1 hset (hbase t l ▸ hcover)
  | @install s l t li lt config data r hle hnew =>
    obtain ⟨hin, hreceives⟩ := hmsg _ _ rfl
    rw [← hterm t l] at hin
    rw [view_installing]
    refine (moves_becomeFollower n hle _).trans (Move.install (hrole t l) hin hnew ?_).moves
    intro hfresh
    rw [hview]
    exact (hreceives hle).2 hfresh (hbase t l ▸ hnew)
  | acknowledge hrole =>
    exact .head (Move.matched hrole (hmsg _ _ rfl).1)
      ((moves_maybeAdvanceCommit (n.matching _ _ _) hR).trans (moves_serveReads _))
  | back hrole hk hle =>
    obtain ⟨hin, hreceives⟩ := hmsg _ _ rfl
    refine .head (Move.back hrole hin hk hle fun ht hci => ?_)
      ((moves_serveReads (n.backing _ _ _)).trans (Move.send [_] ?_).moves)
    · exact hreceives ht hrole rfl rfl hci
    · exact (calm_serveReads M _).role.trans hrole
  | @propose command hrole =>
    have hcalm := calm_appendLocal n (.command command)
    have h1 : Moves M R inbox n.view (n.appendLocal (.command command)).view [] := by
      rw [view_appendLocal]
      exact (Move.append hrole rfl).moves
    have h2 := h1.trans (moves_broadcastAppend _ (hcalm.role.trans hrole))
    have h3 : Moves M R inbox _ _ [] :=
      moves_maybeAdvanceCommit (n.appendLocal (.command command)).broadcastAppend.1
        (by rw [(calm_broadcastAppend _).cfg]; exact hR)
    have := h2.trans h3
    rwa [List.nil_append, List.append_nil] at this
  | begin hrole hc =>
    refine Moves.trans (o := []) ?_
      (moves_broadcastAppend _ ((calm_appendLocal n _).role.trans hrole))
    exact (Move.begin (hconf _ rfl) hrole hc).moves
  | @read reqId query hrole =>
    have h1 : Moves M R inbox n.view _ [] := (Move.ask reqId query hrole).moves
    have h2 := h1.trans (Move.send n.peers hrole).moves
    have := h2.trans (moves_serveReads (n.asked reqId query))
    rwa [List.append_nil, List.nil_append] at this
  | decline => exact (Move.decline _).moves

variable (n)

lemma moves_restoreFrom (hn : n.Persisted) {voters : List ReplicaId} {sm : σ}
    (hR : 0 < n.cfg.snapshotThreshold → R.compacts) :
    Moves M R inbox (n.view.resume M (.simple (ConfState.sorted voters)) sm)
      (restoreFrom M n.id voters n.cfg sm n.store).view [] := by
  have hci := hn.commitIndex
  unfold restoreFrom MemLogStore.loadSnapshot
  refine Eq.subst (motive := fun v => Moves M R inbox v _ []) ?_ (moves_applyCommitted _ ?_)
  · cases hs : n.store.hasSnapshot <;>
      simp [view, recomputeConfig, newWithStore, resetElectionTimer, View.resume, hs, hn.term,
        hn.votedFor, hci]
  · cases hs : n.store.hasSnapshot <;> exact hR

end Node

end CrabScheme.Raft
