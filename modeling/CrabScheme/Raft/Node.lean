import CrabScheme.Raft.Store

/-!
# A Raft replica

`RaftNode` of `cs-consensus`: the state of one replica, and every handler as a function from the
state to the next state and the messages to send. Nothing here knows of the network or of the
other replicas.
-/

namespace CrabScheme.Raft

/-- **A replicated state machine.** -/
structure StateMachine (σ : Type) where
  apply : σ → Bytes → σ × Bytes
  query : σ → Bytes → Bytes
  snapshot : σ → Bytes
  restore : σ → Bytes → σ

namespace StateMachine

variable {σ : Type} (M : StateMachine σ)

/-- The state after an entry is applied. -/
def exec (s : σ) (e : Entry) : σ :=
  match e.payload with
  | .command cmd => (M.apply s cmd).1
  | _ => s

/-- **The state after a log is applied.** -/
def replay (s : σ) (l : List Entry) : σ := l.foldl M.exec s

end StateMachine

/-- A replica's role in its term. -/
inductive Role
  | follower
  | candidate
  | leader
deriving DecidableEq

/-- The outcome of a linearizable read. -/
inductive ReadResult
  | value (v : Bytes)
  | notLeader
deriving DecidableEq

/-- A read that awaits confirmation: the commit index when it was issued, and the heartbeat that
a quorum has to confirm. -/
structure PendingRead where
  reqId : ℕ
  query : Bytes
  readIndex : ℕ
  minSeq : ℕ
deriving DecidableEq

/-- Timer and tuning knobs, in ticks. -/
structure Config where
  electionTimeoutMin : ℕ
  electionTimeoutMax : ℕ
  heartbeatInterval : ℕ
  snapshotThreshold : ℕ
deriving DecidableEq

/-- An applied entry, as the driver sees it. -/
structure Applied where
  index : ℕ
  command : Bytes
  result : Bytes
deriving DecidableEq

/-- **A replica.** `history` lists the entries handed to the state machine since the replica
started; no function reads it. -/
structure Node (σ : Type) where
  id : ReplicaId
  config : ConfState
  baseConfig : ConfState
  cfg : Config
  currentTerm : ℕ
  votedFor : Option ReplicaId
  store : MemLogStore
  role : Role
  leaderId : Option ReplicaId
  commitIndex : ℕ
  lastApplied : ℕ
  appliedOutbox : List Applied
  votes : List ReplicaId
  nextIndex : ReplicaId → Option ℕ
  matchIndex : ReplicaId → Option ℕ
  readSeq : ℕ
  ackedSeq : ReplicaId → Option ℕ
  pendingReads : List PendingRead
  readyReads : List (ℕ × ReadResult)
  electionElapsed : ℕ
  heartbeatElapsed : ℕ
  electionTimeout : ℕ
  rng : ℕ
  sm : σ
  history : List Entry

namespace Node

variable {σ : Type} (M : StateMachine σ) (n : Node σ)

/-! ## The log -/

/-- `last_log_index`. -/
def lastLogIndex : ℕ := n.store.lastIndex

/-- `last_log_term`. -/
def lastLogTerm : ℕ := n.store.lastTerm

/-- `entry_at`. -/
def entryAt (idx : ℕ) : Option Entry :=
  if idx ≤ n.store.baseIndex then none else n.store.entry idx

/-- `peers`: every voter of the effective membership but the replica itself. -/
def peers : List ReplicaId := n.config.voters.filter (· ≠ n.id)

/-- `is_quorum`, under the effective membership. -/
def isQuorum (acked : List ReplicaId) : Bool := n.config.isQuorum acked

/-- `recompute_config`. -/
def recomputeConfig : Node σ := { n with config := n.store.effective n.baseConfig }

/-- `persist_hard_state`. -/
def persistHardState : Node σ :=
  { n with store := n.store.saveHardState ⟨n.currentTerm, n.votedFor, n.commitIndex⟩ }

/-- `next_rand`: xorshift on 64 bits. -/
def nextRand (x : ℕ) : ℕ :=
  let x := x ^^^ (x <<< 13 % 2 ^ 64)
  let x := x ^^^ (x >>> 7)
  x ^^^ (x <<< 17 % 2 ^ 64)

/-- `reset_election_timer`. -/
def resetElectionTimer : Node σ :=
  let r := nextRand n.rng
  let span := n.cfg.electionTimeoutMax - n.cfg.electionTimeoutMin + 1
  { n with rng := r, electionTimeout := n.cfg.electionTimeoutMin + r % span, electionElapsed := 0 }

/-! ## Role transitions and the log -/

/-- `become_follower`. A new term forgets the vote, and reads in flight fail. -/
def becomeFollower (term : ℕ) (leader : Option ReplicaId) : Node σ :=
  let changed := decide (term ≠ n.currentTerm)
  let n₁ : Node σ := { n with
    role := .follower
    currentTerm := term
    leaderId := leader
    votedFor := if changed then none else n.votedFor
    votes := []
    readyReads := n.readyReads ++ n.pendingReads.map fun pr => (pr.reqId, ReadResult.notLeader)
    pendingReads := []
    ackedSeq := fun _ => none }
  let n₂ := n₁.resetElectionTimer
  if changed then n₂.persistHardState else n₂

/-- `append_local`: a new entry of the current term, at the next index. -/
def appendLocal (payload : EntryPayload) : Node σ :=
  let index := n.lastLogIndex + 1
  let n₁ := { n with
    store := n.store.append [⟨n.currentTerm, index, payload⟩]
    matchIndex := fun p =>
      if p = n.id then (n.matchIndex p).map fun _ => index else n.matchIndex p }
  if payload.config?.isSome then n₁.recomputeConfig else n₁

/-- `append_for`: the snapshot for a peer that is behind the log, else the missing suffix. -/
def appendFor (peer : ReplicaId) : Message :=
  let next := (n.nextIndex peer).getD 1
  if next ≤ n.store.baseIndex then
    .installSnapshot n.currentTerm n.id n.store.baseIndex n.store.baseTerm n.baseConfig
      n.store.snapshotData n.readSeq
  else
    .appendEntries n.currentTerm n.id (next - 1) ((n.store.termAt (next - 1)).getD 0)
      (n.store.entries next n.store.lastIndex) n.commitIndex n.readSeq

/-- `broadcast_append`. -/
def broadcastAppend : Node σ × List Out :=
  let n₁ := { n with readSeq := n.readSeq + 1 }
  (n₁, n₁.peers.map fun p => (p, n₁.appendFor p))

/-! ## Reads -/

/-- The heartbeat a voter has confirmed; the replica itself confirms the latest. -/
def effSeq (v : ReplicaId) : ℕ := if v = n.id then n.readSeq else (n.ackedSeq v).getD 0

/-- `confirmed_read_seq`: the highest heartbeat that a quorum has confirmed. -/
def confirmedReadSeq : ℕ :=
  let voters := n.config.voters
  let cands := ((voters.map n.effSeq).insertionSort (· ≥ ·)).dedup
  (cands.find? fun s => n.config.isQuorum (voters.filter fun v => decide (s ≤ n.effSeq v))).getD 0

/-- `serve_reads`: the reads that are confirmed and whose index is applied are answered. -/
def serveReads : Node σ :=
  if n.role = .leader then
    let ready := fun pr : PendingRead =>
      decide (pr.minSeq ≤ n.confirmedReadSeq) && decide (pr.readIndex ≤ n.lastApplied)
    { n with
      readyReads := n.readyReads ++ (n.pendingReads.filter ready).map fun pr =>
        (pr.reqId, .value (M.query n.sm pr.query))
      pendingReads := n.pendingReads.filter fun pr => !ready pr }
  else n

/-! ## Applying and compaction -/

/-- `compact`: every applied entry is folded into a snapshot. -/
def compact : Node σ :=
  if n.lastApplied ≤ n.store.baseIndex then n
  else
    match n.store.termAt n.lastApplied with
    -- the Rust code panics when the applied entry is missing
    | none => n
    | some term =>
      let n₁ := { n with
        store := n.store.saveSnapshot ⟨n.lastApplied, term, M.snapshot n.sm⟩
        baseConfig := n.store.configAt n.baseConfig n.lastApplied }
      n₁.recomputeConfig

/-- `maybe_compact`. -/
def maybeCompact : Node σ :=
  let thr := n.cfg.snapshotThreshold
  if 0 < thr ∧ thr ≤ n.lastApplied - n.store.baseIndex then n.compact M else n

/-- One round of the loop of `apply_committed`. -/
def applyNext : Node σ :=
  let idx := n.lastApplied + 1
  let n₁ := { n with lastApplied := idx }
  match n.entryAt idx with
  | none => n₁
  | some e =>
    match e.payload with
    | .command cmd =>
      let r := M.apply n.sm cmd
      { n₁ with
        sm := r.1
        appliedOutbox := n.appliedOutbox ++ [⟨idx, cmd, r.2⟩]
        history := n.history ++ [e] }
    | _ =>
      { n₁ with
        appliedOutbox := n.appliedOutbox ++ [⟨idx, [], []⟩]
        history := n.history ++ [e] }

/-- The loop of `apply_committed`, for a number of rounds. -/
def applyLoop : ℕ → Node σ → Node σ
  | 0, n => n
  | k + 1, n => applyLoop k (n.applyNext M)

/-- `apply_committed`. -/
def applyCommitted : Node σ :=
  let n₁ := applyLoop M (n.commitIndex - n.lastApplied) n
  (n₁.serveReads M).maybeCompact M

/-! ## Commitment -/

/-- The peers and the leader itself that hold the log up to an index, as far as the leader
knows. -/
def ackers (idx : ℕ) : List ReplicaId :=
  n.id :: n.peers.filter fun p => decide (idx ≤ (n.matchIndex p).getD 0)

/-- Whether an index can be committed: its entry is of the current term and on a quorum. -/
def committable (idx : ℕ) : Bool :=
  decide (n.store.termAt idx = some n.currentTerm) && n.isQuorum (n.ackers idx)

/-- `finalize_joint_if_committed`: a committed transition is ended. -/
def finalizeJointIfCommitted : Node σ :=
  if n.role = .leader then
    match n.config with
    | .simple _ => n
    | .joint _ new =>
      match n.store.lastConfigIndex with
      | some idx => if idx ≤ n.commitIndex then n.appendLocal (.config (.simple new)) else n
      | none => n
  else n

/-- `maybe_advance_commit`: the commit index moves to the last index that can be committed. -/
def maybeAdvanceCommit : Node σ :=
  if n.role = .leader then
    let idxs := List.range' (n.commitIndex + 1) (n.lastLogIndex - n.commitIndex)
    match (idxs.filter n.committable).getLast? with
    | none => n
    | some idx =>
      ((({ n with commitIndex := idx }.persistHardState).applyCommitted M).finalizeJointIfCommitted)
  else n

variable {M n} in
/-- **What `maybe_advance_commit` can do.** -/
lemma maybeAdvanceCommit_cases {P : Node σ → Prop} (stay : P n)
    (move : ∀ idx, n.role = .leader → n.commitIndex < idx → idx ≤ n.lastLogIndex →
      n.committable idx = true →
      P (({ n with commitIndex := idx }.persistHardState).applyCommitted M).finalizeJointIfCommitted) :
    P (n.maybeAdvanceCommit M) := by
  unfold maybeAdvanceCommit
  split
  · rename_i hrole
    dsimp only
    split
    · exact stay
    · rename_i idx hidx
      have hmem := List.mem_filter.mp (List.mem_of_getLast? hidx)
      have hrange := List.mem_range'_1.mp hmem.1
      exact move idx hrole hrange.1 (by omega) hmem.2
  · exact stay

/-! ## Elections -/

/-- `become_leader`. -/
def becomeLeader : Node σ × List Out :=
  let next := n.lastLogIndex + 1
  let n₁ := { n with
    role := .leader
    leaderId := some n.id
    heartbeatElapsed := 0
    nextIndex := fun p => if p ∈ n.peers then some next else none
    matchIndex := fun p => if p ∈ n.peers then some 0 else none }
  ((n₁.appendLocal .noop).maybeAdvanceCommit M).broadcastAppend

/-- `start_election`. -/
def startElection : Node σ × List Out :=
  let n₁ := (({ n with
    role := .candidate
    currentTerm := n.currentTerm + 1
    votedFor := some n.id
    leaderId := none
    votes := [n.id] }.resetElectionTimer).persistHardState)
  if n₁.isQuorum n₁.votes then n₁.becomeLeader M
  else
    let msg := Message.requestVote n₁.currentTerm n₁.id n₁.lastLogIndex n₁.lastLogTerm
    (n₁, n₁.peers.map fun p => (p, msg))

/-- `handle_request_vote`. -/
def handleRequestVote (term : ℕ) (candidate : ReplicaId) (candLastIndex : ℕ)
    (candLastTerm : ℕ) : Node σ × List Out :=
  let n₁ := if n.currentTerm < term then n.becomeFollower term none else n
  let logOk := decide (n₁.lastLogTerm < candLastTerm) ||
    (decide (n₁.lastLogTerm = candLastTerm) && decide (n₁.lastLogIndex ≤ candLastIndex))
  let canVote := n₁.votedFor.isNone || n₁.votedFor == some candidate
  if term = n₁.currentTerm ∧ logOk ∧ canVote then
    let n₂ := (({ n₁ with votedFor := some candidate }.resetElectionTimer).persistHardState)
    (n₂, [(candidate, .requestVoteResp n₂.currentTerm true)])
  else (n₁, [(candidate, .requestVoteResp n₁.currentTerm false)])

/-- `handle_request_vote_resp`. -/
def handleRequestVoteResp (sender : ReplicaId) (term : ℕ) (granted : Bool) :
    Node σ × List Out :=
  if n.currentTerm < term then (n.becomeFollower term none, [])
  else if n.role ≠ .candidate ∨ term ≠ n.currentTerm then (n, [])
  else if granted then
    let n₁ := { n with votes := n.votes.insert sender }
    if n₁.isQuorum n₁.votes then n₁.becomeLeader M else (n₁, [])
  else (n, [])

/-! ## Replication -/

/-- `handle_append_entries`. -/
def handleAppendEntries (term : ℕ) (leader : ReplicaId) (prevLogIndex : ℕ)
    (prevLogTerm : ℕ) (entries : List Entry) (leaderCommit : ℕ) (readSeq : ℕ) :
    Node σ × List Out :=
  if term < n.currentTerm then
    (n, [(leader, .appendEntriesResp n.currentTerm false 0 0 readSeq)])
  else
    let n₁ := n.becomeFollower term (some leader)
    if n₁.store.termAt prevLogIndex ≠ some prevLogTerm then
      let conflictIndex :=
        if n₁.lastLogIndex < prevLogIndex then n₁.lastLogIndex + 1 else prevLogIndex
      (n₁, [(leader, .appendEntriesResp n₁.currentTerm false 0 conflictIndex readSeq)])
    else
      let matchIndex := prevLogIndex + entries.length
      let n₂ := { n₁ with store := entries.foldl MemLogStore.splice n₁.store }.recomputeConfig
      let n₃ :=
        if n₂.commitIndex < leaderCommit then
          ({ n₂ with commitIndex := min leaderCommit n₂.lastLogIndex }.persistHardState)
            |>.applyCommitted M
        else n₂
      (n₃, [(leader, .appendEntriesResp n₃.currentTerm true matchIndex 0 readSeq)])

/-- `handle_install_snapshot`. -/
def handleInstallSnapshot (term : ℕ) (leader : ReplicaId) (lastIncludedIndex : ℕ)
    (lastIncludedTerm : ℕ) (lastIncludedConfig : ConfState) (data : Bytes) (readSeq : ℕ) :
    Node σ × List Out :=
  if term < n.currentTerm then
    (n, [(leader, .appendEntriesResp n.currentTerm false 0 0 readSeq)])
  else
    let n₁ := n.becomeFollower term (some leader)
    if lastIncludedIndex ≤ n₁.store.baseIndex then
      (n₁, [(leader, .appendEntriesResp n₁.currentTerm true n₁.lastLogIndex 0 readSeq)])
    else
      let store₁ :=
        if n₁.store.termAt lastIncludedIndex ≠ some lastIncludedTerm then
          n₁.store.truncateSuffix (n₁.store.baseIndex + 1)
        else n₁.store
      let n₂ := { n₁ with
        sm := M.restore n₁.sm data
        store := store₁.saveSnapshot ⟨lastIncludedIndex, lastIncludedTerm, data⟩
        baseConfig := lastIncludedConfig
        commitIndex := max n₁.commitIndex lastIncludedIndex
        lastApplied := max n₁.lastApplied lastIncludedIndex }
      let n₃ := n₂.persistHardState.recomputeConfig
      (n₃, [(leader, .appendEntriesResp n₃.currentTerm true lastIncludedIndex 0 readSeq)])

/-- `handle_append_entries_resp`. -/
def handleAppendEntriesResp (sender : ReplicaId) (term : ℕ) (success : Bool)
    (matchIndex conflictIndex : ℕ) (readSeq : ℕ) : Node σ × List Out :=
  if n.currentTerm < term then (n.becomeFollower term none, [])
  else if n.role ≠ .leader ∨ term ≠ n.currentTerm then (n, [])
  else
    let n₁ := { n with
      ackedSeq := fun p =>
        if p = sender then some (max readSeq ((n.ackedSeq sender).getD 0)) else n.ackedSeq p }
    if success then
      let n₂ := { n₁ with
        matchIndex := fun p => if p = sender then some matchIndex else n₁.matchIndex p
        nextIndex := fun p => if p = sender then some (matchIndex + 1) else n₁.nextIndex p }
      ((n₂.maybeAdvanceCommit M).serveReads M, [])
    else
      let ni := (n₁.nextIndex sender).getD 1
      let backed :=
        if 0 < conflictIndex then max (min conflictIndex (ni - 1)) 1 else max (ni - 1) 1
      let n₂ := { n₁ with
        nextIndex := fun p => if p = sender then some backed else n₁.nextIndex p }.serveReads M
      (n₂, [(sender, n₂.appendFor sender)])

/-! ## What drives a replica -/

/-- `on_tick`. -/
def onTick : Node σ × List Out :=
  if n.role = .leader then
    let n₁ := { n with heartbeatElapsed := n.heartbeatElapsed + 1 }
    if n₁.cfg.heartbeatInterval ≤ n₁.heartbeatElapsed then
      { n₁ with heartbeatElapsed := 0 }.broadcastAppend
    else (n₁, [])
  else if n.id ∉ n.config.voters then (n, [])
  else
    let n₁ := { n with electionElapsed := n.electionElapsed + 1 }
    if n₁.electionTimeout ≤ n₁.electionElapsed then n₁.startElection M else (n₁, [])

/-- `propose`. -/
def propose (command : Bytes) : Option ℕ × Node σ × List Out :=
  if n.role = .leader then
    let r := (n.appendLocal (.command command)).broadcastAppend
    (some (n.lastLogIndex + 1), r.1.maybeAdvanceCommit M, r.2)
  else (none, n, [])

/-- `propose_conf`: one change at a time. -/
def proposeConf (newVoters : List ReplicaId) : Bool × Node σ × List Out :=
  if n.role = .leader then
    match n.config with
    | .simple old =>
      let joint := ConfState.joint old (ConfState.sorted newVoters)
      (true, (n.appendLocal (.config joint)).broadcastAppend)
    | .joint _ _ => (false, n, [])
  else (false, n, [])

/-- `read`. -/
def read (reqId : ℕ) (query : Bytes) : Node σ × List Out :=
  if n.role = .leader then
    let r := n.broadcastAppend
    let n₁ : Node σ := { r.1 with
      pendingReads := r.1.pendingReads ++ [⟨reqId, query, r.1.commitIndex, r.1.readSeq⟩] }
    (n₁.serveReads M, r.2)
  else ({ n with readyReads := n.readyReads ++ [(reqId, .notLeader)] }, [])

/-- `take_ready_reads`. -/
def takeReadyReads : List (ℕ × ReadResult) × Node σ := (n.readyReads, { n with readyReads := [] })

/-- `take_applied`. -/
def takeApplied : List Applied × Node σ := (n.appliedOutbox, { n with appliedOutbox := [] })

/-- `on_message`. -/
def onMessage (sender : ReplicaId) (msg : Message) : Node σ × List Out :=
  match msg with
  | .requestVote term candidate lastIndex lastTerm =>
    n.handleRequestVote term candidate lastIndex lastTerm
  | .requestVoteResp term granted => n.handleRequestVoteResp M sender term granted
  | .appendEntries term leader prevIndex prevTerm entries leaderCommit readSeq =>
    n.handleAppendEntries M term leader prevIndex prevTerm entries leaderCommit readSeq
  | .appendEntriesResp term success matchIndex conflictIndex readSeq =>
    n.handleAppendEntriesResp M sender term success matchIndex conflictIndex readSeq
  | .installSnapshot term leader lastIndex lastTerm lastConfig data readSeq =>
    n.handleInstallSnapshot M term leader lastIndex lastTerm lastConfig data readSeq

/-- `new_with_store`. -/
def newWithStore (id : ReplicaId) (voters : List ReplicaId) (cfg : Config) (sm : σ)
    (store : MemLogStore) : Node σ :=
  let initial := ConfState.simple (ConfState.sorted voters)
  resetElectionTimer
    { id := id, config := initial, baseConfig := initial, cfg := cfg, currentTerm := 0
      votedFor := none, store := store, role := .follower, leaderId := none, commitIndex := 0
      lastApplied := 0, appliedOutbox := [], votes := [], nextIndex := fun _ => none
      matchIndex := fun _ => none, readSeq := 0, ackedSeq := fun _ => none, pendingReads := []
      readyReads := [], electionElapsed := 0, heartbeatElapsed := 0, electionTimeout := 0
      rng := (id * 0x9E3779B97F4A7C15 % 2 ^ 64) ||| 1, sm := sm, history := [] }

/-- `new`. -/
def new (id : ReplicaId) (voters : List ReplicaId) (cfg : Config) (sm : σ) : Node σ :=
  newWithStore id voters cfg sm .new

/-- `restore_from`: the replica resumes from its store, as a follower. -/
def restoreFrom (id : ReplicaId) (voters : List ReplicaId) (cfg : Config) (sm : σ)
    (store : MemLogStore) : Node σ :=
  let n₀ := newWithStore id voters cfg sm store
  let hs := store.hardState
  let n₁ := { n₀ with currentTerm := hs.term, votedFor := hs.votedFor }
  let n₂ :=
    match store.loadSnapshot with
    | some snap => { n₁ with sm := M.restore n₁.sm snap.data, lastApplied := snap.lastIncludedIndex }
    | none => n₁
  let n₃ := { n₂ with
    baseConfig := store.configAt n₂.baseConfig store.baseIndex
    commitIndex := max hs.commitIndex store.baseIndex
    lastApplied := max n₂.lastApplied store.baseIndex }
  n₃.recomputeConfig.applyCommitted M

end Node

end CrabScheme.Raft
