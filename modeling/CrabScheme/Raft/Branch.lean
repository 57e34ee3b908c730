import CrabScheme.Raft.Node

/-!
# The branches of the handlers

A handler of a replica is a short sequence of parts: it steps down or takes over, assigns a few
fields, lets the commit index advance, answers reads. This file lists what each branch of each
handler does, with the conditions under which the code takes it. What holds after every handler is
then shown branch by branch, without looking at the code of the handlers again.

## Main results

* `Node.branch_take` — a handler takes one of the branches.
-/

namespace CrabScheme.Raft

variable {σ : Type}

/-- The term a message is of. -/
def Message.term : Message → ℕ
  | .requestVote t _ _ _ => t
  | .requestVoteResp t _ => t
  | .appendEntries t _ _ _ _ _ _ => t
  | .appendEntriesResp t _ _ _ _ => t
  | .installSnapshot t _ _ _ _ _ _ => t

/-- What a replica is driven by. -/
inductive Input
  | tick
  | message (sender : ReplicaId) (msg : Message)
  | propose (command : Bytes)
  | proposeConf (newVoters : List ReplicaId)
  | read (reqId : ℕ) (query : Bytes)

namespace Node

variable (M : StateMachine σ) (n : Node σ)

/-- The handler of an input. -/
def take : Input → Node σ × List Out
  | .tick => n.onTick M
  | .message sender msg => n.onMessage M sender msg
  | .propose command => (n.propose M command).2
  | .proposeConf newVoters => (n.proposeConf newVoters).2
  | .read reqId query => n.read M reqId query

/-! ## Parts -/

/-- The replica campaigns in the next term. -/
def campaigning : Node σ :=
  ({ n with
    role := .candidate
    currentTerm := n.currentTerm + 1
    votedFor := some n.id
    leaderId := none
    votes := [n.id] }.resetElectionTimer).persistHardState

/-- The replica takes over as leader. -/
def leading : Node σ :=
  { n with
    role := .leader
    leaderId := some n.id
    heartbeatElapsed := 0
    nextIndex := fun p => if p ∈ n.peers then some (n.lastLogIndex + 1) else none
    matchIndex := fun p => if p ∈ n.peers then some 0 else none }

/-- A candidate of a later term is heard of. -/
def heard (t : ℕ) : Node σ := if n.currentTerm < t then n.becomeFollower t none else n

/-- The vote goes to a candidate. -/
def voting (c : ReplicaId) : Node σ :=
  ({ n with votedFor := some c }.resetElectionTimer).persistHardState

/-- A vote is counted. -/
def counting (s : ReplicaId) : Node σ := { n with votes := n.votes.insert s }

/-- A peer has confirmed a heartbeat. -/
def confirming (s : ReplicaId) (r : ℕ) : Node σ :=
  { n with
    ackedSeq := fun p => if p = s then some (max r ((n.ackedSeq s).getD 0)) else n.ackedSeq p }

/-- A peer has the log up to an index. -/
def matching (s : ReplicaId) (m r : ℕ) : Node σ :=
  { n.confirming s r with
    matchIndex := fun p => if p = s then some m else n.matchIndex p
    nextIndex := fun p => if p = s then some (m + 1) else n.nextIndex p }

/-- A peer lacks entries. -/
def backing (s : ReplicaId) (k r : ℕ) : Node σ :=
  { n.confirming s r with nextIndex := fun p => if p = s then some k else n.nextIndex p }

/-- The commit index moves. -/
def committing (idx : ℕ) : Node σ := { n with commitIndex := idx }.persistHardState

/-- Entries of a leader are taken over. -/
def splicing (es : List Entry) : Node σ :=
  { n with store := es.foldl MemLogStore.splice n.store }.recomputeConfig

/-- Entries of a leader are taken over, and its commit index. -/
def accepting (es : List Entry) (c : ℕ) : Node σ :=
  if (n.splicing es).commitIndex < c then
    ((n.splicing es).committing (min c (n.splicing es).lastLogIndex)).applyCommitted M
  else n.splicing es

/-- A snapshot is installed. -/
def installing (idx t : ℕ) (config : ConfState) (data : Bytes) : Node σ :=
  let kept :=
    if n.store.termAt idx ≠ some t then n.store.truncateSuffix (n.store.baseIndex + 1) else n.store
  ({ n with
    sm := M.restore n.sm data
    store := kept.saveSnapshot ⟨idx, t, data⟩
    baseConfig := config
    commitIndex := max n.commitIndex idx
    lastApplied := max n.lastApplied idx }.persistHardState).recomputeConfig

/-- A replica that has just received a read. -/
def asked (reqId : ℕ) (query : Bytes) : Node σ :=
  { n.broadcastAppend.1 with
    pendingReads := n.pendingReads ++ [⟨reqId, query, n.commitIndex, n.readSeq + 1⟩] }

/-! ## Branches -/

/-- **What a handler does in one of its branches.** -/
inductive Branch : Input → Node σ × List Out → Prop
  | ignore {input : Input} : Branch input (n, [])
  | wait (h e : ℕ) : Branch .tick ({ n with heartbeatElapsed := h, electionElapsed := e }, [])
  | heartbeat : n.role = .leader → Branch .tick { n with heartbeatElapsed := 0 }.broadcastAppend
  | campaign : n.role ≠ .leader → n.id ∈ n.config.voters →
      Branch .tick (n.campaigning, n.campaigning.peers.map fun p =>
        (p, .requestVote n.campaigning.currentTerm n.campaigning.id n.campaigning.lastLogIndex
          n.campaigning.lastLogTerm))
  | elect : n.role ≠ .leader → n.id ∈ n.config.voters →
      n.electionTimeout ≤ n.electionElapsed + 1 → n.isQuorum [n.id] = true →
      Branch .tick (n.campaigning.becomeLeader M)
  | refuse {s c : ReplicaId} {t li lt : ℕ} : Branch (.message s (.requestVote t c li lt))
      (n.heard t, [(c, .requestVoteResp (n.heard t).currentTerm false)])
  | vote {s c : ReplicaId} {li lt : ℕ} {t : ℕ} : t = (n.heard t).currentTerm →
      ((n.heard t).lastLogTerm < lt ∨
        (n.heard t).lastLogTerm = lt ∧ (n.heard t).lastLogIndex ≤ li) →
      ((n.heard t).votedFor = none ∨ (n.heard t).votedFor = some c) →
      Branch (.message s (.requestVote t c li lt))
        ((n.heard t).voting c, [(c, .requestVoteResp (n.heard t).currentTerm true)])
  | depose {s : ReplicaId} {msg : Message} : n.currentTerm < msg.term →
      Branch (.message s msg) (n.becomeFollower msg.term none, [])
  | count {s : ReplicaId} : n.role = .candidate →
      Branch (.message s (.requestVoteResp n.currentTerm true)) (n.counting s, [])
  | win {s : ReplicaId} : n.role = .candidate → n.isQuorum (n.votes.insert s) = true →
      Branch (.message s (.requestVoteResp n.currentTerm true)) ((n.counting s).becomeLeader M)
  | outdated {s l : ReplicaId} {msg : Message} {r : ℕ} :
      Branch (.message s msg) (n, [(l, .appendEntriesResp n.currentTerm false 0 0 r)])
  | conflict {s l : ReplicaId} {t prev pt : ℕ} {es : List Entry} {c r : ℕ} (ci : ℕ) :
      n.currentTerm ≤ t → Branch (.message s (.appendEntries t l prev pt es c r))
        (n.becomeFollower t (some l),
          [(l, .appendEntriesResp (n.becomeFollower t (some l)).currentTerm false 0 ci r)])
  | accept {s l : ReplicaId} {t prev pt : ℕ} {es : List Entry} {c r : ℕ} : n.currentTerm ≤ t →
      (n.becomeFollower t (some l)).store.termAt prev = some pt →
      Branch (.message s (.appendEntries t l prev pt es c r))
        ((n.becomeFollower t (some l)).accepting M es c,
          [(l, .appendEntriesResp ((n.becomeFollower t (some l)).accepting M es c).currentTerm true
            (prev + es.length) 0 r)])
  | cover {s l : ReplicaId} {t li lt : ℕ} {config : ConfState} {data : Bytes} {r : ℕ} :
      n.currentTerm ≤ t → li ≤ (n.becomeFollower t (some l)).store.baseIndex →
      Branch (.message s (.installSnapshot t l li lt config data r))
        (n.becomeFollower t (some l), [(l, .appendEntriesResp
          (n.becomeFollower t (some l)).currentTerm true
          (n.becomeFollower t (some l)).lastLogIndex 0 r)])
  | install {s l : ReplicaId} {t li lt : ℕ} {config : ConfState} {data : Bytes} {r : ℕ} :
      n.currentTerm ≤ t → (n.becomeFollower t (some l)).store.baseIndex < li →
      Branch (.message s (.installSnapshot t l li lt config data r))
        ((n.becomeFollower t (some l)).installing M li lt config data, [(l, .appendEntriesResp
          (n.becomeFollower t (some l)).currentTerm true li 0 r)])
  | acknowledge {s : ReplicaId} {m ci r : ℕ} : n.role = .leader →
      Branch (.message s (.appendEntriesResp n.currentTerm true m ci r))
        (((n.matching s m r).maybeAdvanceCommit M).serveReads M, [])
  | back {s : ReplicaId} {m ci r k : ℕ} : n.role = .leader → 1 ≤ k →
      k ≤ max ((n.nextIndex s).getD 1 - 1) 1 →
      Branch (.message s (.appendEntriesResp n.currentTerm false m ci r))
        ((n.backing s k r).serveReads M, [(s, ((n.backing s k r).serveReads M).appendFor s)])
  | propose {command : Bytes} : n.role = .leader →
      Branch (.propose command)
        ((n.appendLocal (.command command)).broadcastAppend.1.maybeAdvanceCommit M,
          (n.appendLocal (.command command)).broadcastAppend.2)
  | begin {vs old : List ReplicaId} : n.role = .leader → n.config = .simple old →
      Branch (.proposeConf vs)
        (n.appendLocal (.config (.joint old (ConfState.sorted vs)))).broadcastAppend
  | read {reqId : ℕ} {query : Bytes} : n.role = .leader →
      Branch (.read reqId query) ((n.asked reqId query).serveReads M, n.broadcastAppend.2)
  | decline {reqId : ℕ} {query : Bytes} : n.role ≠ .leader →
      Branch (.read reqId query) ({ n with readyReads := n.readyReads ++ [(reqId, .notLeader)] }, [])

variable {M n}

lemma becomeFollower_follows (n : Node σ) (t : ℕ) (l : Option ReplicaId) :
    (n.becomeFollower t l).role ≠ .leader := by
  unfold becomeFollower
  dsimp only
  split <;> exact nofun

lemma branch_onTick : n.Branch M .tick (n.onTick M) := by
  unfold onTick
  split
  · rename_i hrole
    dsimp only
    split
    · exact .heartbeat hrole
    · exact .wait _ _
  · rename_i hrole
    split
    · exact .ignore
    · rename_i hid
      dsimp only
      split
      · rename_i hdue
        unfold startElection
        dsimp only
        split
        · rename_i hq
          exact .elect hrole (not_not.mp hid) hdue hq
        · exact .campaign hrole (not_not.mp hid)
      · exact .wait _ _

lemma branch_handleRequestVote {s c : ReplicaId} {t li lt : ℕ} :
    n.Branch M (.message s (.requestVote t c li lt)) (n.handleRequestVote t c li lt) := by
  unfold handleRequestVote
  rw [show (if n.currentTerm < t then n.becomeFollower t none else n) = n.heard t from rfl]
  dsimp only
  split
  · rename_i hcond
    obtain ⟨hterm, hlog, hvote⟩ := hcond
    exact .vote hterm (by simpa using hlog) (by simpa using hvote)
  · exact .refuse

lemma branch_handleRequestVoteResp {s : ReplicaId} {t : ℕ} {g : Bool} :
    n.Branch M (.message s (.requestVoteResp t g)) (n.handleRequestVoteResp M s t g) := by
  unfold handleRequestVoteResp
  split
  · rename_i hlt
    exact .depose (show n.currentTerm < (Message.requestVoteResp t g).term from hlt)
  · split
    · exact .ignore
    · rename_i hcond
      rw [not_or, not_not, not_not] at hcond
      obtain ⟨hrole, rfl⟩ := hcond
      split
      · rename_i hg
        subst hg
        dsimp only
        split
        · rename_i hq
          exact .win hrole hq
        · exact .count hrole
      · exact .ignore

lemma branch_handleAppendEntries {s l : ReplicaId} {t prev pt : ℕ} {es : List Entry} {c r : ℕ} :
    n.Branch M (.message s (.appendEntries t l prev pt es c r))
      (n.handleAppendEntries M t l prev pt es c r) := by
  unfold handleAppendEntries
  split
  · exact .outdated
  · rename_i hlt
    dsimp only
    split
    · exact .conflict _ (Nat.le_of_not_lt hlt)
    · rename_i hprev
      exact .accept (Nat.le_of_not_lt hlt) (not_not.mp hprev)

lemma branch_handleInstallSnapshot {s l : ReplicaId} {t li lt : ℕ} {config : ConfState}
    {data : Bytes} {r : ℕ} : n.Branch M (.message s (.installSnapshot t l li lt config data r))
      (n.handleInstallSnapshot M t l li lt config data r) := by
  unfold handleInstallSnapshot
  split
  · exact .outdated
  · rename_i hlt
    dsimp only
    split
    · rename_i hcover
      exact .cover (Nat.le_of_not_lt hlt) hcover
    · rename_i hcover
      exact .install (Nat.le_of_not_lt hlt) (Nat.lt_of_not_le hcover)

lemma branch_handleAppendEntriesResp {s : ReplicaId} {t : ℕ} {ok : Bool} {m ci r : ℕ} :
    n.Branch M (.message s (.appendEntriesResp t ok m ci r))
      (n.handleAppendEntriesResp M s t ok m ci r) := by
  unfold handleAppendEntriesResp
  split
  · rename_i hlt
    exact .depose (show n.currentTerm < (Message.appendEntriesResp t ok m ci r).term from hlt)
  · split
    · exact .ignore
    · rename_i hcond
      rw [not_or, not_not, not_not] at hcond
      obtain ⟨hrole, rfl⟩ := hcond
      dsimp only
      split
      · rename_i hok
        subst hok
        exact .acknowledge hrole
      · rename_i hok
        rw [Bool.not_eq_true] at hok
        subst hok
        exact .back hrole (by split <;> omega) (by split <;> omega)

/-- **A handler takes one of the branches.** -/
lemma branch_take (M : StateMachine σ) (n : Node σ) (input : Input) :
    n.Branch M input (n.take M input) := by
  cases input with
  | tick => exact branch_onTick
  | message s msg =>
    cases msg with
    | requestVote => exact branch_handleRequestVote
    | requestVoteResp => exact branch_handleRequestVoteResp
    | appendEntries => exact branch_handleAppendEntries
    | appendEntriesResp => exact branch_handleAppendEntriesResp
    | installSnapshot => exact branch_handleInstallSnapshot
  | propose command =>
    dsimp only [take, Node.propose]
    split
    · exact .propose ‹_›
    · exact .ignore
  | proposeConf vs =>
    dsimp only [take, Node.proposeConf]
    split
    · cases hc : n.config with
      | simple old => exact .begin ‹_› hc
      | joint => exact .ignore
    · exact .ignore
  | read reqId query =>
    dsimp only [take, Node.read]
    split
    · exact .read ‹_›
    · exact .decline ‹_›

end Node

end CrabScheme.Raft
