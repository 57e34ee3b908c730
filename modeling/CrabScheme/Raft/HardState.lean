import CrabScheme.Raft.Branch
import CrabScheme.Raft.Cluster

/-!
# What a restart finds

A replica that resumes has its store and nothing else. Every handler that changes the term, the
vote or the commit index saves them before it returns, so that what a crash between two handlers
leaves behind is the hard state of the replica.
-/

namespace CrabScheme.Raft

variable {σ : Type}

namespace MemLogStore

variable (s : MemLogStore)

@[simp] lemma append_hardState (es : List Entry) : (s.append es).hardState = s.hardState := rfl
@[simp] lemma append_baseIndex (es : List Entry) : (s.append es).baseIndex = s.baseIndex := rfl

@[simp] lemma truncateSuffix_hardState (idx : ℕ) :
    (s.truncateSuffix idx).hardState = s.hardState := by
  unfold truncateSuffix
  split <;> rfl

@[simp] lemma truncateSuffix_baseIndex (idx : ℕ) :
    (s.truncateSuffix idx).baseIndex = s.baseIndex := by
  unfold truncateSuffix
  split <;> rfl

@[simp] lemma splice_hardState (e : Entry) : (s.splice e).hardState = s.hardState := by
  unfold splice
  split
  · rfl
  · split
    · split <;> simp
    · rfl

@[simp] lemma splice_baseIndex (e : Entry) : (s.splice e).baseIndex = s.baseIndex := by
  unfold splice
  split
  · rfl
  · split
    · split <;> simp
    · rfl

lemma truncateSuffix_snapshot (idx : ℕ) :
    (s.truncateSuffix idx).hasSnapshot = s.hasSnapshot ∧
      (s.truncateSuffix idx).snapshotData = s.snapshotData := by
  unfold truncateSuffix
  split <;> exact ⟨rfl, rfl⟩

lemma splice_snapshot (e : Entry) : (s.splice e).hasSnapshot = s.hasSnapshot ∧
    (s.splice e).snapshotData = s.snapshotData := by
  unfold splice
  split
  · exact ⟨rfl, rfl⟩
  · split
    · split
      · exact ⟨rfl, rfl⟩
      · exact s.truncateSuffix_snapshot e.index
    · exact ⟨rfl, rfl⟩

lemma splices_snapshot (es : List Entry) : (es.foldl splice s).hasSnapshot = s.hasSnapshot ∧
    (es.foldl splice s).snapshotData = s.snapshotData := by
  induction es generalizing s with
  | nil => exact ⟨rfl, rfl⟩
  | cons e es ih =>
    rw [List.foldl_cons, (ih _).1, (ih _).2]
    exact s.splice_snapshot e

@[simp] lemma splices_hardState (es : List Entry) :
    (es.foldl splice s).hardState = s.hardState := by
  induction es generalizing s with
  | nil => rfl
  | cons e es ih => rw [List.foldl_cons, ih, splice_hardState]

@[simp] lemma splices_baseIndex (es : List Entry) :
    (es.foldl splice s).baseIndex = s.baseIndex := by
  induction es generalizing s with
  | nil => rfl
  | cons e es ih => rw [List.foldl_cons, ih, splice_baseIndex]

end MemLogStore

namespace Node

/-! ## Steps that leave the hard state alone -/

/-- **Nothing of the hard state changes**, nor the role; a snapshot may be taken. -/
structure Calm (n n' : Node σ) : Prop where
  id : n'.id = n.id
  cfg : n'.cfg = n.cfg
  role : n'.role = n.role
  term : n'.currentTerm = n.currentTerm
  votedFor : n'.votedFor = n.votedFor
  commitIndex : n'.commitIndex = n.commitIndex
  hardState : n'.store.hardState = n.store.hardState
  base : n.store.baseIndex ≤ n'.store.baseIndex
  matched : ∀ p, p ≠ n.id → n'.matchIndex p = n.matchIndex p

lemma Calm.refl (n : Node σ) : Calm n n :=
  ⟨rfl, rfl, rfl, rfl, rfl, rfl, rfl, le_rfl, fun _ _ => rfl⟩

lemma Calm.trans {n1 n2 n3 : Node σ} (h : Calm n1 n2) (h' : Calm n2 n3) : Calm n1 n3 :=
  ⟨h'.id.trans h.id, h'.cfg.trans h.cfg, h'.role.trans h.role, h'.term.trans h.term,
    h'.votedFor.trans h.votedFor, h'.commitIndex.trans h.commitIndex,
    h'.hardState.trans h.hardState, h.base.trans h'.base,
    fun p hp => (h'.matched p (h.id ▸ hp)).trans (h.matched p hp)⟩

variable (M : StateMachine σ) (n : Node σ)

lemma calm_serveReads : Calm n (n.serveReads M) := by
  unfold serveReads
  split
  · exact ⟨rfl, rfl, rfl, rfl, rfl, rfl, rfl, le_rfl, fun _ _ => rfl⟩
  · exact .refl n

lemma calm_applyNext : Calm n (n.applyNext M) := by
  unfold applyNext
  dsimp only
  split
  · exact ⟨rfl, rfl, rfl, rfl, rfl, rfl, rfl, le_rfl, fun _ _ => rfl⟩
  · split <;> exact ⟨rfl, rfl, rfl, rfl, rfl, rfl, rfl, le_rfl, fun _ _ => rfl⟩

lemma calm_applyLoop (k : ℕ) (n : Node σ) : Calm n (applyLoop M k n) := by
  induction k generalizing n with
  | zero => exact .refl n
  | succ k ih => exact (calm_applyNext M n).trans (ih _)

lemma calm_compact : Calm n (n.compact M) := by
  unfold compact
  split
  · exact .refl n
  · rename_i hbase
    split
    · exact .refl n
    · exact ⟨rfl, rfl, rfl, rfl, rfl, rfl, rfl, (Nat.lt_of_not_le hbase).le,
        fun _ _ => rfl⟩

lemma calm_maybeCompact : Calm n (n.maybeCompact M) := by
  unfold maybeCompact
  dsimp only
  split
  · exact calm_compact M n
  · exact .refl n

lemma calm_applyCommitted : Calm n (n.applyCommitted M) :=
  (calm_applyLoop M _ n).trans ((calm_serveReads M _).trans (calm_maybeCompact M _))

lemma calm_appendLocal (payload : EntryPayload) : Calm n (n.appendLocal payload) := by
  unfold appendLocal
  split <;> exact ⟨rfl, rfl, rfl, rfl, rfl, rfl, rfl, le_rfl, fun _ hp => if_neg hp⟩

lemma calm_broadcastAppend : Calm n n.broadcastAppend.1 :=
  ⟨rfl, rfl, rfl, rfl, rfl, rfl, rfl, le_rfl, fun _ _ => rfl⟩

lemma calm_finalizeJointIfCommitted : Calm n n.finalizeJointIfCommitted := by
  unfold finalizeJointIfCommitted
  split
  · split
    · exact .refl n
    · split
      · split
        · exact calm_appendLocal n _
        · exact .refl n
      · exact .refl n
  · exact .refl n

/-! ## The hard state in the store -/

/-- **The store has the hard state.** The commit index counts from the snapshot on. -/
structure Persisted (n : Node σ) : Prop where
  term : n.store.hardState.term = n.currentTerm
  votedFor : n.store.hardState.votedFor = n.votedFor
  commitIndex : max n.store.hardState.commitIndex n.store.baseIndex =
    max n.commitIndex n.store.baseIndex

variable {M n}

lemma Calm.persisted {n' : Node σ} (h : Calm n n') (hn : n.Persisted) : n'.Persisted := by
  refine ⟨by rw [h.hardState, h.term, hn.term], by rw [h.hardState, h.votedFor, hn.votedFor], ?_⟩
  have hci := hn.commitIndex
  have hbase := h.base
  rw [h.hardState, h.commitIndex]
  omega

lemma persisted_persistHardState : n.persistHardState.Persisted := ⟨rfl, rfl, rfl⟩

lemma persisted_becomeFollower (hn : n.Persisted) (t : ℕ) (l : Option ReplicaId) :
    (n.becomeFollower t l).Persisted := by
  unfold becomeFollower
  dsimp only
  split
  · exact persisted_persistHardState
  · rename_i h
    rw [decide_eq_true_eq, not_ne_iff] at h
    refine ⟨hn.term.trans h.symm, hn.votedFor.trans ?_, hn.commitIndex⟩
    simp [resetElectionTimer]

lemma persisted_maybeAdvanceCommit (hn : n.Persisted) : (n.maybeAdvanceCommit M).Persisted :=
  maybeAdvanceCommit_cases hn fun _ _ _ _ _ =>
    ((calm_applyCommitted M _).trans (calm_finalizeJointIfCommitted _)).persisted
      persisted_persistHardState

lemma persisted_becomeLeader (hn : n.Persisted) : (n.becomeLeader M).1.Persisted := by
  refine (calm_broadcastAppend _).persisted (persisted_maybeAdvanceCommit ?_)
  exact (calm_appendLocal _ _).persisted ⟨hn.term, hn.votedFor, hn.commitIndex⟩

lemma Branch.persisted {input : Input} {r : Node σ × List Out} (h : n.Branch M input r)
    (hn : n.Persisted) : r.1.Persisted := by
  have hfollow (t : ℕ) (l : Option ReplicaId) := persisted_becomeFollower hn t l
  cases h with
  | ignore | outdated => exact hn
  | wait | heartbeat | count | decline => exact ⟨hn.term, hn.votedFor, hn.commitIndex⟩
  | campaign => exact persisted_persistHardState
  | elect => exact persisted_becomeLeader persisted_persistHardState
  | refuse =>
    unfold heard
    split
    · exact hfollow _ _
    · exact hn
  | vote => exact persisted_persistHardState
  | win => exact persisted_becomeLeader ⟨hn.term, hn.votedFor, hn.commitIndex⟩
  | depose | conflict | cover => exact hfollow _ _
  | @accept _ l t _ _ es =>
    dsimp only [accepting]
    split
    · exact (calm_applyCommitted M _).persisted persisted_persistHardState
    · refine Calm.persisted ?_ (hfollow t (some l))
      exact ⟨rfl, rfl, rfl, rfl, rfl, rfl, MemLogStore.splices_hardState _ _,
        (MemLogStore.splices_baseIndex _ _).ge, fun _ _ => rfl⟩
  | install => exact ⟨rfl, rfl, rfl⟩
  | acknowledge =>
    refine (calm_serveReads M _).persisted (persisted_maybeAdvanceCommit ?_)
    exact ⟨hn.term, hn.votedFor, hn.commitIndex⟩
  | propose =>
    exact persisted_maybeAdvanceCommit
      (((calm_appendLocal n _).trans (calm_broadcastAppend _)).persisted hn)
  | begin => exact ((calm_appendLocal n _).trans (calm_broadcastAppend _)).persisted hn
  | back | read =>
    exact (calm_serveReads M _).persisted ⟨hn.term, hn.votedFor, hn.commitIndex⟩

lemma persisted_restoreFrom (i : ReplicaId) (voters : List ReplicaId) (cfg : Config) (sm : σ)
    (s : MemLogStore) : (restoreFrom M i voters cfg sm s).Persisted := by
  unfold restoreFrom
  refine (calm_applyCommitted M _).persisted ?_
  cases s.loadSnapshot with
  | none => exact ⟨rfl, rfl, (Nat.max_eq_left (Nat.le_max_right _ _)).symm⟩
  | some m => exact ⟨rfl, rfl, (Nat.max_eq_left (Nat.le_max_right _ _)).symm⟩

end Node

/-! ## Every run -/

namespace Setup

variable (S : Setup σ)

lemma persisted_drive {c : Cluster σ} (hc : ∀ i, (c.nodes i).Persisted) {a : Action}
    {i : ReplicaId} {r : Node σ × List Out} (h : S.drive c a = some (i, r)) : r.1.Persisted := by
  have htake (i : ReplicaId) (input : Input) : ((c.nodes i).take S.machine input).1.Persisted :=
    (Node.branch_take S.machine _ input).persisted (hc i)
  cases a with
  | tick i => cases h; exact htake i .tick
  | propose i cmd => cases h; exact htake i (.propose cmd)
  | proposeConf i vs => cases h; exact htake i (.proposeConf vs)
  | read i reqId q => cases h; exact htake i (.read reqId q)
  | takeReadyReads i => cases h; exact ⟨(hc i).term, (hc i).votedFor, (hc i).commitIndex⟩
  | takeApplied i => cases h; exact ⟨(hc i).term, (hc i).votedFor, (hc i).commitIndex⟩
  | compact i => cases h; exact (Node.calm_compact S.machine _).persisted (hc i)
  | deliver k =>
    obtain ⟨p, -, hp⟩ := Option.map_eq_some_iff.mp h
    cases hp
    exact htake p.receiver (.message p.sender p.msg)
  | restart i => cases h; exact Node.persisted_restoreFrom i _ _ _ _

end Setup

end CrabScheme.Raft
