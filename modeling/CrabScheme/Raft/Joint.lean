import CrabScheme.Raft.Local

/-!
# The end of a membership change

A membership change passes through a joint membership, and ends when the leader, having committed
the joint entry, appends the final one. `maybe_advance_commit` looks for the joint entry in the live
log after it has applied the committed entries. A snapshot that is taken while they are applied
folds the joint entry away, and the change never ends. A replica that is elected after the joint
entry was committed does not look for it before it commits something itself.

## Main results

* `Node.settled_maybeAdvanceCommit` — what `maybe_advance_commit` keeps.
* `Setup.joint_uncommitted` — every run of such actions.
-/

namespace CrabScheme.Raft

variable {σ : Type}

/-- Whether a membership is a transition. -/
def ConfState.isJoint : ConfState → Bool
  | simple _ => false
  | joint _ _ => true

/-- **A joint membership in effect is in the log, and its entry is not committed.** -/
def Local.Settled (l : Local σ) : Prop :=
  l.config.isJoint = true → ∃ j ∈ l.store.lastConfigIndex, l.commitIndex < j

instance (l : Local σ) : Decidable l.Settled :=
  inferInstanceAs (Decidable (_ → ∃ j ∈ l.store.lastConfigIndex, l.commitIndex < j))

/-- The snapshot taken when the commit index moves to `idx` folds the joint entry away. -/
def Local.Folds (l : Local σ) (idx : ℕ) : Prop :=
  l.config.isJoint = true ∧ (∃ j ∈ l.store.lastConfigIndex, j ≤ max l.lastApplied idx) ∧
    0 < l.threshold ∧ l.threshold ≤ max l.lastApplied idx - l.store.baseIndex

instance (l : Local σ) (idx : ℕ) : Decidable (l.Folds idx) :=
  inferInstanceAs (Decidable (_ ∧ (∃ j ∈ l.store.lastConfigIndex, _) ∧ _ ∧ _))

variable {p : EntryPayload} {t r : ℕ}

namespace Local

variable {M : StateMachine σ} {l : Local σ}

lemma Folds.mono {idx idx' : ℕ} (h : l.Folds idx) (hle : idx ≤ idx') : l.Folds idx' := by
  obtain ⟨hjoint, ⟨j, hj, hjle⟩, hpos, hthr⟩ := h
  exact ⟨hjoint, ⟨j, hj, by omega⟩, hpos, by omega⟩

/-! ## The steps of a leader -/

lemma Settled.append (h : l.Settled) (hk : l.Kept) (t : ℕ) (hp : p.config? = none)
    : (l.append t p).Settled := by
  intro hjoint
  have hconfig : (l.append t p).config = l.config := by simp [Local.append, hp]
  rw [hconfig] at hjoint
  obtain ⟨j, hj, hlt⟩ := h hjoint
  refine ⟨j, ?_, hlt⟩
  show j ∈ (l.store.append _).lastConfigIndex
  rw [hk.numbered.lastConfigIndex_append, hp]
  exact hj

lemma Folds.of_append (hk : l.Kept) (hp : p.config? = none) {idx : ℕ} (h : (l.append t p).Folds idx)
    : l.Folds idx := by
  obtain ⟨hjoint, hj, hthr⟩ := h
  have hconfig : (l.append t p).config = l.config := by simp [Local.append, hp]
  have hindex : (l.append t p).store.lastConfigIndex = l.store.lastConfigIndex := by
    show (l.store.append _).lastConfigIndex = _
    rw [hk.numbered.lastConfigIndex_append, hp]
    rfl
  rw [hconfig] at hjoint
  rw [hindex] at hj
  exact ⟨hjoint, hj, hthr⟩

lemma settled_append_config (hk : l.Kept) (hle : l.commitIndex ≤ l.store.lastIndex) (t : ℕ)
    (c : ConfState) : (l.append t (.config c)).Settled := by
  intro _
  refine ⟨l.store.lastIndex + 1, ?_, Nat.lt_succ_of_le hle⟩
  show _ ∈ (l.store.append _).lastConfigIndex
  rw [hk.numbered.lastConfigIndex_append]
  rfl

lemma settled_append_simple (hk : l.Kept) (t : ℕ) (vs : List ReplicaId) :
    (l.append t (.config (.simple vs))).Settled := by
  have hconfig : (l.append t (.config (.simple vs))).config = .simple vs := by
    unfold Local.append
    rw [hk.numbered.effective_append]
    rfl
  intro hjoint
  rw [hconfig] at hjoint
  cases hjoint

lemma commitIndex_compact : (l.compact M).commitIndex = l.commitIndex := by
  unfold Local.compact
  split_ifs
  · rfl
  · cases l.store.termAt l.lastApplied <;> rfl

lemma lastConfigIndex_compact (hk : l.Kept) {j : ℕ} (hj : l.store.lastConfigIndex = some j)
    (hlt : l.lastApplied < j) : (l.compact M).store.lastConfigIndex = some j := by
  unfold Local.compact
  split_ifs
  · exact hj
  · cases l.store.termAt l.lastApplied with
    | none => exact hj
    | some t => exact hk.numbered.lastConfigIndex_saveSnapshot hk.base_le hj hlt

lemma Settled.compact (h : l.Settled) (hk : l.Kept) (hle : l.lastApplied ≤ l.commitIndex) :
    (l.compact M).Settled := by
  intro hjoint
  rw [config_compact hk] at hjoint
  obtain ⟨j, hj, hlt⟩ := h hjoint
  rw [commitIndex_compact]
  exact ⟨j, lastConfigIndex_compact hk hj (by omega), hlt⟩

/-- **The commit index moves**: the membership in effect stays, and so does its entry unless it is
folded away. -/
lemma advance_keeps (hk : l.Kept) {c : ℕ} (hc : c ≤ l.store.lastIndex) (hf : ¬l.Folds c)
    (hset : l.Settled) : (l.advance M c).config = l.config ∧ (l.advance M c).commitIndex = c ∧
      (l.config.isJoint = true →
        (l.advance M c).store.lastConfigIndex = l.store.lastConfigIndex) := by
  have hk' : (l.applyTo M c).Kept :=
    ⟨hk.numbered, hk.config, hk.base_le.trans (Nat.le_add_right _ _)⟩
  have hla := hk.lastApplied_applyTo (M := M) hc
  unfold Local.advance Local.maybeCompact
  split_ifs with hthr
  · refine ⟨config_compact hk', commitIndex_compact, fun hjoint => ?_⟩
    obtain ⟨j, hj, -⟩ := hset hjoint
    have hkeep : max l.lastApplied c < j := by
      by_contra hge
      rw [hla] at hthr
      exact hf ⟨hjoint, ⟨j, hj, Nat.le_of_not_lt hge⟩, hthr⟩
    rw [lastConfigIndex_compact hk' hj (hla ▸ hkeep)]
    exact hj.symm
  · exact ⟨rfl, rfl, fun _ => rfl⟩

end Local

namespace Node

variable {M : StateMachine σ} {n : Node σ}

/-- **`maybe_advance_commit`**: a joint membership is ended when its entry is committed, unless a
snapshot folds the entry away. -/
lemma settled_maybeAdvanceCommit (hk : n.local.Kept) (h : n.local.Settled)
    (hf : ∀ idx, n.commitIndex < idx → idx ≤ n.lastLogIndex → n.committable idx = true →
      ¬n.local.Folds idx) : (n.maybeAdvanceCommit M).local.Settled := by
  refine maybeAdvanceCommit_cases (P := fun n' => n'.local.Settled) h
    fun idx hrole hlt hlast hcomm => ?_
  have hnofold := hf idx hlt hlast hcomm
  -- the replica after the committed entries are applied
  generalize hn1 : ({ n with commitIndex := idx }.persistHardState).applyCommitted M = n1
  have happly : n1.local = n.local.advance M idx := by
    rw [← hn1]
    exact local_applyCommitted _ ⟨hk.numbered, hk.config, hk.base_le⟩ hlast
  have hrole1 : n1.role = .leader := by
    rw [← hn1, (calm_applyCommitted M _).role]
    exact hrole
  have hk1 : n1.local.Kept := happly ▸ hk.advance idx
  obtain ⟨hconfig, hcommit, hcfgidx⟩ := Local.advance_keeps hk hlast hnofold h
  rw [← happly] at hconfig hcommit hcfgidx
  unfold finalizeJointIfCommitted
  rw [if_pos hrole1]
  cases hc : n1.config with
  | simple vs =>
    intro hjoint
    rw [show n1.local.config = .simple vs from hc] at hjoint
    cases hjoint
  | joint old new =>
    have hjoint : n.local.config.isJoint = true := by
      rw [← hconfig, show n1.local.config = .joint old new from hc]
      rfl
    obtain ⟨j, hj, -⟩ := h hjoint
    have hj1 : n1.store.lastConfigIndex = some j := (hcfgidx hjoint).trans hj
    dsimp only
    rw [hj1]
    dsimp only
    split
    · exact Local.settled_append_simple hk1 _ _
    · rename_i hle
      exact fun _ => ⟨j, hj1, Nat.lt_of_not_le hle⟩

lemma isQuorum_ackers_appendLocal (n : Node σ) (hp : p.config? = none) (idx : ℕ) :
    (n.appendLocal p).isQuorum ((n.appendLocal p).ackers idx) = n.isQuorum (n.ackers idx) := by
  have hpeers : ∀ q ∈ n.peers, q ≠ n.id := fun q hq => of_decide_eq_true (List.mem_filter.mp hq).2
  have hackers : (n.appendLocal p).ackers idx = n.ackers idx := by
    have hconfig : (n.appendLocal p).peers = n.peers := by simp [appendLocal, peers, hp]
    unfold ackers
    rw [hconfig, (calm_appendLocal n p).id]
    congr 1
    refine List.filter_congr fun q hq => ?_
    rw [(calm_appendLocal n p).matched q (hpeers q hq)]
  rw [hackers]
  simp [isQuorum, appendLocal, hp]

lemma settled_becomeLeader (hk : n.local.Kept) (h : n.local.Settled)
    (hf : n.isQuorum [n.id] = true → ¬n.local.Folds (n.lastLogIndex + 1)) :
    (n.becomeLeader M).1.local.Settled := by
  have happ : (n.leading.appendLocal .noop).local = n.local.append n.currentTerm .noop :=
    local_appendLocal _ _
  show ((n.leading.appendLocal .noop).maybeAdvanceCommit M).local.Settled
  refine settled_maybeAdvanceCommit (happ ▸ hk.append _ _) (happ ▸ h.append hk _ rfl) ?_
  intro idx hlt hle hcomm hfold
  -- no peer has acknowledged anything yet
  have hackers : n.leading.ackers idx = [n.id] := by
    unfold ackers
    rw [List.filter_eq_nil_iff.mpr]
    · rfl
    · intro p hp
      have hmatch : n.leading.matchIndex p = some 0 := if_pos hp
      simp only [hmatch, Option.getD_some, decide_eq_true_eq]
      omega
  have hquorum := (Bool.and_eq_true_iff.mp hcomm).2
  rw [isQuorum_ackers_appendLocal n.leading rfl, hackers] at hquorum
  have hlast : (n.leading.appendLocal .noop).lastLogIndex = n.lastLogIndex + 1 :=
    (congrArg (fun l => l.store.lastIndex) happ).trans (MemLogStore.Numbered.lastIndex_append _)
  exact hf hquorum ((hfold.of_append hk rfl).mono (hlast ▸ hle))

end Node

/-! ## Every run -/

/-- A replica can take over as leader without leaving a membership change open. -/
def Node.Ready (n : Node σ) : Prop :=
  n.local.Settled ∧ (n.isQuorum [n.id] = true → ¬n.local.Folds (n.lastLogIndex + 1))

instance (n : Node σ) : Decidable n.Ready :=
  inferInstanceAs (Decidable (_ ∧ (_ → ¬_)))

/-- No index that a leader can commit folds a joint entry away, if its log ends at `last` and its
peers have acknowledged as much as `acked` says. -/
def Node.Unfolded (n : Node σ) (last : ℕ) (acked : ReplicaId → ℕ) : Prop :=
  ∀ idx ∈ List.range' (n.commitIndex + 1) (last - n.commitIndex),
    (idx ≤ n.lastLogIndex → n.store.termAt idx = some n.currentTerm) →
    n.isQuorum (n.id :: n.peers.filter fun p => decide (idx ≤ acked p)) = true →
    ¬n.local.Folds idx

instance (n : Node σ) (last : ℕ) (acked : ReplicaId → ℕ) : Decidable (n.Unfolded last acked) :=
  inferInstanceAs (Decidable (∀ idx ∈ List.range' _ _, (_ → _) → _ → ¬n.local.Folds idx))

namespace Setup

variable (S : Setup σ)

/-- **An action that leaves no membership change open**: a replica that is elected has no committed
joint entry, no commit folds a joint entry away, and a leader that proposes a membership or takes a
snapshot has not lost what it has committed. -/
def Completes (c : Cluster σ) : Action → Prop
  | .tick i =>
    let n := c.nodes i
    n.role ≠ .leader → n.id ∈ n.config.voters → n.electionTimeout ≤ n.electionElapsed + 1 →
      n.isQuorum [n.id] = true → n.Ready
  | .propose i _ =>
    let n := c.nodes i
    n.role = .leader → n.Unfolded (n.lastLogIndex + 1) fun p => (n.matchIndex p).getD 0
  | .proposeConf i _ => (c.nodes i).role = .leader →
      (c.nodes i).commitIndex ≤ (c.nodes i).lastLogIndex
  | .compact i => (c.nodes i).role = .leader → (c.nodes i).lastApplied ≤ (c.nodes i).commitIndex
  | .deliver k =>
    match c.sent[k]? with
    | some ⟨s, i, .requestVoteResp t true⟩ =>
      let n := c.nodes i
      n.role = .candidate → t = n.currentTerm → n.isQuorum (n.votes.insert s) = true → n.Ready
    | some ⟨s, i, .appendEntriesResp t true m _ _⟩ =>
      let n := c.nodes i
      n.role = .leader → t = n.currentTerm → n.Unfolded n.lastLogIndex fun p =>
        if p = s then m else (n.matchIndex p).getD 0
    | _ => True
  | _ => True

instance (c : Cluster σ) (a : Action) : Decidable (Completes c a) := by
  unfold Completes
  induction a using Action.casesOn with
  | deliver k =>
    dsimp only
    generalize c.sent[k]? = p
    induction p using Option.casesOn with
    | none => infer_instance
    | some p =>
      induction p using Packet.casesOn with
      | mk s i msg =>
        induction msg using Message.casesOn with
        | requestVoteResp t granted => induction granted using Bool.casesOn <;> infer_instance
        | appendEntriesResp t success m ci r => induction success using Bool.casesOn <;> infer_instance
        | _ => infer_instance
  | _ => infer_instance

end Setup

namespace Node

variable {M : StateMachine σ} {n : Node σ}

lemma settled_propose (hk : n.local.Kept) (h : n.local.Settled)
    (hf : n.Unfolded (n.lastLogIndex + 1) fun p => (n.matchIndex p).getD 0) (cmd : Bytes) :
    ((n.appendLocal (.command cmd)).broadcastAppend.1.maybeAdvanceCommit M).local.Settled := by
  have happ := n.local_appendLocal (.command cmd)
  refine settled_maybeAdvanceCommit (n := (n.appendLocal (.command cmd)).broadcastAppend.1)
    (happ ▸ hk.append _ _) (happ ▸ h.append hk _ rfl) fun idx hlt hle hcomm hfold => ?_
  have hlast : (n.appendLocal (.command cmd)).lastLogIndex = n.lastLogIndex + 1 :=
    (congrArg (fun l => l.store.lastIndex) happ).trans (MemLogStore.Numbered.lastIndex_append _)
  have hle : idx ≤ n.lastLogIndex + 1 := hlast ▸ hle
  obtain ⟨hterm, hquorum⟩ := Bool.and_eq_true_iff.mp hcomm
  refine hf idx (List.mem_range'_1.mpr ⟨hlt, by omega⟩) (fun hidx => ?_) ?_ ?_
  · have hstore := congrArg (fun l => l.store.termAt idx) happ
    have hsame : (n.appendLocal (.command cmd)).store.termAt idx = n.store.termAt idx :=
      hstore.trans (hk.numbered.termAt_append _ hidx)
    rw [← hsame]
    exact of_decide_eq_true hterm
  · show n.isQuorum (n.ackers idx) = true
    rw [← isQuorum_ackers_appendLocal n (p := .command cmd) rfl]
    exact hquorum
  · exact hfold.of_append hk rfl

lemma settled_acknowledge (hk : n.local.Kept) (h : n.local.Settled) {s : ReplicaId} {m r : ℕ}
    (hf : n.Unfolded n.lastLogIndex fun p => if p = s then m else (n.matchIndex p).getD 0) :
    (((n.matching s m r).maybeAdvanceCommit M).serveReads M).local.Settled := by
  rw [local_serveReads]
  refine settled_maybeAdvanceCommit hk h fun idx hlt hle hcomm => ?_
  obtain ⟨hidx, hquorum⟩ := Bool.and_eq_true_iff.mp hcomm
  have hle : idx ≤ n.lastLogIndex := hle
  refine hf idx (List.mem_range'_1.mpr ⟨hlt, by omega⟩) (fun _ => of_decide_eq_true hidx) ?_
  refine Eq.trans (congrArg n.isQuorum (congrArg (n.id :: ·) ?_)) hquorum
  refine List.filter_congr fun p _ => ?_
  simp only [matching, apply_ite (fun o : Option ℕ => o.getD 0), Option.getD_some]

/-- A replica leads after it has heard of a candidate only if it led before. -/
lemma leads_heard {t : ℕ} (h : (n.heard t).role = .leader) : n.role = .leader := by
  unfold heard at h
  split at h
  · exact absurd h (becomeFollower_follows n t none)
  · exact h

lemma accepting_follows {t c : ℕ} {l : Option ReplicaId} {es : List Entry} :
    ((n.becomeFollower t l).accepting M es c).role ≠ .leader := by
  have hrole := becomeFollower_follows n t l
  unfold accepting
  split
  · rw [(calm_applyCommitted M _).role]
    exact hrole
  · exact hrole

end Node

namespace Setup

variable {S : Setup σ}

/-- **One action**: a replica that leads afterwards has no committed joint entry. -/
lemma settled_drive {c : Cluster σ} (hk : ∀ i, (c.nodes i).local.Kept)
    (hset : ∀ i, (c.nodes i).role = .leader → (c.nodes i).local.Settled) {a : Action}
    (ha : Completes c a) {i : ReplicaId} {r : Node σ × List Out} (hd : S.drive c a = some (i, r))
    (hleads : r.1.role = .leader) : r.1.local.Settled := by
  have htake (i : ReplicaId) (input : Input) := Node.branch_take S.machine (c.nodes i) input
  cases a with
  | tick i =>
    cases hd
    have hb := htake i .tick
    change ((c.nodes i).take S.machine .tick).1.role = .leader at hleads
    change ((c.nodes i).take S.machine .tick).1.local.Settled
    generalize (c.nodes i).take S.machine .tick = out at hb hleads ⊢
    cases hb with
    | ignore | wait => exact hset i hleads
    | heartbeat hrole => exact hset i hrole
    | campaign => cases hleads
    | elect hrole hid hdue hq =>
      have hready := ha hrole hid hdue hq
      exact Node.settled_becomeLeader (hk i) hready.1 hready.2
  | propose i cmd =>
    cases hd
    have hb := htake i (.propose cmd)
    change ((c.nodes i).take S.machine (.propose cmd)).1.role = .leader at hleads
    change ((c.nodes i).take S.machine (.propose cmd)).1.local.Settled
    generalize (c.nodes i).take S.machine (.propose cmd) = out at hb hleads ⊢
    cases hb with
    | ignore => exact hset i hleads
    | propose hrole => exact Node.settled_propose (hk i) (hset i hrole) (ha hrole) cmd
  | proposeConf i vs =>
    cases hd
    have hb := htake i (.proposeConf vs)
    change ((c.nodes i).take S.machine (.proposeConf vs)).1.role = .leader at hleads
    change ((c.nodes i).take S.machine (.proposeConf vs)).1.local.Settled
    generalize (c.nodes i).take S.machine (.proposeConf vs) = out at hb hleads ⊢
    cases hb with
    | ignore => exact hset i hleads
    | begin hrole =>
      exact Local.settled_append_config (hk i) (ha hrole) _ _
  | read i reqId q =>
    cases hd
    rw [Node.local_read]
    refine hset i ?_
    unfold Node.read at hleads
    split at hleads
    · rename_i hrole
      exact hrole
    · exact hleads
  | takeReadyReads i =>
    cases hd
    exact hset i hleads
  | takeApplied i =>
    cases hd
    exact hset i hleads
  | compact i =>
    cases hd
    have hrole := (Node.calm_compact S.machine (c.nodes i)).role.symm.trans hleads
    rw [Node.local_compact]
    exact (hset i hrole).compact (hk i) (ha hrole)
  | restart i =>
    cases hd
    unfold Node.restoreFrom at hleads
    rw [(Node.calm_applyCommitted S.machine _).role] at hleads
    cases hs : (c.nodes i).store.loadSnapshot <;> rw [hs] at hleads <;> cases hleads
  | deliver k =>
    obtain ⟨⟨s, i, msg⟩, hp, hr⟩ := Option.map_eq_some_iff.mp hd
    cases hr
    dsimp only [Completes] at ha
    rw [hp] at ha
    have hb := htake i (.message s msg)
    change ((c.nodes i).take S.machine (.message s msg)).1.role = .leader at hleads
    change ((c.nodes i).take S.machine (.message s msg)).1.local.Settled
    generalize (c.nodes i).take S.machine (.message s msg) = out at hb hleads ⊢
    cases hb with
    | ignore | outdated | count => exact hset i hleads
    | refuse | vote =>
      show (Node.heard _ _).local.Settled
      rw [Node.local_heard]
      exact hset i (Node.leads_heard hleads)
    | depose | conflict | cover | install =>
      exact absurd hleads (Node.becomeFollower_follows _ _ _)
    | accept => exact absurd hleads Node.accepting_follows
    | win hrole hq =>
      have hready := ha hrole rfl hq
      exact Node.settled_becomeLeader (hk i) hready.1 hready.2
    | acknowledge hrole =>
      exact Node.settled_acknowledge (hk i) (hset i hrole) (ha hrole rfl)
    | back hrole =>
      rw [Node.local_serveReads]
      exact hset i hrole

lemma settled_run {as : List Action} (has : Actions.Allowed S.step Completes S.init as)
    (i : ReplicaId) (hleads : ((S.run as).nodes i).role = .leader) :
    ((S.run as).nodes i).local.Settled := by
  refine S.nodes_run (I := fun n => n.role = .leader → n.local.Settled) (fun _ => nofun) ?_ has i
    hleads
  intro as a i r hset ha hd
  exact settled_drive (fun i => ((S.kept_run as).1 i).local) hset ha hd

/-- **Membership changes end.** In every run of such actions, whatever the snapshot threshold, a
leader under a joint membership has its entry in the log and has not committed it. -/
theorem joint_uncommitted {as : List Action} (has : Actions.Allowed S.step Completes S.init as)
    {i : ReplicaId} (hleads : ((S.run as).nodes i).role = .leader) {old new : List ReplicaId}
    (hjoint : ((S.run as).nodes i).config = .joint old new) :
    ∃ j, ((S.run as).nodes i).store.lastConfigIndex = some j ∧
      ((S.run as).nodes i).commitIndex < j := by
  refine settled_run has i hleads ?_
  rw [show ((S.run as).nodes i).local.config = .joint old new from hjoint]
  rfl

/-- A cluster of one voter that takes a snapshot of every two entries. -/
def folding : Setup Bytes := ⟨journal, [], [0], fun _ => ⟨1, 1, 1, 2⟩⟩

/-- The voter is elected and adds replica 1. -/
def addOne : List Action := [.tick 0, .proposeConf 0 [0, 1], .deliver 0]

/-- The joint entry waits for replica 1. -/
theorem joint_uncommitted_addOne :
    Actions.Allowed folding.step Completes folding.init addOne ∧
      ((folding.run addOne).nodes 0).role = .leader ∧
      ((folding.run addOne).nodes 0).config = .joint [0] [0, 1] ∧
      ∃ j, ((folding.run addOne).nodes 0).store.lastConfigIndex = some j ∧
        ((folding.run addOne).nodes 0).commitIndex < j := by
  have has : Actions.Allowed folding.step Completes folding.init addOne := by decide +kernel
  have hleads : ((folding.run addOne).nodes 0).role = .leader := by decide +kernel
  have hjoint : ((folding.run addOne).nodes 0).config = .joint [0] [0, 1] := by decide +kernel
  exact ⟨has, hleads, hjoint, joint_uncommitted has hleads hjoint⟩

/-- Replica 1 acknowledges the joint entry. The snapshot that is taken when it is applied folds it
away: the leader has committed it, no final membership follows, and none follows the next
commit. -/
theorem joint_uncommitted_fails :
    ((folding.run (addOne ++ [Action.deliver 1])).nodes 0).role = .leader ∧
      ((folding.run (addOne ++ [Action.deliver 1])).nodes 0).config = .joint [0] [0, 1] ∧
      ((folding.run (addOne ++ [Action.deliver 1])).nodes 0).commitIndex = 2 ∧
      ((folding.run (addOne ++ [Action.deliver 1])).nodes 0).store.lastConfigIndex = none ∧
      ((folding.run (addOne ++ [Action.deliver 1, .propose 0 [7], .deliver 2, .deliver 3])).nodes 0).config =
        .joint [0] [0, 1] ∧
      ((folding.run (addOne ++ [Action.deliver 1, .propose 0 [7], .deliver 2, .deliver 3])).nodes
        0).commitIndex = 3 := by
  decide +kernel

end Setup

end CrabScheme.Raft
