import CrabScheme.Raft.Matching

/-!
# What a leader counts on

A leader commits what a quorum has acknowledged. An acknowledgement says that a peer had the log of
the leader up to an index; it stays true while the peer has not moved on to a later term, and for
what is committed it stays true for good.

## Main results

* `Setup.commit_soundness` — acknowledged entries are there, and committed ones are
  on a quorum.
-/

namespace CrabScheme.Raft

open Replication

variable {σ : Type}

/-! ## Only a quorum lets a leader commit -/

variable {m : ℕ}

namespace Node

variable {M : StateMachine σ} {n n' n₁ n₂ : Node σ}

/-- **A leader that moved its commit index** has a quorum for it, in the membership before. -/
def Backed (n n' : Node σ) : Prop :=
  n'.role = .leader → n.commitIndex < n'.commitIndex → ∃ Q, n.config.isQuorum Q = true ∧
    ∀ p ∈ Q, p = n.id ∨ n'.commitIndex ≤ (n'.matchIndex p).getD 0

lemma backed_of_eq (h : n'.commitIndex = n.commitIndex) : Backed n n' := fun _ hlt => by omega

lemma backed_of_role (h : n'.role ≠ .leader) : Backed n n' := fun hr => absurd hr h

lemma Backed.of_calm (h : Backed n n₁) (hid : n₁.id = n.id) (hc : Calm n₁ n₂) : Backed n n₂ := by
  intro hr hlt
  rw [hc.role] at hr
  rw [hc.commitIndex] at hlt ⊢
  obtain ⟨Q, hQ, hall⟩ := h hr hlt
  refine ⟨Q, hQ, fun p hp => ?_⟩
  by_cases hpi : p = n.id
  · exact .inl hpi
  · rw [hc.matched p (hid ▸ hpi)]
    exact hall p hp

lemma Backed.congr (h : Backed n₁ n₂) (hid : n₁.id = n.id) (hci : n₁.commitIndex = n.commitIndex)
    (hconf : n₁.config = n.config) : Backed n n₂ := by
  unfold Backed at h ⊢
  rwa [hid, hci, hconf] at h

lemma maybeAdvanceCommit_id : (n.maybeAdvanceCommit M).id = n.id :=
  maybeAdvanceCommit_cases (P := fun n' => n'.id = n.id) rfl fun _ _ _ _ _ =>
    ((calm_applyCommitted M _).trans (calm_finalizeJointIfCommitted _)).id

lemma backed_maybeAdvanceCommit : Backed n (n.maybeAdvanceCommit M) := by
  refine maybeAdvanceCommit_cases (backed_of_eq rfl) fun idx _ _ _ hcomm => ?_
  have hack : ∀ p ∈ n.ackers idx, p = n.id ∨ idx ≤ (n.matchIndex p).getD 0 := by
    intro p hp
    refine (List.mem_cons.mp hp).imp_right fun hp => ?_
    exact of_decide_eq_true (List.mem_filter.mp hp).2
  have hmoved : Backed n ({ n with commitIndex := idx }.persistHardState) :=
    fun _ _ => ⟨n.ackers idx, (Bool.and_eq_true_iff.mp hcomm).2, hack⟩
  exact hmoved.of_calm rfl ((calm_applyCommitted M _).trans (calm_finalizeJointIfCommitted _))

lemma appendLocal_config {payload : EntryPayload} (h : payload.config? = none) :
    (n.appendLocal payload).config = n.config := by
  unfold appendLocal
  simp [h]

lemma backed_becomeLeader : Backed n (n.becomeLeader M).1 := by
  have hcalm := calm_appendLocal n.leading .noop
  have hconf : (n.leading.appendLocal .noop).config = n.config := appendLocal_config rfl
  have hadv : Backed n ((n.leading.appendLocal .noop).maybeAdvanceCommit M) :=
    backed_maybeAdvanceCommit.congr hcalm.id hcalm.commitIndex hconf
  exact hadv.of_calm (maybeAdvanceCommit_id.trans hcalm.id) (calm_broadcastAppend _)

lemma heard_commitIndex (t : ℕ) : (n.heard t).commitIndex = n.commitIndex := by
  unfold heard
  split
  · exact congrArg View.commitIndex (view_becomeFollower n t none)
  · rfl

lemma accepting_role (es : List Entry) (c : ℕ) : (n.accepting M es c).role = n.role := by
  unfold accepting
  split
  · exact (calm_applyCommitted M _).role
  · rfl

/-- **A branch of a handler moves the commit index of a leader only with a quorum.** -/
lemma Branch.backed {input : Input} {out : Node σ × List Out} (h : n.Branch M input out) :
    Backed n out.1 := by
  cases h with
  | ignore | outdated | wait | heartbeat | campaign | count | decline => exact backed_of_eq rfl
  | elect | win => exact backed_becomeLeader.congr rfl rfl rfl
  | refuse | vote => exact backed_of_eq (heard_commitIndex _)
  | depose | conflict | cover | install => exact backed_of_role (becomeFollower_follows n _ _)
  | accept =>
    refine backed_of_role ?_
    rw [accepting_role]
    exact becomeFollower_follows n _ _
  | @acknowledge s m _ r =>
    have hadv : Backed n ((n.matching s m r).maybeAdvanceCommit M) :=
      backed_maybeAdvanceCommit.congr rfl rfl rfl
    exact hadv.of_calm maybeAdvanceCommit_id (calm_serveReads M _)
  | back | read => exact backed_of_eq (calm_serveReads M _).commitIndex
  | @propose cmd =>
    have hcalm := (calm_appendLocal n (.command cmd)).trans (calm_broadcastAppend _)
    exact backed_maybeAdvanceCommit.congr hcalm.id hcalm.commitIndex (appendLocal_config rfl)
  | begin => exact backed_of_eq ((calm_appendLocal n _).trans (calm_broadcastAppend _)).commitIndex

end Node

namespace Setup

variable {S : Setup σ}

/-- **An action moves the commit index of a leader only with a quorum.** -/
lemma backed_of_drive {c : Cluster σ} {a : Action} {i : ReplicaId} {r : Node σ × List Out}
    (h : S.drive c a = some (i, r)) : (c.nodes i).Backed r.1 := by
  have htake (i : ReplicaId) (input : Input) :=
    (Node.branch_take S.machine (c.nodes i) input).backed
  cases a with
  | tick i => cases h; exact htake i .tick
  | propose i cmd => cases h; exact htake i (.propose cmd)
  | proposeConf i vs => cases h; exact htake i (.proposeConf vs)
  | read i reqId q => cases h; exact htake i (.read reqId q)
  | takeReadyReads i => cases h; exact Node.backed_of_eq rfl
  | takeApplied i => cases h; exact Node.backed_of_eq rfl
  | compact i => cases h; exact Node.backed_of_eq (Node.calm_compact S.machine _).commitIndex
  | deliver k =>
    obtain ⟨p, -, hp⟩ := Option.map_eq_some_iff.mp h
    cases hp
    exact htake p.receiver (.message p.sender p.msg)
  | restart i =>
    cases h
    refine Node.backed_of_role ?_
    unfold Node.restoreFrom
    rw [(Node.calm_applyCommitted S.machine _).role]
    split <;> exact nofun

lemma backed_step {c : Cluster σ} {a : Action} {i : ReplicaId} :
    (c.nodes i).Backed ((S.step a c).nodes i) := by
  unfold step
  split
  · rename_i j r hd
    by_cases hij : i = j
    · subst hij
      simpa [Cluster.act] using backed_of_drive hd
    · simpa [Cluster.act, Function.update_of_ne hij] using Node.backed_of_eq rfl
  · exact Node.backed_of_eq rfl

end Setup

/-! ## Agreement with the leader -/

namespace Node

/-- **The entry at an index**, also of the part of the log that the snapshot covers: that part is
committed, and is read off the committed entries. -/
def whole (chosen : ℕ → Entry) (n : Node σ) (idx : ℕ) : Option Entry :=
  if idx ≤ n.store.baseIndex then some (chosen idx) else n.store.entry idx

/-- **Two replicas have the same log up to an index.** -/
structure AgreesUpTo (chosen : ℕ → Entry) (n n' : Node σ) (m : ℕ) : Prop where
  left : m ≤ n.lastLogIndex
  right : m ≤ n'.lastLogIndex
  entry : ∀ idx, 0 < idx → idx ≤ m → n.whole chosen idx = n'.whole chosen idx

end Node

section Agreement

variable {S : Setup σ} {R : Rules} {g : Record} {i p : ReplicaId} {n n' : Node σ}
  {chosen : ℕ → Entry}

section

variable (h : NodeOk S R g i n.view)

include h

lemma NodeOk.whole (hch : ∀ m, m ≤ n.commitIndex → (g.log i).take m = (List.range' 1 m).map chosen)
    {idx : ℕ} (hpos : 0 < idx) : n.whole chosen idx = (g.log i)[idx - 1]? := by
  unfold Node.whole
  split
  · rename_i hbase
    have hle : n.store.baseIndex ≤ n.commitIndex := h.log.base_le.trans h.log.applied_le
    exact (getElem?_of_take_eq_range' (hch idx (hbase.trans hle)) hpos).symm
  · rename_i hbase
    exact h.log.store.entry (Nat.lt_of_not_le hbase)

lemma NodeOk.agreesUpTo (h' : NodeOk S R g p n'.view)
    (hch : ∀ m, m ≤ n.commitIndex → (g.log i).take m = (List.range' 1 m).map chosen)
    (hch' : ∀ m, m ≤ n'.commitIndex → (g.log p).take m = (List.range' 1 m).map chosen)
    (hm : m ≤ (g.log i).length) (hpre : (g.log i).take m <+: g.log p) :
    n.AgreesUpTo chosen n' m where
  left := hm.trans h.log.store.lastIndex.ge
  right := (le_length_of_take hpre hm).trans h'.log.store.lastIndex.ge
  entry idx hpos hidx := by
    rw [h.whole hch hpos, h'.whole hch' hpos]
    exact getElem?_eq_of_take_eq (take_eq_of_take hpre hm).symm (by omega)

/-- **What a peer acknowledged to the leader is there**, when no later leader it has followed
lacked it. -/
lemma NodeOk.acknowledged (h' : NodeOk S R g p n'.view) (hw : WorldOk S R g)
    (hrole : n.role = .leader) (hm : m ≤ (n.matchIndex p).getD 0)
    (hcarried : g.hist.Carried n.currentTerm m (g.synced p)) :
    m ≤ (g.log i).length ∧ (g.log i).take m <+: g.log p := by
  have hlead := h.leader hrole
  have hack : m ≤ g.hist.ack n.currentTerm p := hm.trans (hlead.matched p)
  have hlog : g.hist.llog n.currentTerm = g.log i := hlead.llog
  have hkept := h'.step.kept hack hcarried
  rw [hlog] at hkept
  exact ⟨hlog ▸ hack.trans (hw.sound.ack _ p), hkept⟩

lemma NodeOk.acknowledged_of_term (h' : NodeOk S R g p n'.view) (hw : WorldOk S R g)
    (hrole : n.role = .leader) (hterm : n'.currentTerm ≤ n.currentTerm) :
    (n.matchIndex p).getD 0 ≤ (g.log i).length ∧
      (g.log i).take ((n.matchIndex p).getD 0) <+: g.log p := by
  refine h.acknowledged h' hw hrole le_rfl fun s hs hsu => ?_
  have hsync : g.synced p ≤ n'.currentTerm := h'.step.synced_le
  omega

lemma NodeOk.acknowledged_of_commit (h' : NodeOk S R g p n'.view) (hw : WorldOk S R g)
    (hrole : n.role = .leader) (hm : n.commitIndex ≤ (n.matchIndex p).getD 0)
    : (g.log i).take n.commitIndex <+: g.log p := by
  refine (h.acknowledged h' hw hrole hm fun s hs _ hlead => ?_).2
  -- a later leader has what is committed
  have hlog : g.hist.llog n.currentTerm = g.log i := (h.leader hrole).llog
  rw [hlog]
  exact hw.sound.settled_leader h.step.settled hs.le hlead

end

end Agreement

namespace Setup

variable {S : Setup σ}

/-- **Commit soundness.** In a careful run, for one sequence of committed entries:

* a peer that has not moved on to a later term has the log of the leader up to what the leader has
  down as matched;
* when a leader moves its commit index, a quorum of the membership in effect has the log of the
  leader up to the new commit index. -/
theorem commit_soundness {as : List Action} (has : Actions.Allowed S.step S.Careful S.init as) :
    ∃ chosen : ℕ → Entry,
      (∀ k i, ∀ e ∈ ((S.run (as.take k)).nodes i).store.log,
        e.index ≤ ((S.run (as.take k)).nodes i).commitIndex → chosen e.index = e) ∧
      (∀ k i p, ((S.run (as.take k)).nodes i).role = .leader →
        ((S.run (as.take k)).nodes p).currentTerm ≤ ((S.run (as.take k)).nodes i).currentTerm →
        ((S.run (as.take k)).nodes i).AgreesUpTo chosen ((S.run (as.take k)).nodes p)
          ((((S.run (as.take k)).nodes i).matchIndex p).getD 0)) ∧
      (∀ k i, ((S.run (as.take (k + 1))).nodes i).role = .leader →
        ((S.run (as.take k)).nodes i).commitIndex <
          ((S.run (as.take (k + 1))).nodes i).commitIndex →
        ∃ Q, ((S.run (as.take k)).nodes i).config.isQuorum Q = true ∧ ∀ p ∈ Q,
          ((S.run (as.take (k + 1))).nodes i).AgreesUpTo chosen
            ((S.run (as.take (k + 1))).nodes p)
            ((S.run (as.take (k + 1))).nodes i).commitIndex) := by
  obtain ⟨G, hmono, hG⟩ := careful_run has
  have hnode := fun k => (hG k).2
  obtain ⟨chosen, hchosen⟩ := exists_chosen hmono (fun k => (hG k).1) hnode
  refine ⟨chosen, fun k i e he hle => ?_, fun k i p hrole hterm => ?_, fun k i hrole hlt => ?_⟩
  · have hget := (hnode k i).log.store.getElem?_of_mem he
    have hpos := (hnode k i).log.store.indexed _ e hget
    rw [getElem?_of_take_eq_range' (hchosen k i _ hle) (by omega)] at hget
    exact Option.some.inj hget
  · obtain ⟨hlen, hpre⟩ :=
      (hnode k i).acknowledged_of_term (hnode k p) (hG k).1 hrole hterm
    exact (hnode k i).agreesUpTo (hnode k p) (hchosen k i) (hchosen k p) hlen hpre
  · have hbacked : ((S.run (as.take k)).nodes i).Backed ((S.run (as.take (k + 1))).nodes i) := by
      cases ha : as[k]? with
      | none =>
        rw [run_take_of_none S ha]
        exact Node.backed_of_eq rfl
      | some a =>
        rw [run_take_succ S ha]
        exact backed_step
    obtain ⟨Q, hQ, hall⟩ := hbacked hrole hlt
    refine ⟨Q, hQ, fun p hp => ?_⟩
    refine (hnode (k + 1) i).agreesUpTo (hnode (k + 1) p) (hchosen (k + 1) i) (hchosen (k + 1) p)
      (hnode (k + 1) i).step.settled.1 ?_
    rcases hall p hp with hpi | hm
    · have hid : ((S.run (as.take k)).nodes i).id = i := (hnode k i).id
      rw [hpi, hid]
      exact List.take_prefix _ _
    · exact (hnode (k + 1) i).acknowledged_of_commit (hnode (k + 1) p) (hG (k + 1)).1 hrole hm

/-- Commit soundness, where replica 0 commits its first entry with its eleventh action. -/
theorem commit_soundness_twoTails :
    Actions.Allowed (ofSize 5).step (ofSize 5).Careful (ofSize 5).init twoTails ∧
    (((ofSize 5).run (twoTails.take 11)).nodes 0).role = .leader ∧
    (((ofSize 5).run (twoTails.take 10)).nodes 0).commitIndex <
      (((ofSize 5).run (twoTails.take 11)).nodes 0).commitIndex ∧
    ∃ chosen : ℕ → Entry, ∃ Q,
      (((ofSize 5).run (twoTails.take 10)).nodes 0).config.isQuorum Q = true ∧ ∀ p ∈ Q,
        (((ofSize 5).run (twoTails.take 11)).nodes 0).AgreesUpTo chosen
          (((ofSize 5).run (twoTails.take 11)).nodes p)
          (((ofSize 5).run (twoTails.take 11)).nodes 0).commitIndex := by
  have has : Actions.Allowed (ofSize 5).step (ofSize 5).Careful (ofSize 5).init twoTails := by
    decide +kernel
  have hrole : (((ofSize 5).run (twoTails.take 11)).nodes 0).role = .leader := by decide +kernel
  have hlt : (((ofSize 5).run (twoTails.take 10)).nodes 0).commitIndex <
      (((ofSize 5).run (twoTails.take 11)).nodes 0).commitIndex := by decide +kernel
  obtain ⟨chosen, -, -, hcommit⟩ := commit_soundness has
  exact ⟨has, hrole, hlt, chosen, hcommit 10 0 hrole hlt⟩

/-! ## A leader that was overtaken -/

/-- Replica 1 acknowledges an entry to replica 0, which no other replica has. Then replica 2 is
elected in term 2 by replicas 3 and 4, and replaces the entry. -/
def overtaken : List Action :=
  [.tick 0, .deliver 0, .deliver 1, .deliver 4, .deliver 5, .deliver 6, .deliver 7, .deliver 10,
    .deliver 11, .propose 0 [1], .deliver 12, .deliver 16, .tick 2, .deliver 19, .deliver 20,
    .deliver 21, .deliver 22, .deliver 24]

/-- **A match index outlives its entry**: replica 0 still leads term 1, and has replica 1 down as
matched up to index 2, where replica 1 has the entry of term 2. -/
theorem commit_soundness_overtaken :
    (((ofSize 5).run overtaken).nodes 0).role = .leader ∧
    (((ofSize 5).run overtaken).nodes 0).matchIndex 1 = some 2 ∧
    (((ofSize 5).run overtaken).nodes 0).entryAt 2 = some ⟨1, 2, .command [1]⟩ ∧
    (((ofSize 5).run overtaken).nodes 1).entryAt 2 = some ⟨2, 2, .noop⟩ := by
  decide +kernel

end Setup

end CrabScheme.Raft
