import CrabScheme.Raft.Heartbeats

/-!
# How reads are answered

A read waits at the leader that received it until a quorum has confirmed a later heartbeat and its
index is applied. This file follows reads through the handlers: only `read` adds one, a value is
only ever the answer to one that has waited, and it is taken from the state machine at the end of
the step.

## Main results

* `Setup.tends_of_drive` — what an action does to the reads of the replica.
* `Moves.served` — a read that is answered was confirmed, and its index applied.
-/

namespace CrabScheme.Raft

variable {σ : Type}

namespace Node

/-! ## Parts of handlers -/

/-- **No read is answered with a value**, and those that still wait have waited before, in the same
term. -/
structure Dormant (n n' : Node σ) : Prop where
  kept : ∀ pr ∈ n'.pendingReads, pr ∈ n.pendingReads ∧ n'.currentTerm = n.currentTerm
  earlier : ∀ {r x}, (r, ReadResult.value x) ∈ n'.readyReads → (r, .value x) ∈ n.readyReads

/-- **A value is the answer to a read that has waited**, taken from the state at the end. -/
structure Tends (M : StateMachine σ) (n n' : Node σ) : Prop where
  kept : ∀ pr ∈ n'.pendingReads, pr ∈ n.pendingReads ∧ n'.currentTerm = n.currentTerm
  earlier : ∀ {r x}, (r, ReadResult.value x) ∈ n'.readyReads → (r, .value x) ∈ n.readyReads ∨
    n'.role = .leader ∧ n'.currentTerm = n.currentTerm ∧ ∃ pr ∈ n.pendingReads,
      pr ∉ n'.pendingReads ∧ pr.reqId = r ∧ x = M.query n'.sm pr.query

variable {M : StateMachine σ} {n n₁ n₂ : Node σ}

lemma dormant_of_eq (hpend : n₁.pendingReads = n.pendingReads) (hready : n₁.readyReads = n.readyReads)
    (hterm : n₁.currentTerm = n.currentTerm) : Dormant n n₁ :=
  ⟨fun _ h => ⟨hpend ▸ h, hterm⟩, fun h => hready ▸ h⟩

lemma Dormant.trans (h : Dormant n n₁) (h' : Dormant n₁ n₂) : Dormant n n₂ where
  kept pr hpr := by
    obtain ⟨h1, ht1⟩ := h'.kept pr hpr
    obtain ⟨h0, ht0⟩ := h.kept pr h1
    exact ⟨h0, ht1.trans ht0⟩
  earlier hx := h.earlier (h'.earlier hx)

lemma Dormant.congr (h : Dormant n₁ n₂) (hpend : n₁.pendingReads = n.pendingReads)
    (hready : n₁.readyReads = n.readyReads) (hterm : n₁.currentTerm = n.currentTerm) :
    Dormant n n₂ := (dormant_of_eq hpend hready hterm).trans h

lemma Dormant.tends (h : Dormant n n₁) : Tends M n n₁ := ⟨h.kept, fun hx => .inl (h.earlier hx)⟩

lemma Dormant.then (h : Dormant n n₁) (hterm : n₁.currentTerm = n.currentTerm)
    (h' : Tends M n₁ n₂) : Tends M n n₂ where
  kept pr hpr := by
    obtain ⟨h1, ht1⟩ := h'.kept pr hpr
    exact ⟨(h.kept pr h1).1, ht1.trans hterm⟩
  earlier hx := by
    rcases h'.earlier hx with hold | ⟨hr, ht, pr, hpr, hrest⟩
    · exact .inl (h.earlier hold)
    · exact .inr ⟨hr, ht.trans hterm, pr, (h.kept pr hpr).1, hrest⟩

lemma tends_of_eq (hpend : n₁.pendingReads = n.pendingReads) (hready : n₁.readyReads = n.readyReads)
    (hterm : n₁.currentTerm = n.currentTerm) : Tends M n n₁ :=
  (dormant_of_eq hpend hready hterm).tends

lemma Tends.congr (h : Tends M n₁ n₂) (hpend : n₁.pendingReads = n.pendingReads)
    (hready : n₁.readyReads = n.readyReads) (hterm : n₁.currentTerm = n.currentTerm) :
    Tends M n n₂ := (dormant_of_eq hpend hready hterm).then hterm h

lemma Tends.trans (h : Tends M n n₁) (h' : Tends M n₁ n₂) (hrole : n₂.role = n₁.role)
    (hterm : n₂.currentTerm = n₁.currentTerm) (hsm : n₂.sm = n₁.sm) : Tends M n n₂ where
  kept pr hpr := by
    obtain ⟨h1, ht1⟩ := h'.kept pr hpr
    obtain ⟨h0, ht0⟩ := h.kept pr h1
    exact ⟨h0, ht1.trans ht0⟩
  earlier hx := by
    rcases h'.earlier hx with hold | ⟨hr, ht, pr, hpr, hrest⟩
    · rcases h.earlier hold with hold | ⟨hr, ht, pr, hpr, hgone, hid, hx⟩
      · exact .inl hold
      · refine .inr ⟨hrole.trans hr, hterm.trans ht, pr, hpr, fun hin => ?_, hid, ?_⟩
        · exact hgone (h'.kept pr hin).1
        · rw [hsm]
          exact hx
    · exact .inr ⟨hr, ht.trans (h.kept pr hpr).2, pr, (h.kept pr hpr).1, hrest⟩

lemma Tends.dormant (h : Tends M n n₁) (hnil : n.pendingReads = []) : Dormant n n₁ where
  kept := h.kept
  earlier hx := by
    rcases h.earlier hx with hold | ⟨-, -, pr, hpr, -⟩
    · exact hold
    · rw [hnil] at hpr
      cases hpr

lemma tends_serveReads (n : Node σ) : Tends M n (n.serveReads M) := by
  unfold serveReads
  split
  · rename_i hrole
    dsimp only
    refine ⟨fun pr hpr => ⟨List.mem_of_mem_filter hpr, rfl⟩, fun hx => ?_⟩
    rcases List.mem_append.mp hx with hold | hnew
    · exact .inl hold
    · obtain ⟨pr, hpr, heq⟩ := List.mem_map.mp hnew
      obtain ⟨hmem, hready⟩ := List.mem_filter.mp hpr
      cases heq
      refine .inr ⟨hrole, rfl, pr, hmem, fun hin => ?_, rfl, rfl⟩
      have := (List.mem_filter.mp hin).2
      rw [hready] at this
      cases this
  · exact tends_of_eq rfl rfl rfl

lemma serveReads_sm : (n.serveReads M).sm = n.sm := by
  unfold serveReads
  split <;> rfl

lemma serveReads_of_role (h : n.role ≠ .leader) : n.serveReads M = n := if_neg h

lemma dormant_applyNext (n : Node σ) : Dormant n (n.applyNext M) := by
  unfold applyNext
  dsimp only
  repeat' split
  all_goals exact dormant_of_eq rfl rfl rfl

lemma dormant_applyLoop (k : ℕ) (n : Node σ) : Dormant n (applyLoop M k n) := by
  induction k generalizing n with
  | zero => exact dormant_of_eq rfl rfl rfl
  | succ k ih => exact (dormant_applyNext n).trans (ih _)

lemma dormant_compact (n : Node σ) : Dormant n (n.compact M) := by
  unfold compact
  repeat' split
  all_goals exact dormant_of_eq rfl rfl rfl

lemma compact_sm : (n.compact M).sm = n.sm := by
  unfold compact
  split
  · rfl
  · split <;> rfl

lemma dormant_maybeCompact (n : Node σ) : Dormant n (n.maybeCompact M) := by
  unfold maybeCompact
  dsimp only
  split
  · exact dormant_compact n
  · exact dormant_of_eq rfl rfl rfl

lemma maybeCompact_sm : (n.maybeCompact M).sm = n.sm := by
  unfold maybeCompact
  dsimp only
  split
  · exact compact_sm
  · rfl

lemma tends_applyCommitted (n : Node σ) : Tends M n (n.applyCommitted M) := by
  have hserve : Tends M n ((applyLoop M (n.commitIndex - n.lastApplied) n).serveReads M) :=
    (dormant_applyLoop _ n).then (calm_applyLoop M _ n).term (tends_serveReads _)
  have hcalm := calm_maybeCompact M ((applyLoop M (n.commitIndex - n.lastApplied) n).serveReads M)
  exact hserve.trans (dormant_maybeCompact _).tends hcalm.role hcalm.term maybeCompact_sm

lemma dormant_applyCommitted (h : n.role ≠ .leader) : Dormant n (n.applyCommitted M) := by
  have hrole : (applyLoop M (n.commitIndex - n.lastApplied) n).role ≠ .leader := by
    rw [(calm_applyLoop M _ n).role]
    exact h
  have := (dormant_applyLoop (M := M) (n.commitIndex - n.lastApplied) n).trans
    (dormant_maybeCompact (M := M) _)
  unfold applyCommitted
  dsimp only
  rwa [serveReads_of_role hrole]

lemma dormant_appendLocal (payload : EntryPayload) (n : Node σ) :
    Dormant n (n.appendLocal payload) := by
  unfold appendLocal
  split <;> exact dormant_of_eq rfl rfl rfl

lemma dormant_finalizeJointIfCommitted (n : Node σ) : Dormant n n.finalizeJointIfCommitted := by
  unfold finalizeJointIfCommitted
  repeat' split
  all_goals exact dormant_of_eq rfl rfl rfl

lemma finalizeJointIfCommitted_sm : n.finalizeJointIfCommitted.sm = n.sm := by
  unfold finalizeJointIfCommitted
  repeat' split
  all_goals rfl

lemma tends_maybeAdvanceCommit (n : Node σ) : Tends M n (n.maybeAdvanceCommit M) := by
  refine maybeAdvanceCommit_cases (tends_of_eq rfl rfl rfl) fun idx _ _ _ _ => ?_
  have happly : Tends M n (({ n with commitIndex := idx }.persistHardState).applyCommitted M) :=
    (tends_applyCommitted _).congr rfl rfl rfl
  have hcalm := calm_finalizeJointIfCommitted
    (({ n with commitIndex := idx }.persistHardState).applyCommitted M)
  exact happly.trans (dormant_finalizeJointIfCommitted _).tends hcalm.role hcalm.term
    finalizeJointIfCommitted_sm

/-! ## Handlers -/

lemma dormant_becomeFollower (n : Node σ) (t : ℕ) (l : Option ReplicaId) :
    Dormant n (n.becomeFollower t l) := by
  have hpend : (n.becomeFollower t l).pendingReads = [] :=
    congrArg View.pendingReads (view_becomeFollower n t l)
  have hready : (n.becomeFollower t l).readyReads =
      n.readyReads ++ n.pendingReads.map fun pr => (pr.reqId, ReadResult.notLeader) :=
    congrArg View.readyReads (view_becomeFollower n t l)
  refine ⟨fun pr hpr => ?_, fun hx => ?_⟩
  · rw [hpend] at hpr
    cases hpr
  · rw [hready] at hx
    rcases List.mem_append.mp hx with hx | hx
    · exact hx
    · obtain ⟨pr, -, heq⟩ := List.mem_map.mp hx
      cases heq

lemma tends_becomeLeader (n : Node σ) : Tends M n (n.becomeLeader M).1 := by
  have hstart : Dormant n (n.leading.appendLocal .noop) :=
    (dormant_appendLocal _ n.leading).congr rfl rfl rfl
  have hadvance : Tends M n ((n.leading.appendLocal .noop).maybeAdvanceCommit M) :=
    hstart.then (calm_appendLocal n.leading .noop).term (tends_maybeAdvanceCommit _)
  exact hadvance.trans (tends_of_eq rfl rfl rfl) rfl rfl rfl

lemma dormant_campaigning (hnil : n.pendingReads = []) : Dormant n n.campaigning := by
  refine ⟨fun pr hpr => ?_, fun hx => hx⟩
  rw [show n.campaigning.pendingReads = [] from hnil] at hpr
  cases hpr

lemma dormant_heard (t : ℕ) : Dormant n (n.heard t) := by
  unfold heard
  split
  · exact dormant_becomeFollower n t none
  · exact dormant_of_eq rfl rfl rfl

lemma dormant_accepting (hrole : n.role ≠ .leader) (es : List Entry) (c : ℕ) :
    Dormant n (n.accepting M es c) := by
  have happly : ∀ n₁ : Node σ, n₁.role = n.role → n₁.pendingReads = n.pendingReads →
      n₁.readyReads = n.readyReads → n₁.currentTerm = n.currentTerm →
      Dormant n (n₁.applyCommitted M) := fun n₁ hr hp hready ht =>
    (dormant_applyCommitted (hr ▸ hrole)).congr hp hready ht
  unfold accepting
  split
  · exact happly _ rfl rfl rfl rfl
  · exact dormant_of_eq rfl rfl rfl

/-- **What a branch of a handler does to the reads**: a read that a leader receives joins those that
wait, and some are answered. -/
lemma Branch.tends {input : Input} {out : Node σ × List Out} (h : n.Branch M input out)
    (hidle : n.role ≠ .leader → n.pendingReads = []) :
    Tends M n out.1 ∨ ∃ reqId query, input = .read reqId query ∧ n.role = .leader ∧
      out.1 = (n.asked reqId query).serveReads M := by
  have hfollow (t : ℕ) (l : Option ReplicaId) := dormant_becomeFollower n t l
  cases h with
  | read hrole => exact .inr ⟨_, _, rfl, hrole, rfl⟩
  | ignore | outdated | wait | heartbeat | count => exact .inl (tends_of_eq rfl rfl rfl)
  | campaign hrole => exact .inl (dormant_campaigning (hidle hrole)).tends
  | elect hrole =>
    have hnil := hidle hrole
    exact .inl ((dormant_campaigning hnil).trans ((tends_becomeLeader _).dormant hnil)).tends
  | refuse => exact .inl (dormant_heard _).tends
  | vote => exact .inl (Dormant.tends ((dormant_heard _).trans (dormant_of_eq rfl rfl rfl)))
  | depose | conflict | cover => exact .inl (hfollow _ _).tends
  | win => exact .inl ((tends_becomeLeader _).congr rfl rfl rfl)
  | @accept _ l t =>
    have hrole := becomeFollower_follows n t (some l)
    exact .inl ((hfollow t (some l)).trans (dormant_accepting hrole _ _)).tends
  | install => exact .inl (Dormant.tends ((hfollow _ _).trans (dormant_of_eq rfl rfl rfl)))
  | @acknowledge s m _ r =>
    have hcalm := calm_serveReads M ((n.matching s m r).maybeAdvanceCommit M)
    exact .inl (((tends_maybeAdvanceCommit _).trans (tends_serveReads _) hcalm.role hcalm.term
      serveReads_sm).congr rfl rfl rfl)
  | back => exact .inl ((tends_serveReads _).congr rfl rfl rfl)
  | @propose cmd =>
    have hsent : Dormant n (n.appendLocal (.command cmd)).broadcastAppend.1 :=
      (dormant_appendLocal _ n).trans (dormant_of_eq rfl rfl rfl)
    exact .inl (hsent.then (calm_appendLocal n (.command cmd)).term (tends_maybeAdvanceCommit _))
  | begin =>
    exact .inl (Dormant.tends ((dormant_appendLocal _ n).trans (dormant_of_eq rfl rfl rfl)))
  | decline =>
    refine .inl (Dormant.tends ⟨fun _ hpr => ⟨hpr, rfl⟩, fun hx => ?_⟩)
    rcases List.mem_append.mp hx with hx | hx
    · exact hx
    · cases List.mem_singleton.mp hx

lemma dormant_restoreFrom (id : ReplicaId) (voters : List ReplicaId) (cfg : Config) (sm : σ)
    (store : MemLogStore) : Dormant n (restoreFrom M id voters cfg sm store) := by
  have hempty : ∀ n₁ : Node σ, n₁.role ≠ .leader → n₁.pendingReads = [] → n₁.readyReads = [] →
      Dormant n (n₁.applyCommitted M) := by
    intro n₁ hrole hp hr
    refine Dormant.trans ⟨fun pr hpr => ?_, fun hx => ?_⟩ (dormant_applyCommitted hrole)
    · rw [hp] at hpr
      cases hpr
    · rw [hr] at hx
      cases hx
  unfold restoreFrom
  cases store.loadSnapshot with
  | none => exact hempty _ nofun rfl rfl
  | some snap => exact hempty _ nofun rfl rfl

end Node

/-! ## Actions -/

namespace Setup

variable {S : Setup σ} {c : Cluster σ}

/-- **What an action does to the reads of the replica it drives**: a read that a leader receives
joins those that wait, and some are answered. -/
lemma tends_of_drive {a : Action} {i : ReplicaId} {r : Node σ × List Out}
    (h : S.drive c a = some (i, r))
    (hidle : (c.nodes i).role ≠ .leader → (c.nodes i).pendingReads = []) :
    (c.nodes i).Tends S.machine r.1 ∨ ∃ reqId query, a = .read i reqId query ∧
      (c.nodes i).role = .leader ∧ r.1 = ((c.nodes i).asked reqId query).serveReads S.machine := by
  have htake (i : ReplicaId) (input : Input) :=
    (Node.branch_take S.machine (c.nodes i) input).tends
  cases a with
  | tick i => cases h; exact .inl ((htake i .tick hidle).resolve_right nofun)
  | propose i cmd => cases h; exact .inl ((htake i (.propose cmd) hidle).resolve_right nofun)
  | proposeConf i vs => cases h; exact .inl ((htake i (.proposeConf vs) hidle).resolve_right nofun)
  | read i reqId q =>
    cases h
    refine (htake i (.read reqId q) hidle).imp_right ?_
    rintro ⟨_, _, heq, hrole, hread⟩
    cases heq
    exact ⟨reqId, q, rfl, hrole, hread⟩
  | takeReadyReads i =>
    cases h
    exact .inl (Node.Dormant.tends ⟨fun _ hpr => ⟨hpr, rfl⟩, nofun⟩)
  | takeApplied i => cases h; exact .inl (Node.tends_of_eq rfl rfl rfl)
  | compact i => cases h; exact .inl (Node.dormant_compact _).tends
  | deliver k =>
    obtain ⟨p, -, hp⟩ := Option.map_eq_some_iff.mp h
    cases hp
    exact .inl ((htake p.receiver (.message p.sender p.msg) hidle).resolve_right nofun)
  | restart i => cases h; exact .inl (Node.dormant_restoreFrom _ _ _ _ _).tends

end Setup

/-! ## Served reads were confirmed -/

section Served

variable {M : StateMachine σ} {R : Rules} {inbox : ReplicaId → Message → Prop}
variable {v v' : View σ} {o : List Out} {pr : PendingRead} {t : ℕ}

lemma Move.lastApplied_le (h : Move M R inbox v v' o) : v.lastApplied ≤ v'.lastApplied := by
  cases h with
  | apply =>
    unfold View.applyNext
    split <;> exact Nat.le_succ _
  | install => exact le_max_left _ _
  | _ => exact le_rfl

lemma Moves.lastApplied_le (h : Moves M R inbox v v' o) : v.lastApplied ≤ v'.lastApplied := by
  induction h with
  | refl => exact le_rfl
  | head hm _ ih => exact hm.lastApplied_le.trans ih

lemma Move.past (h : Move M R inbox v v' o) (hv : v.role = .follower ∧ t ≤ v.term ∨ t < v.term) :
    v'.role = .follower ∧ t ≤ v'.term ∨ t < v'.term := by
  cases h with
  | follow ht => exact .inl ⟨rfl, (hv.elim (fun h => h.2) fun h => h.le).trans ht⟩
  | campaign =>
    refine .inr ?_
    show t < v.term + 1
    omega
  | win hc =>
    rcases hv with ⟨hf, -⟩ | hlt
    · rw [hc] at hf
      cases hf
    · exact .inr hlt
  | apply =>
    unfold View.applyNext
    split <;> exact hv
  | _ => exact hv

lemma Moves.past (h : Moves M R inbox v v' o) (hv : v.role = .follower ∧ t ≤ v.term ∨ t < v.term) :
    v'.role = .follower ∧ t ≤ v'.term ∨ t < v'.term := by
  induction h with
  | refl => exact hv
  | head hm _ ih => exact ih (hm.past hv)

/-- **What a move does to a read that waits**: it waits on, or fails with the leadership, or it is
confirmed and its index applied. -/
lemma Move.pending_cases (h : Move M R inbox v v' o) (hr : v.role = .leader)
    (hpr : pr ∈ v.pendingReads) :
    (v'.role = .leader ∧ v'.term = v.term ∧ pr ∈ v'.pendingReads) ∨
    (v'.role = .follower ∧ v.term ≤ v'.term) ∨
    (pr.readIndex ≤ v.lastApplied ∧ (pr.minSeq = 0 ∨ v.Confirmed pr.minSeq)) := by
  cases h with
  | follow ht => exact .inr (.inl ⟨rfl, ht⟩)
  | campaign hno => exact absurd hr hno
  | win hc =>
    rw [hc] at hr
    cases hr
  | apply =>
    unfold View.applyNext
    split <;> exact .inl ⟨hr, rfl, hpr⟩
  | ask => exact .inl ⟨hr, rfl, List.mem_append_left _ hpr⟩
  | @serve ready _ hready =>
    cases hb : ready pr with
    | true => exact .inr (.inr (hready pr hb))
    | false => exact .inl ⟨hr, rfl, List.mem_filter.mpr ⟨hpr, by rw [hb]; rfl⟩⟩
  | _ => exact .inl ⟨hr, rfl, hpr⟩

/-- **A read that is gone while its leader still leads was confirmed**, and its index applied. -/
lemma Moves.served (h : Moves M R inbox v v' o) (hr : v.role = .leader)
    (hpr : pr ∈ v.pendingReads) (hr' : v'.role = .leader) (hterm : v'.term = v.term)
    (hgone : pr ∉ v'.pendingReads) :
    ∃ w o', Moves M R inbox v w o' ∧ w.term = v.term ∧ pr ∈ w.pendingReads ∧
      pr.readIndex ≤ v'.lastApplied ∧ (pr.minSeq = 0 ∨ w.Confirmed pr.minSeq) := by
  induction h with
  | refl v => exact absurd hpr hgone
  | @head v v1 v2 o1 o2 hm hms ih =>
    rcases hm.pending_cases hr hpr with ⟨hr1, ht1, hpr1⟩ | ⟨hf, ht⟩ | ⟨hidx, hconf⟩
    · obtain ⟨w, o', hw, htw, hrest⟩ := ih hr1 hpr1 hr' (hterm.trans ht1.symm) hgone
      exact ⟨w, _, .head hm hw, htw.trans ht1, hrest⟩
    · -- the replica could not lead the same term again
      rcases hms.past (.inl ⟨hf, ht⟩) with ⟨hf', -⟩ | hlt
      · rw [hr'] at hf'
        cases hf'
      · omega
    · exact ⟨v, [], .refl v, rfl, hpr, hidx.trans (hm.lastApplied_le.trans hms.lastApplied_le),
        hconf⟩

end Served

end CrabScheme.Raft
