import CrabScheme.Raft.Local

/-!
# Resuming from the store

A replica that resumes from its store has its term, its vote and its log as they were. Its state
machine is the snapshot with the committed entries applied again; it is the one the replica had, as
long as no applied entry was replaced and no snapshot was installed behind what was applied. Its
membership is the last one in the live log, or else the one it was first started with: a membership
that a snapshot covers is not stored.

## Main results

* `Setup.recoverable_run` — every state of a run of such actions is recoverable.
* `Setup.restart_resumes` — what a replica is after a restart.
-/

namespace CrabScheme.Raft

open MemLogStore

open Relation (ReflTransGen)

variable {σ : Type}

/-! ## Snapshots are of state machines -/

/-- The snapshot a message carries is one of a state machine. -/
def Message.Genuine (M : StateMachine σ) : Message → Prop
  | .installSnapshot _ _ _ _ _ data _ => ∃ s, data = M.snapshot s
  | _ => True

/-- The snapshot of a store is one of a state machine, and a leader only sends one it has. -/
structure View.Genuine (M : StateMachine σ) (v : View σ) : Prop where
  data : v.store.hasSnapshot = true → ∃ s, v.store.snapshotData = M.snapshot s
  base : 0 < v.store.baseIndex → v.store.hasSnapshot = true
  next : ∀ p k, v.nextIndex p = some k → 1 ≤ k

namespace View.Genuine

variable {M : StateMachine σ} {v : View σ}

lemma appendFor (h : v.Genuine M) (p : ReplicaId) : (v.appendFor p).Genuine M := by
  unfold View.appendFor
  dsimp only
  split_ifs with hnext
  · refine h.data (h.base ?_)
    cases hp : v.nextIndex p with
    | none =>
      rw [hp] at hnext
      exact hnext
    | some k =>
      rw [hp] at hnext
      exact (h.next p k hp).trans hnext
  · trivial

lemma move {R : Rules} {inbox : ReplicaId → Message → Prop} {v' : View σ} {o : List Out}
    (h : v.Genuine M) (hin : ∀ s m, inbox s m → m.Genuine M) (hm : Move M R inbox v v' o) :
    v'.Genuine M ∧ ∀ x ∈ o, x.2.Genuine M := by
  cases hm with
  | send ps =>
    refine ⟨h, fun x hx => ?_⟩
    obtain ⟨p, -, rfl⟩ := List.mem_map.mp hx
    exact h.appendFor p
  | solicit ps =>
    refine ⟨h, fun x hx => ?_⟩
    obtain ⟨p, -, rfl⟩ := List.mem_map.mp hx
    trivial
  | win =>
    refine ⟨⟨h.data, h.base, fun p k hp => ?_⟩, nofun⟩
    obtain ⟨-, hk⟩ := Option.ite_none_right_eq_some.mp hp
    cases hk
    exact Nat.succ_pos _
  | matched =>
    refine ⟨⟨h.data, h.base, fun p k hp => ?_⟩, nofun⟩
    dsimp only [View.matched] at hp
    split_ifs at hp with hps
    · cases hp
      exact Nat.succ_pos _
    · exact h.next p k hp
  | back _ _ hk =>
    refine ⟨⟨h.data, h.base, fun p k hp => ?_⟩, nofun⟩
    dsimp only [View.back] at hp
    split_ifs at hp with hps
    · cases hp
      exact hk
    · exact h.next p k hp
  | apply =>
    refine ⟨?_, nofun⟩
    unfold View.applyNext
    split <;> exact ⟨h.data, h.base, h.next⟩
  | compact => exact ⟨⟨fun _ => ⟨_, rfl⟩, fun _ => rfl, h.next⟩, nofun⟩
  | @accept _ _ _ _ es =>
    obtain ⟨hhas, hdata⟩ := v.store.splices_snapshot es
    have hstore : (es.foldl splice v.store).baseIndex = v.store.baseIndex :=
      splices_baseIndex _ _
    refine ⟨⟨fun hs => ?_, fun hb => ?_, h.next⟩, by simp [Message.Genuine]⟩
    · obtain ⟨s, hs⟩ := h.data (hhas.symm.trans hs)
      exact ⟨s, hdata.trans hs⟩
    · exact hhas.trans (h.base (hstore ▸ hb))
  | install _ hmsg =>
    exact ⟨⟨fun _ => hin _ _ hmsg, fun _ => rfl, h.next⟩, by simp [Message.Genuine]⟩
  | _ => exact ⟨⟨h.data, h.base, h.next⟩, by simp [Message.Genuine]⟩

end View.Genuine

/-- In every run every snapshot is one of a state machine. -/
theorem Setup.genuine_run (S : Setup σ) (as : List Action) :
    (∀ i, ((S.run as).nodes i).view.Genuine S.machine) ∧
      ∀ p ∈ (S.run as).sent, p.msg.Genuine S.machine :=
  S.every_run (fun _ => ⟨nofun, nofun, nofun⟩) (fun h hin hm => h.move hin hm)
    (fun _ h => ⟨h.data, h.base, nofun⟩) as

/-! ## Recoverable replicas -/

/-- The state machine a replica resumes with, before it applies entries again. -/
def MemLogStore.restored (M : StateMachine σ) (sm : σ) (s : MemLogStore) : σ :=
  if s.hasSnapshot then M.restore sm s.snapshotData else sm

/-- What a replica has committed is applied and in the log, and its state machine is the snapshot
with the applied entries. -/
structure Local.Replayed (M : StateMachine σ) (sm : σ) (l : Local σ) : Prop where
  kept : l.Kept
  commit : l.commitIndex = l.lastApplied
  present : l.lastApplied ≤ l.store.lastIndex
  replayed : l.sm = M.replay (l.store.restored M sm)
    (l.store.log.take (l.lastApplied - l.store.baseIndex))

/-- **The store has what the replica would need to resume**, and the applied entries are too few for
a snapshot. -/
structure Local.Recoverable (M : StateMachine σ) (sm : σ) (l : Local σ) : Prop
    extends l.Replayed M sm where
  small : 0 < l.threshold → l.lastApplied - l.store.baseIndex < l.threshold

namespace Local

variable {M : StateMachine σ} {sm : σ} {l : Local σ}

namespace Replayed

lemma length_le (h : l.Replayed M sm) :
    l.lastApplied - l.store.baseIndex ≤ l.store.log.length := by
  have := h.present
  rw [h.kept.numbered.lastIndex_eq] at this
  omega

lemma applyTo (h : l.Replayed M sm) {c : ℕ} (hle : l.lastApplied ≤ c)
    (hc : c ≤ l.store.lastIndex) : (l.applyTo M c).Replayed M sm := by
  have hbase := h.kept.base_le
  have hla : (l.applyTo M c).lastApplied = c := by
    rw [h.kept.lastApplied_applyTo hc]
    omega
  refine ⟨⟨h.kept.numbered, h.kept.config, hbase.trans (Nat.le_add_right _ _)⟩, hla.symm,
    hla.trans_le hc, ?_⟩
  rw [hla]
  show M.replay l.sm (l.due (c - l.lastApplied)) = M.replay (l.store.restored M sm)
    (l.store.log.take (c - l.store.baseIndex))
  rw [h.replayed, Local.due, StateMachine.replay, StateMachine.replay, ← List.foldl_append,
    ← List.take_add, show l.lastApplied - l.store.baseIndex + (c - l.lastApplied) =
      c - l.store.baseIndex by omega]
  rfl

lemma compact (hM : ∀ s s', M.restore s' (M.snapshot s) = s) (h : l.Replayed M sm) :
    (l.compact M).Replayed M sm ∧ (l.compact M).lastApplied = (l.compact M).store.baseIndex ∧
      (l.compact M).threshold = l.threshold := by
  unfold Local.compact
  split_ifs with hle
  · exact ⟨h, le_antisymm hle h.kept.base_le, rfl⟩
  · obtain ⟨e, he⟩ := h.kept.numbered.exists_entry (Nat.lt_of_not_le hle) h.present
    have hterm : l.store.termAt l.lastApplied = some e.term := by
      rw [Numbered.termAt_of_lt (Nat.lt_of_not_le hle), he]
      rfl
    rw [hterm]
    have hnum := h.kept.numbered.saveSnapshot (m := ⟨l.lastApplied, e.term, M.snapshot l.sm⟩)
      h.kept.base_le
    refine ⟨⟨⟨hnum, rfl, le_rfl⟩, h.commit, hnum.base_le, ?_⟩, rfl, rfl⟩
    show l.sm = M.replay (M.restore sm (M.snapshot l.sm)) (List.take (l.lastApplied - l.lastApplied) _)
    rw [hM, Nat.sub_self]
    rfl

lemma maybeCompact (hM : ∀ s s', M.restore s' (M.snapshot s) = s) (h : l.Replayed M sm) :
    (l.maybeCompact M).Recoverable M sm := by
  unfold Local.maybeCompact
  split_ifs with hthr
  · obtain ⟨hrep, hbase, -⟩ := h.compact hM
    refine ⟨hrep, fun hpos => ?_⟩
    rw [hbase, Nat.sub_self]
    exact hpos
  · refine ⟨h, fun hpos => ?_⟩
    rw [not_and] at hthr
    exact Nat.lt_of_not_le (hthr hpos)

end Replayed

namespace Recoverable

lemma append (h : l.Recoverable M sm) (t : ℕ) (p : EntryPayload) :
    (l.append t p).Recoverable M sm where
  kept := h.kept.append t p
  commit := h.commit
  present := by
    show l.lastApplied ≤ (l.store.append _).lastIndex
    rw [Numbered.lastIndex_append]
    exact h.present.trans (Nat.le_succ _)
  small := h.small
  replayed := by
    refine h.replayed.trans ?_
    show _ = M.replay (l.store.restored M sm)
      ((l.store.log ++ _).take (l.lastApplied - l.store.baseIndex))
    rw [List.take_append_of_le_length h.length_le]

/-- **Work of the replica itself keeps it recoverable.** -/
lemma works (hM : ∀ s s', M.restore s' (M.snapshot s) = s) {l' : Local σ}
    (h : l.Recoverable M sm) (hw : Works M l l') : l'.Recoverable M sm := by
  cases hw with
  | append t p => exact h.append t p
  | advance hlt hlast =>
    have hle := h.commit ▸ hlt.le
    exact (h.toReplayed.applyTo hle hlast).maybeCompact hM
  | compact =>
    obtain ⟨hrep, hbase, -⟩ := h.toReplayed.compact hM
    refine ⟨hrep, fun hpos => ?_⟩
    rw [hbase, Nat.sub_self]
    exact hpos

lemma works_all (hM : ∀ s s', M.restore s' (M.snapshot s) = s) {l' : Local σ}
    (h : l.Recoverable M sm) (hw : ReflTransGen (Works M) l l') : l'.Recoverable M sm := by
  induction hw with
  | refl => exact h
  | tail _ hstep ih => exact ih.works hM hstep

lemma takeOver (h : l.Recoverable M sm) {es : List Entry} {prev pt : ℕ}
    (hprev : l.store.termAt prev = some pt)
    (hes : ∀ q e, es[q]? = some e → e.index = prev + q + 1)
    (hok : ∀ e ∈ es, l.store.baseIndex < e.index → e.index ≤ l.lastApplied →
      l.store.termAt e.index = some e.term) : (l.takeOver es).Recoverable M sm := by
  have hnum := h.kept.numbered
  have hle := hnum.le_of_termAt hprev
  have hkept := h.kept.takeOver hprev hes
  obtain ⟨htake, hlen⟩ := hnum.splices_take hle hes h.length_le
    fun e he hlt hm => hok e he hlt (by omega)
  have hb : (l.takeOver es).store.baseIndex = l.store.baseIndex :=
    splices_baseIndex _ _
  have hpresent : (l.takeOver es).lastApplied ≤ (l.takeOver es).store.lastIndex := by
    rw [hkept.numbered.lastIndex_eq]
    have hlen : _ ≤ (l.takeOver es).store.log.length := hlen
    show l.lastApplied ≤ _
    omega
  refine ⟨⟨hkept, h.commit, hpresent, ?_⟩, fun hpos => ?_⟩
  · obtain ⟨hhas, hdata⟩ := l.store.splices_snapshot es
    have hrest : (l.takeOver es).store.restored M sm = l.store.restored M sm := by
      unfold restored
      rw [show (l.takeOver es).store.hasSnapshot = l.store.hasSnapshot from hhas,
        show (l.takeOver es).store.snapshotData = l.store.snapshotData from hdata]
    rw [hrest, hb]
    exact h.replayed.trans (congrArg _ htake.symm)
  · rw [hb]
    exact h.small hpos

end Recoverable

/-- **A message that a replica can take without losing what it has applied.** -/
def Compatible (l : Local σ) : Message → Prop
  | .appendEntries _ _ prev pt es _ _ => l.store.termAt prev = some pt → ∀ e ∈ es,
      l.store.baseIndex < e.index → e.index ≤ l.lastApplied → l.store.termAt e.index = some e.term
  | .installSnapshot _ _ idx _ _ _ _ => l.store.baseIndex < idx → l.lastApplied ≤ idx
  | _ => True

instance (l : Local σ) (msg : Message) : Decidable (l.Compatible msg) := by
  unfold Compatible
  induction msg using Message.casesOn <;> infer_instance

/-- **What such a message brings keeps the replica recoverable.** -/
lemma Recoverable.takes (hM : ∀ s s', M.restore s' (M.snapshot s) = s) {l' : Local σ}
    {msg : Message} (h : l.Recoverable M sm) (hnum : msg.Numbered) (hgen : msg.Genuine M)
    (hf : l.Compatible msg) (ht : Takes M l msg l') : l'.Recoverable M sm := by
  cases ht with
  | @accept _ _ _ _ es c _ hprev =>
    have hover := h.takeOver hprev hnum (hf hprev)
    unfold Local.accept
    split_ifs with hc
    · refine (hover.toReplayed.applyTo (le_min ?_ hover.present) (min_le_right _ _)).maybeCompact hM
      show l.lastApplied ≤ c
      rw [← h.commit]
      exact hc.le
    · exact hover
  | @install _ _ idx it config data _ hlt =>
    obtain ⟨s, rfl⟩ := hgen
    have hla : max l.lastApplied idx = idx := max_eq_right (hf hlt)
    have hkept : (l.install M idx it config (M.snapshot s)).Kept := h.kept.takes hnum (.install hlt)
    refine ⟨⟨hkept, ?_, ?_, ?_⟩, fun hpos => ?_⟩
    · show max l.commitIndex idx = max l.lastApplied idx
      rw [h.commit]
    · show max l.lastApplied idx ≤ _
      rw [hla]
      exact hkept.numbered.base_le
    · show M.restore l.sm (M.snapshot s) = M.replay (M.restore sm (M.snapshot s))
        (List.take (max l.lastApplied idx - idx) _)
      rw [hla, hM, hM, Nat.sub_self]
      rfl
    · show max l.lastApplied idx - idx < _
      rw [hla, Nat.sub_self]
      exact hpos

end Local

/-! ## A restart -/

lemma MemLogStore.eq_of_bare {s s' : MemLogStore} (h : s.bare = s'.bare)
    (hs : s.hardState = s'.hardState) : s = s' := by
  cases s
  cases s'
  simp only [bare, saveHardState, mk.injEq] at h hs ⊢
  exact ⟨h.1, h.2.1, h.2.2.1, h.2.2.2.1, hs, h.2.2.2.2.2⟩

namespace Node

variable {M : StateMachine σ} {n : Node σ}

/-- **A replica as it resumes**, before it applies what was committed: it has its store, the state
machine of its snapshot, and the last live membership or the first one. -/
structure Resumes (M : StateMachine σ) (voters : List ReplicaId) (sm : σ) (n n₀ : Node σ) :
    Prop where
  term : n₀.currentTerm = n.currentTerm
  votedFor : n₀.votedFor = n.votedFor
  store : n₀.store = n.store
  commitIndex : n₀.commitIndex = max n.commitIndex n.store.baseIndex
  lastApplied : n₀.lastApplied = n.store.baseIndex
  sm : n₀.sm = n.store.restored M sm
  cfg : n₀.cfg = n.cfg
  kept : n₀.local.Kept
  config : n₀.config = n.store.effective (.simple (ConfState.sorted voters))

/-- **`restore_from`**: the replica resumes, and applies again what was committed. -/
lemma exists_resumes (voters : List ReplicaId) (sm : σ) (hp : n.Persisted) (hk : n.local.Kept) :
    ∃ n0, Resumes M voters sm n n0 ∧
      restoreFrom M n.id voters n.cfg sm n.store = n0.applyCommitted M := by
  have hnum : n.store.Numbered := hk.numbered
  have hbase : n.store.configAt (.simple (ConfState.sorted voters)) n.store.baseIndex =
      .simple (ConfState.sorted voters) := by
    rw [hnum.configAt_eq, Nat.sub_self]
    rfl
  refine ⟨_, ?_, rfl⟩
  unfold loadSnapshot
  cases hs : n.store.hasSnapshot with
  | false => exact ⟨hp.term, hp.votedFor, rfl, hp.commitIndex, Nat.max_eq_right (Nat.zero_le _),
      by simp [restored, hs, newWithStore, resetElectionTimer, recomputeConfig], rfl,
      ⟨hnum, rfl, le_max_right _ _⟩, congrArg n.store.effective hbase⟩
  | true => exact ⟨hp.term, hp.votedFor, rfl, hp.commitIndex, Nat.max_self _,
      by simp [restored, hs, newWithStore, resetElectionTimer, recomputeConfig], rfl,
      ⟨hnum, rfl, le_max_right _ _⟩, congrArg n.store.effective hbase⟩

lemma config_restoreFrom (voters : List ReplicaId) (sm : σ) (hp : n.Persisted)
    (hk : n.local.Kept) :
    (restoreFrom M n.id voters n.cfg sm n.store).config = n.config ↔
      n.store.lastConfigIndex ≠ none ∨ n.baseConfig = .simple (ConfState.sorted voters) := by
  obtain ⟨n0, h0, heq⟩ := exists_resumes voters sm hp hk
  have hnum : n.store.Numbered := hk.numbered
  have hown : n.config = n.store.effective n.baseConfig := hk.config
  rw [heq, config_applyCommitted n0 h0.kept, h0.config, hown]
  cases hlast : n.store.lastConfigIndex with
  | none =>
    rw [hnum.effective_of_none hlast, hnum.effective_of_none hlast, eq_comm]
    simp
  | some j =>
    obtain ⟨c, hc⟩ := hnum.effective_of_some hlast
    rw [hc, hc]
    simp

lemma Resumes.replayed {voters : List ReplicaId} {sm : σ} {n0 : Node σ}
    (h : Resumes M voters sm n n0) {c : ℕ}
    (hc : n.store.baseIndex ≤ c) (hlast : c ≤ n.store.lastIndex) :
    (n0.local.applyTo M c).Replayed M sm := by
  have hstore : n0.local.store = n.local.store := congrArg bare h.store
  have hla : n0.local.lastApplied = n0.local.store.baseIndex :=
    h.lastApplied.trans (congrArg baseIndex h.store).symm
  -- as if only the snapshot were committed
  have hstart : ({ n0.local with commitIndex := n0.lastApplied } : Local σ).Replayed M sm := by
    refine ⟨⟨h.kept.numbered, h.kept.config, h.kept.base_le⟩, rfl, ?_, ?_⟩
    · show n0.local.lastApplied ≤ n0.local.store.lastIndex
      rw [hla]
      exact h.kept.numbered.base_le
    · show n0.sm = M.replay (n0.local.store.restored M sm)
        (n0.local.store.log.take (n0.local.lastApplied - n0.local.store.baseIndex))
      rw [hla, hstore, Nat.sub_self, h.sm]
      rfl
  have hlast : c ≤ n0.store.lastIndex := h.store ▸ hlast
  exact hstart.applyTo (h.lastApplied.trans_le hc) hlast

lemma local_restoreFrom (voters : List ReplicaId) {sm : σ} (hp : n.Persisted)
    (h : n.local.Recoverable M sm) :
    ∃ n0, Resumes M voters sm n n0 ∧
      restoreFrom M n.id voters n.cfg sm n.store = n0.applyCommitted M ∧
      (n0.applyCommitted M).local = n0.local.advance M n.lastApplied := by
  obtain ⟨n0, h0, heq⟩ := exists_resumes (M := M) voters sm hp h.kept
  have hcommit : n0.commitIndex = n.lastApplied := by
    rw [h0.commitIndex, show n.commitIndex = n.lastApplied from h.commit]
    exact max_eq_left h.kept.base_le
  refine ⟨n0, h0, heq, ?_⟩
  rw [local_applyCommitted n0 h0.kept (by rw [hcommit, h0.store]; exact h.present), hcommit]

lemma recoverable_restoreFrom (hM : ∀ s s' : σ, M.restore s' (M.snapshot s) = s)
    (voters : List ReplicaId) {sm : σ} (hp : n.Persisted) (h : n.local.Recoverable M sm) :
    (restoreFrom M n.id voters n.cfg sm n.store).local.Recoverable M sm := by
  obtain ⟨n0, h0, heq, hlocal⟩ := local_restoreFrom voters hp h
  rw [heq, hlocal]
  exact (h0.replayed h.kept.base_le h.present).maybeCompact hM

/-- **A recoverable replica resumes with its log and its state machine.** -/
lemma resumes_of_recoverable (voters : List ReplicaId) {sm : σ} (hp : n.Persisted)
    (h : n.local.Recoverable M sm) :
    (restoreFrom M n.id voters n.cfg sm n.store).store = n.store ∧
      (restoreFrom M n.id voters n.cfg sm n.store).sm = n.sm := by
  obtain ⟨n0, h0, heq, hlocal⟩ := local_restoreFrom voters hp h
  have hrep : (n0.local.applyTo M n.lastApplied).Replayed M sm :=
    h0.replayed h.kept.base_le h.present
  have hla : (n0.local.applyTo M n.lastApplied).lastApplied = n.lastApplied := hrep.commit.symm
  have hbare : n0.local.store = n.local.store := congrArg bare h0.store
  -- the applied entries are too few for a snapshot
  have hfew : n0.local.advance M n.lastApplied = n0.local.applyTo M n.lastApplied := by
    refine if_neg fun hthr => ?_
    have hthr' : 0 < n.cfg.snapshotThreshold ∧
        n.cfg.snapshotThreshold ≤ n.lastApplied - n.store.baseIndex := by
      rw [hla] at hthr
      rw [← h0.cfg, ← h0.store]
      exact hthr
    exact absurd (h.small hthr'.1) (Nat.not_lt.mpr hthr'.2)
  rw [hfew] at hlocal
  rw [heq]
  constructor
  · refine eq_of_bare ((congrArg Local.store hlocal).trans hbare) ?_
    rw [(calm_applyCommitted M n0).hardState, h0.store]
  · have hsm := hrep.replayed
    rw [hla] at hsm
    calc (n0.applyCommitted M).sm
        = (n0.local.applyTo M n.lastApplied).sm := congrArg Local.sm hlocal
      _ = M.replay (n0.local.store.restored M sm)
            (n0.local.store.log.take (n.lastApplied - n0.local.store.baseIndex)) := hsm
      _ = n.sm := by
          rw [hbare]
          exact h.replayed.symm

end Node

/-! ## Every run -/

namespace Setup

variable {S : Setup σ}

/-- **An action that neither replaces an applied entry nor installs a snapshot behind what is
applied.** -/
def Compatible (c : Cluster σ) : Action → Prop
  | .deliver k =>
    match c.sent[k]? with
    | some ⟨_, i, msg⟩ => (c.nodes i).currentTerm ≤ msg.term → (c.nodes i).local.Compatible msg
    | none => True
  | _ => True

instance (c : Cluster σ) (a : Action) : Decidable (Compatible c a) := by
  unfold Compatible
  induction a using Action.casesOn with
  | deliver k =>
    dsimp only
    generalize c.sent[k]? = p
    induction p using Option.casesOn <;> infer_instance
  | _ => infer_instance

section

variable (hM : ∀ s s' : σ, S.machine.restore s' (S.machine.snapshot s) = s)

include hM

/-- **One action** keeps every replica recoverable. -/
lemma recoverable_drive {c : Cluster σ} (hproper : S.Proper c)
    (hsent : ∀ p ∈ c.sent, p.msg.Numbered ∧ p.msg.Genuine S.machine)
    (hrec : ∀ i, (c.nodes i).local.Recoverable S.machine S.sm) {a : Action} (ha : Compatible c a)
    {i : ReplicaId} {r : Node σ × List Out} (hd : S.drive c a = some (i, r)) :
    r.1.local.Recoverable S.machine S.sm := by
  cases a with
  | tick i =>
    cases hd
    exact (hrec i).works_all hM (Node.works_take _ (hrec i).kept .tick nofun)
  | propose i cmd =>
    cases hd
    by_cases hrole : (c.nodes i).role = .leader
    · exact ((hrec i).append _ _).works_all hM (Node.works_propose _ (hrec i).kept cmd hrole)
    · have hsame : ((c.nodes i).propose S.machine cmd).2.1 = c.nodes i := by
        unfold Node.propose
        rw [if_neg hrole]
      rw [hsame]
      exact hrec i
  | proposeConf i vs =>
    cases hd
    exact (hrec i).works_all hM (Node.works_take _ (hrec i).kept (.proposeConf vs) nofun)
  | read i reqId q =>
    cases hd
    rw [Node.local_read]
    exact hrec i
  | takeReadyReads i =>
    cases hd
    exact hrec i
  | takeApplied i =>
    cases hd
    obtain ⟨⟨hk, hcommit, hpresent, hreplayed⟩, hsmall⟩ := hrec i
    exact ⟨⟨⟨hk.numbered, hk.config, hk.base_le⟩, hcommit, hpresent, hreplayed⟩, hsmall⟩
  | compact i =>
    cases hd
    rw [Node.local_compact]
    exact (hrec i).works hM .compact
  | deliver k =>
    obtain ⟨⟨s, i, msg⟩, hp, hr⟩ := Option.map_eq_some_iff.mp hd
    cases hr
    obtain ⟨hnum, hgen⟩ := hsent _ (List.mem_of_getElem? hp)
    dsimp only [Compatible] at ha
    rw [hp] at ha
    obtain ⟨l, hl, hw⟩ := Node.takes_onMessage (c.nodes i) (hrec i).kept s hnum
    refine Local.Recoverable.works_all hM ?_ hw
    rcases hl with rfl | ⟨hterm, ht⟩
    · exact hrec i
    · exact (hrec i).takes hM hnum hgen (ha hterm) ht
  | restart i =>
    cases hd
    have h := Node.recoverable_restoreFrom hM S.voters (hproper.persisted i) (hrec i)
    rw [hproper.id, hproper.cfg] at h
    exact h

/-- **Every state of a run of such actions is recoverable.** -/
theorem recoverable_run {as : List Action} (has : Actions.Allowed S.step Compatible S.init as)
    (i : ReplicaId) : ((S.run as).nodes i).local.Recoverable S.machine S.sm := by
  refine S.nodes_run (I := fun n => n.local.Recoverable S.machine S.sm) (fun i => ?_)
    (fun as a i r hrec ha hd => ?_) has i
  · exact ⟨⟨⟨nofun, rfl, le_rfl⟩, rfl, le_rfl, rfl⟩, fun h => h⟩
  · exact recoverable_drive hM (proper_run as)
      (fun p hp => ⟨(S.kept_run as).2 p hp, (S.genuine_run as).2 p hp⟩) hrec ha hd

/-- **A restart.** In every run a replica that resumes from its store has its term and its vote, and
its membership exactly if that is in the live log or the first one. If no applied entry was replaced
and no snapshot was installed behind what was applied, it also has its log and, once the committed
entries are applied again, its state machine. -/
theorem restart_resumes (as : List Action) (i : ReplicaId) :
    let n := (S.run as).nodes i
    let n' := Node.restoreFrom S.machine i S.voters (S.cfg i) S.sm n.store
    n'.currentTerm = n.currentTerm ∧ n'.votedFor = n.votedFor ∧
      (n'.config = n.config ↔ n.store.lastConfigIndex ≠ none ∨ n.baseConfig = S.bootstrap) ∧
      (Actions.Allowed S.step Compatible S.init as → n'.store = n.store ∧ n'.sm = n.sm) := by
  have hproper := proper_run (S := S) as
  have hp := hproper.persisted i
  have hk := ((S.kept_run as).1 i).local
  have hself : Node.restoreFrom S.machine i S.voters (S.cfg i) S.sm ((S.run as).nodes i).store =
      Node.restoreFrom S.machine ((S.run as).nodes i).id S.voters ((S.run as).nodes i).cfg S.sm
        ((S.run as).nodes i).store := by rw [hproper.id, hproper.cfg]
  dsimp only
  rw [hself]
  refine ⟨?_, ?_, Node.config_restoreFrom S.voters S.sm hp hk, fun has => ?_⟩
  · obtain ⟨n0, h0, heq⟩ := Node.exists_resumes S.voters S.sm hp hk
    rw [heq, (Node.calm_applyCommitted S.machine n0).term, h0.term]
  · obtain ⟨n0, h0, heq⟩ := Node.exists_resumes (M := S.machine) S.voters S.sm hp hk
    rw [heq, (Node.calm_applyCommitted S.machine n0).votedFor, h0.votedFor]
  · exact Node.resumes_of_recoverable S.voters hp (recoverable_run hM has i)

end

/-- A single voter takes a snapshot, applies a command and proposes a membership. -/
def busy : List Action := [.tick 0, .compact 0, .propose 0 [5], .proposeConf 0 [0, 1]]

/-- The voter resumes with its log, its membership and its state machine. -/
theorem restart_resumes_busy :
    Actions.Allowed (ofSize 1).step Compatible (ofSize 1).init busy ∧
      (Node.restoreFrom journal 0 [0] ⟨1, 1, 1, 0⟩ [] (((ofSize 1).run busy).nodes 0).store).config =
        (((ofSize 1).run busy).nodes 0).config ∧
      (Node.restoreFrom journal 0 [0] ⟨1, 1, 1, 0⟩ [] (((ofSize 1).run busy).nodes 0).store).sm =
        (((ofSize 1).run busy).nodes 0).sm := by
  have has : Actions.Allowed (ofSize 1).step Compatible (ofSize 1).init busy := by decide +kernel
  have h := restart_resumes (S := ofSize 1) (fun _ _ => rfl) busy 0
  exact ⟨has, h.2.2.1.mpr (.inl (by decide +kernel)), (h.2.2.2 has).2⟩

/-- A single voter adds replica 1, and both commit the final membership, at index 3. -/
def grow : List Action :=
  [.tick 0, .proposeConf 0 [0, 1], .deliver 0, .deliver 1, .tick 0, .deliver 2, .deliver 3]

/-- After a snapshot of index 3 the voter is under the membership of both replicas. When it resumes
it is the only voter again. -/
theorem restart_forgets_membership :
    (((ofSize 1).run (grow ++ [Action.compact 0])).nodes 0).config = .simple [0, 1] ∧
      (((ofSize 1).run (grow ++ [Action.compact 0])).nodes 0).store.baseIndex = 3 ∧
      (Node.restoreFrom journal 0 [0] ⟨1, 1, 1, 0⟩ []
        (((ofSize 1).run (grow ++ [Action.compact 0])).nodes 0).store).config = .simple [0] := by
  decide +kernel

end Setup

end CrabScheme.Raft
