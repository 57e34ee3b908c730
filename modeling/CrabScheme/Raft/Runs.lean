import CrabScheme.Raft.Moves

/-!
# Invariants of runs, move by move

An invariant of a cluster speaks of a record of the past, of each replica and of each message that
was sent. This file has the rule by which such an invariant is established: it is enough that one
move of one replica keeps it, and that resuming from the store keeps it.

## Main results

* `MoveInvariant.run` — the invariant holds in every state of every run that
  follows the rules, and the record only grows.
* `Setup.nodes_run` — an invariant of single replicas, action by action.
* `Setup.every_run` — what each replica and each message keep by themselves holds in
  every run.
-/

namespace CrabScheme.Raft

variable {σ : Type}

/-- No rules: snapshots are taken at any time and arrive in any state. -/
def Rules.free : Rules := ⟨True, True, False, False, False, False⟩

namespace Setup

variable (S : Setup σ)

/-- **An action that follows the rules.** -/
def Obeys (R : Rules) (c : Cluster σ) : Action → Prop
  | .compact _ => R.compacts
  | .proposeConf _ _ => R.reconfigures
  | .deliver k => ∀ p, c.sent[k]? = some p → (c.nodes p.receiver).Receives R p.msg
  | .restart i => R.anchored → (c.nodes i).baseConfig = S.bootstrap
  | _ => True

/-- The settings follow the rules. -/
def Configured (R : Rules) : Prop := ∀ i, 0 < (S.cfg i).snapshotThreshold → R.compacts

/-- A cluster of replicas that know who they are, and whose stores have their hard states. -/
structure Proper (c : Cluster σ) : Prop where
  id : ∀ i, (c.nodes i).id = i
  cfg : ∀ i, (c.nodes i).cfg = S.cfg i
  persisted : ∀ i, (c.nodes i).Persisted

end Setup

/-! ## One action -/

variable {inbox : ReplicaId → Message → Prop} {v v' : View σ} {o : List Out}

lemma Move.id_eq {M : StateMachine σ} {R : Rules} (h : Move M R inbox v v' o)
    : v'.id = v.id ∧ v'.cfg = v.cfg := by
  cases h with
  | apply =>
    unfold View.applyNext
    split <;> exact ⟨rfl, rfl⟩
  | _ => exact ⟨rfl, rfl⟩

lemma Moves.id_eq {M : StateMachine σ} {R : Rules} (h : Moves M R inbox v v' o)
    : v'.id = v.id ∧ v'.cfg = v.cfg := by
  induction h with
  | refl => exact ⟨rfl, rfl⟩
  | head hm _ ih =>
    have h := hm.id_eq
    exact ⟨ih.1.trans h.1, ih.2.trans h.2⟩

namespace Setup

variable {S : Setup σ} {R : Rules} {c : Cluster σ}

/-- **What an action does to the replica it drives**: moves, after the replica has resumed if the
action is a restart. -/
lemma moves_of_drive (hcfg : S.Configured R) (hc : S.Proper c) {a : Action} (ha : S.Obeys R c a)
    {i : ReplicaId} {r : Node σ × List Out} (h : S.drive c a = some (i, r)) :
    ∃ v, (v = (c.nodes i).view ∨ (R.anchored → (c.nodes i).baseConfig = S.bootstrap) ∧
        v = (c.nodes i).view.resume S.machine S.bootstrap S.sm) ∧
      Moves S.machine R (fun s m => ⟨s, i, m⟩ ∈ c.sent) v r.1.view r.2 := by
  have hR : ∀ i, 0 < (c.nodes i).cfg.snapshotThreshold → R.compacts := fun i hi =>
    hcfg i (hc.cfg i ▸ hi)
  have htake (i : ReplicaId) (input : Input)
      (hmsg : ∀ s msg, input = .message s msg → ⟨s, i, msg⟩ ∈ c.sent ∧ (c.nodes i).Receives R msg)
      (hconf : ∀ vs, input = .proposeConf vs → R.reconfigures) :
      Moves S.machine R (fun s m => ⟨s, i, m⟩ ∈ c.sent) (c.nodes i).view
        ((c.nodes i).take S.machine input).1.view ((c.nodes i).take S.machine input).2 :=
    (Node.branch_take S.machine _ input).moves (hR i) hmsg hconf
  cases a with
  | tick i => cases h; exact ⟨_, .inl rfl, htake i .tick nofun nofun⟩
  | propose i cmd => cases h; exact ⟨_, .inl rfl, htake i (.propose cmd) nofun nofun⟩
  | proposeConf i vs =>
    cases h
    exact ⟨_, .inl rfl, htake i (.proposeConf vs) nofun fun _ _ => ha⟩
  | read i reqId q => cases h; exact ⟨_, .inl rfl, htake i (.read reqId q) nofun nofun⟩
  | takeReadyReads i => cases h; exact ⟨_, .inl rfl, Move.collect.moves⟩
  | takeApplied i => cases h; exact ⟨_, .inl rfl, .refl _⟩
  | compact i => cases h; exact ⟨_, .inl rfl, Node.moves_compact _ ha⟩
  | deliver k =>
    obtain ⟨p, hp, hr⟩ := Option.map_eq_some_iff.mp h
    cases hr
    refine ⟨_, .inl rfl, htake p.receiver (.message p.sender p.msg) (fun s msg heq => ?_) nofun⟩
    cases heq
    exact ⟨List.mem_of_getElem? hp, ha p hp⟩
  | restart i =>
    cases h
    refine ⟨_, .inr ⟨ha, rfl⟩, ?_⟩
    have hself : Node.restoreFrom S.machine i S.voters (S.cfg i) S.sm (c.nodes i).store =
        Node.restoreFrom S.machine (c.nodes i).id S.voters (c.nodes i).cfg S.sm
          (c.nodes i).store := by rw [hc.id, hc.cfg]
    rw [hself]
    exact Node.moves_restoreFrom _ (hc.persisted i) (hR i)

lemma obeys_free (a : Action) : S.Obeys .free c a := by
  cases a with
  | deliver => exact fun _ _ => Node.receives_of_not nofun nofun nofun
  | restart => exact nofun
  | _ => trivial

lemma Proper.step (hc : S.Proper c) (a : Action) : S.Proper (S.step a c) := by
  unfold Setup.step
  split
  · rename_i i r h
    obtain ⟨v, hv, hm⟩ := moves_of_drive (fun _ _ => trivial) hc (obeys_free a) h
    have hid : r.1.id = i ∧ r.1.cfg = S.cfg i := by
      have hv' : v.id = (c.nodes i).id ∧ v.cfg = (c.nodes i).cfg := by
        rcases hv with rfl | ⟨-, rfl⟩ <;> exact ⟨rfl, rfl⟩
      exact ⟨hm.id_eq.1.trans (hv'.1.trans (hc.id i)), hm.id_eq.2.trans (hv'.2.trans (hc.cfg i))⟩
    have hpers := S.persisted_drive hc.persisted h
    constructor <;> intro j <;> by_cases hj : j = i
    · subst hj; simpa [Cluster.act] using hid.1
    · simpa [Cluster.act, Function.update_of_ne hj] using hc.id j
    · subst hj; simpa [Cluster.act] using hid.2
    · simpa [Cluster.act, Function.update_of_ne hj] using hc.cfg j
    · subst hj; simpa [Cluster.act] using hpers
    · simpa [Cluster.act, Function.update_of_ne hj] using hc.persisted j
  · exact hc

lemma proper_init : S.Proper S.init := ⟨fun _ => rfl, fun _ => rfl, fun _ => ⟨rfl, rfl, rfl⟩⟩

lemma proper_run (as : List Action) : S.Proper (S.run as) :=
  Actions.run_invariant (P := fun _ _ => True) (fun _ a h _ => h.step a) proper_init
    (Actions.allowed_of_mem (fun _ _ _ => trivial) _)

end Setup

/-! ## The rule -/

/-- **An invariant, with what one move does to it.** The record belongs to all replicas; `grows i`
says how replica `i` may extend it, and what is known of other replicas and of messages survives
that. -/
structure MoveInvariant (S : Setup σ) (R : Rules) (γ : Type*) [Preorder γ] where
  world : γ → Prop
  node : γ → ReplicaId → View σ → Prop
  packet : γ → Packet → Prop
  grows : ReplicaId → γ → γ → Prop
  grows_refl : ∀ i g, grows i g g
  grows_trans : ∀ {i g₁ g₂ g₃}, grows i g₁ g₂ → grows i g₂ g₃ → grows i g₁ g₃
  grows_le : ∀ {i g g'}, grows i g g' → g ≤ g'
  node_mono : ∀ {i j g g' v}, world g → world g' → grows i g g' → j ≠ i → node g j v → node g' j v
  packet_mono : ∀ {i g g' p}, grows i g g' → packet g p → packet g' p
  move : ∀ {g i v v' o} {inbox : ReplicaId → Message → Prop}, world g → node g i v →
    (∀ s m, inbox s m → packet g ⟨s, i, m⟩) → Move S.machine R inbox v v' o →
    ∃ g', grows i g g' ∧ world g' ∧ node g' i v' ∧ ∀ x ∈ o, packet g' ⟨i, x.1, x.2⟩
  resume : ∀ {g i v}, world g → node g i v → (R.anchored → v.baseConfig = S.bootstrap) →
    ∃ g', grows i g g' ∧ world g' ∧ node g' i (v.resume S.machine S.bootstrap S.sm)

namespace MoveInvariant

variable {S : Setup σ} {R : Rules} {γ : Type*} [Preorder γ] (I : MoveInvariant S R γ)

/-- The invariant holds of a cluster, with a record. -/
structure Holds (c : Cluster σ) (g : γ) : Prop where
  proper : S.Proper c
  world : I.world g
  node : ∀ i, I.node g i (c.nodes i).view
  packet : ∀ p ∈ c.sent, I.packet g p

variable {I}
variable {g : γ}

lemma moves {i : ReplicaId} (h : Moves S.machine R inbox v v' o) (hw : I.world g)
    (hv : I.node g i v) (hin : ∀ s m, inbox s m → I.packet g ⟨s, i, m⟩) :
    ∃ g', I.grows i g g' ∧ I.world g' ∧ I.node g' i v' ∧ ∀ x ∈ o, I.packet g' ⟨i, x.1, x.2⟩ := by
  induction h generalizing g with
  | refl v => exact ⟨g, I.grows_refl i g, hw, hv, nofun⟩
  | head hm _ ih =>
    obtain ⟨g1, hg1, hw1, hv1, ho1⟩ := I.move hw hv hin hm
    obtain ⟨g2, hg2, hw2, hv2, ho2⟩ :=
      ih hw1 hv1 fun s m h => I.packet_mono hg1 (hin s m h)
    refine ⟨g2, I.grows_trans hg1 hg2, hw2, hv2, fun x hx => ?_⟩
    rcases List.mem_append.mp hx with hx | hx
    · exact I.packet_mono hg2 (ho1 x hx)
    · exact ho2 x hx

/-- **An action keeps the invariant.** -/
lemma Holds.step (hcfg : S.Configured R) {c : Cluster σ} (h : I.Holds c g) {a : Action}
    (ha : S.Obeys R c a) : ∃ g', g ≤ g' ∧ I.Holds (S.step a c) g' := by
  have hproper := h.proper.step a
  unfold Setup.step at hproper ⊢
  split
  · rename_i i r hd
    rw [hd] at hproper
    obtain ⟨v, hv, hm⟩ := Setup.moves_of_drive hcfg h.proper ha hd
    -- the replica resumes, if the action is a restart
    obtain ⟨g1, hg1, hw1, hv1⟩ : ∃ g1, I.grows i g g1 ∧ I.world g1 ∧ I.node g1 i v := by
      rcases hv with rfl | ⟨hb, rfl⟩
      · exact ⟨g, I.grows_refl i g, h.world, h.node i⟩
      · exact I.resume h.world (h.node i) hb
    obtain ⟨g2, hg2, hw2, hv2, ho2⟩ := moves hm hw1 hv1 fun s m hsm =>
      I.packet_mono hg1 (h.packet _ hsm)
    have hg := I.grows_trans hg1 hg2
    refine ⟨g2, I.grows_le hg, hproper, hw2, fun j => ?_, fun p hp => ?_⟩
    · by_cases hj : j = i
      · subst hj
        simpa [Cluster.act] using hv2
      · simpa [Cluster.act, Function.update_of_ne hj] using
          I.node_mono h.world hw2 hg hj (h.node j)
    · rcases List.mem_append.mp hp with hp | hp
      · exact I.packet_mono hg (h.packet p hp)
      · obtain ⟨x, hx, rfl⟩ := List.mem_map.mp hp
        exact ho2 x hx
  · exact ⟨g, le_rfl, h⟩

/-- **The invariant holds in every state of every run that follows the rules**, and the record only
grows. -/
theorem run (hcfg : S.Configured R) (hinit : I.Holds S.init g) {as : List Action}
    (has : Actions.Allowed S.step (S.Obeys R) S.init as) :
    ∃ G : ℕ → γ, (∀ k m, k ≤ m → G k ≤ G m) ∧ ∀ k, I.Holds (S.run (as.take k)) (G k) :=
  Actions.run_annotated (fun _ _ _ h ha => h.step hcfg ha) hinit has

end MoveInvariant

/-- **An invariant of single replicas**: it is enough that the replica an action drives keeps it,
from any state of a run. -/
theorem Setup.nodes_run (S : Setup σ) {P : Cluster σ → Action → Prop} {I : Node σ → Prop}
    (hinit : ∀ i, I (S.init.nodes i))
    (hdrive : ∀ as a i r, (∀ i, I ((S.run as).nodes i)) → P (S.run as) a →
      S.drive (S.run as) a = some (i, r) → I r.1)
    {as : List Action} (has : Actions.Allowed S.step P S.init as) (i : ReplicaId) :
    I ((S.run as).nodes i) := by
  induction as using List.reverseRecOn generalizing i with
  | nil => exact hinit i
  | append_singleton as a ih =>
    obtain ⟨has, ha⟩ := Actions.allowed_concat.mp has
    have hrun : S.run (as ++ [a]) = S.step a (S.run as) := Actions.run_concat _ _ _
    rw [hrun]
    unfold step
    cases hd : S.drive (S.run as) a with
    | none => exact ih has i
    | some x =>
      by_cases hi : i = x.1
      · subst hi
        simp only [Cluster.act, Function.update_self]
        exact hdrive as a _ x.2 (ih has) ha hd
      · simp only [Cluster.act, Function.update_of_ne hi]
        exact ih has i

/-- **What each replica and each message keep by themselves** holds in every run, without a record
and without rules. -/
theorem Setup.every_run (S : Setup σ) {node : View σ → Prop} {packet : Message → Prop}
    (hinit : ∀ i, node (S.init.nodes i).view)
    (hmove : ∀ {v v' : View σ} {o : List Out} {inbox : ReplicaId → Message → Prop}, node v →
      (∀ s m, inbox s m → packet m) → Move S.machine .free inbox v v' o →
      node v' ∧ ∀ x ∈ o, packet x.2)
    (hresume : ∀ v, node v → node (v.resume S.machine S.bootstrap S.sm)) (as : List Action) :
    (∀ i, node ((S.run as).nodes i).view) ∧ ∀ p ∈ (S.run as).sent, packet p.msg := by
  let I : MoveInvariant S .free Unit :=
    { world := fun _ => True
      node := fun _ _ => node
      packet := fun _ p => packet p.msg
      grows := fun _ _ _ => True
      grows_refl := fun _ _ => trivial
      grows_trans := fun _ _ => trivial
      grows_le := fun _ => le_rfl
      node_mono := fun _ _ _ _ h => h
      packet_mono := fun _ h => h
      move := fun _ hv hin hm => ⟨(), trivial, trivial, hmove hv hin hm⟩
      resume := fun _ hv _ => ⟨(), trivial, trivial, hresume _ hv⟩ }
  have hholds : I.Holds S.init () := ⟨Setup.proper_init, trivial, hinit, nofun⟩
  have hallowed : Actions.Allowed S.step (S.Obeys .free) S.init as :=
    Actions.allowed_of_mem (fun _ a _ => obeys_free a) _
  obtain ⟨G, -, hG⟩ := MoveInvariant.run (fun _ _ => trivial) hholds hallowed
  have h := hG as.length
  rw [List.take_length] at h
  exact ⟨h.node, h.packet⟩

end CrabScheme.Raft
