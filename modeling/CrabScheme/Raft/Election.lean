import CrabScheme.Lib.Quorum
import CrabScheme.Raft.Runs

/-!
# Election safety for a fixed membership

While nobody proposes a change of membership, every replica works under the bootstrap voters, and
two leaders of one term would have a voter in common. The votes are saved before they are sent, so
that a replica votes once in a term whether or not it crashes.

## Main results

* `Setup.election_safety` — no two replicas ever lead in one term.
-/

namespace CrabScheme.Raft

variable {σ : Type}

/-! ## Quorums -/

namespace ConfState

/-- The membership as a set of quorums. -/
def membership : ConfState → Quorum.Membership ReplicaId
  | simple vs => .simple vs
  | joint old new => .joint old new

lemma majority_of_maj {acked vs : List ReplicaId} (h : maj acked vs = true) :
    Quorum.Majority vs {p | p ∈ acked} := by
  have hlt := of_decide_eq_true h
  unfold Quorum.Majority
  convert hlt using 3
  funext p
  simp

/-- **What `is_quorum` accepts is a quorum.** -/
lemma isQuorum_membership {c : ConfState} {acked : List ReplicaId} (h : c.isQuorum acked = true) :
    c.membership.IsQuorum {p | p ∈ acked} := by
  cases c with
  | simple vs => exact majority_of_maj h
  | joint old new =>
    have h := Bool.and_eq_true_iff.mp h
    exact ⟨majority_of_maj h.1, majority_of_maj h.2⟩

end ConfState

/-! ## Logs that set no membership -/

namespace MemLogStore

variable {s : MemLogStore}

/-- No live entry sets a membership. -/
def Plain (s : MemLogStore) : Prop := ∀ e ∈ s.log, e.payload.config? = none

lemma Plain.effective (h : s.Plain) (b : ConfState) : s.effective b = b := by
  have hnone : s.liveEntries.reverse.findSome? (fun e => e.payload.config?) = none := by
    rw [List.findSome?_eq_none_iff]
    intro e he
    exact h e (List.mem_filter.mp (List.mem_reverse.mp he)).1
  rw [MemLogStore.effective, hnone, Option.getD_none]

lemma Plain.configAt (h : s.Plain) (b : ConfState) (idx : ℕ) : s.configAt b idx = b := by
  have hnone : s.liveEntries.reverse.find?
      (fun e => decide (e.index ≤ idx) && e.payload.config?.isSome) = none := by
    rw [List.find?_eq_none]
    intro e he
    simp [h e (List.mem_filter.mp (List.mem_reverse.mp he)).1]
  rw [MemLogStore.configAt, hnone, Option.bind_none, Option.getD_none]

lemma Plain.append (h : s.Plain) {es : List Entry} (hes : ∀ e ∈ es, e.payload.config? = none) :
    (s.append es).Plain := fun e he => (List.mem_append.mp he).elim (h e) (hes e)

lemma Plain.truncateSuffix (h : s.Plain) (idx : ℕ) : (s.truncateSuffix idx).Plain := by
  unfold MemLogStore.truncateSuffix
  split
  · exact nofun
  · exact fun e he => h e (List.mem_of_mem_take he)

lemma Plain.saveSnapshot (h : s.Plain) (m : SnapshotMeta) : (s.saveSnapshot m).Plain :=
  fun e he => h e (List.mem_filter.mp he).1

lemma Plain.splice (h : s.Plain) {e : Entry} (he : e.payload.config? = none) :
    (s.splice e).Plain := by
  have hone : ∀ e' ∈ [e], e'.payload.config? = none := by simpa using he
  unfold MemLogStore.splice
  split
  · exact h
  · split
    · split
      · exact h
      · exact (h.truncateSuffix _).append hone
    · exact h.append hone

lemma Plain.splices (h : s.Plain) {es : List Entry} (hes : ∀ e ∈ es, e.payload.config? = none) :
    (es.foldl MemLogStore.splice s).Plain := by
  induction es generalizing s with
  | nil => exact h
  | cons e es ih =>
    exact ih (h.splice (hes e List.mem_cons_self)) fun e' he' => hes e' (List.mem_cons_of_mem e he')

end MemLogStore

/-! ## The record of votes -/

/-- **Who voted for whom**, by term. -/
@[ext] structure Votes where
  cast : ℕ → ReplicaId → Option ReplicaId

namespace Votes

instance : Preorder Votes where
  le g g' := ∀ t p c, g.cast t p = some c → g'.cast t p = some c
  le_refl _ _ _ _ := id
  le_trans _ _ _ h h' t p c := h' t p c ∘ h t p c

variable (S : Setup σ)

/-- What is known of replica `i`: the membership it works under, and the votes. -/
structure NodeOk (g : Votes) (i : ReplicaId) (v : View σ) : Prop where
  id : v.id = i
  config : v.config = S.bootstrap
  baseConfig : v.baseConfig = S.bootstrap
  log : v.store.Plain
  past : ∀ t c, g.cast t i = some c → t ≤ v.term
  vote : g.cast v.term i = v.votedFor
  candidate : v.role = .candidate → ∀ p ∈ v.votes, g.cast v.term p = some i
  leader : v.role = .leader → ∃ Q, S.bootstrap.isQuorum Q = true ∧
    ∀ p ∈ Q, g.cast v.term p = some i

/-- What is known of a message: a granted vote was cast, and no membership is changed. -/
def PacketOk (g : Votes) (p : Packet) : Prop :=
  match p.msg with
  | .requestVoteResp t true => g.cast t p.sender = some p.receiver
  | .appendEntries _ _ _ _ es _ _ => ∀ e ∈ es, e.payload.config? = none
  | .installSnapshot _ _ _ _ c _ _ => c = S.bootstrap
  | _ => True

/-- Replica `i` votes. -/
def Grows (i : ReplicaId) (g g' : Votes) : Prop :=
  g ≤ g' ∧ ∀ t p, p ≠ i → g'.cast t p = g.cast t p

/-- Replica `i` votes for `c` in term `t`. -/
def add (g : Votes) (i : ReplicaId) (t : ℕ) (c : ReplicaId) : Votes where
  cast t' p := if t' = t ∧ p = i then some c else g.cast t' p

variable {S} {g g' : Votes} {i j : ReplicaId} {v : View σ} {t : ℕ} {c : ReplicaId}

lemma grows_refl (i : ReplicaId) (g : Votes) : Grows i g g := ⟨le_rfl, fun _ _ _ => rfl⟩

lemma add_self : (g.add i t c).cast t i = some c := by simp [add]

lemma add_of_ne {t' : ℕ} (h : t' ≠ t) : (g.add i t c).cast t' i = g.cast t' i := by simp [add, h]

lemma grows_add (h : g.cast t i = none ∨ g.cast t i = some c) : Grows i g (g.add i t c) := by
  refine ⟨fun t' p c' hc => ?_, fun t' p hp => by simp [add, hp]⟩
  by_cases hsame : t' = t ∧ p = i
  · obtain ⟨rfl, rfl⟩ := hsame
    rw [add_self]
    rcases h with h | h <;> rw [h] at hc <;> cases hc
    rfl
  · simpa [add, hsame] using hc

lemma NodeOk.mono (h : NodeOk S g j v) (hg : Grows i g g') (hj : j ≠ i) : NodeOk S g' j v where
  id := h.id
  config := h.config
  baseConfig := h.baseConfig
  log := h.log
  past t c := by rw [hg.2 t j hj]; exact h.past t c
  vote := by rw [hg.2 _ j hj]; exact h.vote
  candidate hr p hp := hg.1 _ _ _ (h.candidate hr p hp)
  leader hr := by
    obtain ⟨Q, hQ, hall⟩ := h.leader hr
    exact ⟨Q, hQ, fun p hp => hg.1 _ _ _ (hall p hp)⟩

lemma PacketOk.mono {p : Packet} (h : PacketOk S g p) (hg : Grows i g g') : PacketOk S g' p := by
  unfold PacketOk at h ⊢
  split at h
  · exact hg.1 _ _ _ h
  · exact h
  · exact h
  · trivial

lemma packetOk_appendFor (h : NodeOk S g i v) (p : ReplicaId) :
    PacketOk S g ⟨i, p, v.appendFor p⟩ := by
  unfold View.appendFor
  dsimp only
  split
  · exact h.baseConfig
  · exact fun e he => h.log e (List.mem_filter.mp he).1

lemma NodeOk.same (h : NodeOk S g i v) {v' : View σ} (hid : v'.id = v.id)
    (hc : v'.config = S.bootstrap) (hb : v'.baseConfig = S.bootstrap) (hlog : v'.store.Plain)
    (hterm : v'.term = v.term) (hvf : v'.votedFor = v.votedFor) (hrole : v'.role = v.role)
    (hvotes : v'.votes = v.votes) : NodeOk S g i v' where
  id := hid.trans h.id
  config := hc
  baseConfig := hb
  log := hlog
  past := hterm ▸ h.past
  vote := by rw [hterm, hvf, h.vote]
  candidate := by rw [hrole, hterm, hvotes]; exact h.candidate
  leader := by rw [hrole, hterm]; exact h.leader

lemma NodeOk.follow (h : NodeOk S g i v) (ht : v.term ≤ t) : NodeOk S g i (v.follow t) where
  id := h.id
  config := h.config
  baseConfig := h.baseConfig
  log := h.log
  past t' c hc := (h.past t' c hc).trans ht
  vote := by
    by_cases hne : t = v.term
    · simp [View.follow, hne, h.vote]
    · -- no vote was cast in a later term
      have hnone : g.cast t i = none := by
        cases hc : g.cast t i with
        | none => rfl
        | some c => exact absurd (h.past t c hc) (by omega)
      simp [View.follow, hne, hnone]
  candidate hr := by cases hr
  leader hr := by cases hr

/-- **One move keeps the record of votes.** -/
lemma move {R : Rules} (hR : ¬R.reconfigures) {M : StateMachine σ}
    {inbox : ReplicaId → Message → Prop} {v' : View σ} {o : List Out} (hv : NodeOk S g i v)
    (hin : ∀ s m, inbox s m → PacketOk S g ⟨s, i, m⟩) (hm : Move M R inbox v v' o) :
    ∃ g', Grows i g g' ∧ NodeOk S g' i v' ∧ ∀ x ∈ o, PacketOk S g' ⟨i, x.1, x.2⟩ := by
  have hplain := hv.log
  -- moves that leave the record alone and send nothing that matters
  have quiet : NodeOk S g i v' → (∀ x ∈ o, PacketOk S g ⟨i, x.1, x.2⟩) →
      ∃ g', Grows i g g' ∧ NodeOk S g' i v' ∧ ∀ x ∈ o, PacketOk S g' ⟨i, x.1, x.2⟩ :=
    fun h ho => ⟨g, grows_refl i g, h, ho⟩
  cases hm with
  | follow ht => exact quiet (hv.follow ht) nofun
  | campaign hr hid =>
    have hnone : g.cast (v.term + 1) i = none := by
      cases hc : g.cast (v.term + 1) i with
      | none => rfl
      | some c => exact absurd (hv.past _ c hc) (by omega)
    have hg : Grows i g (g.add i (v.term + 1) i) := grows_add (.inl hnone)
    refine ⟨_, hg, ⟨hv.id, hv.config, hv.baseConfig, hplain, ?_, ?_, ?_, nofun⟩, nofun⟩
    · intro t c hc
      by_cases ht : t = v.term + 1
      · exact ht.le
      · rw [add_of_ne ht] at hc
        exact (hv.past t c hc).trans (Nat.le_succ _)
    · exact add_self.trans (congrArg some hv.id.symm)
    · intro _ p hp
      obtain rfl : p = i := (List.mem_singleton.mp hp).trans hv.id
      exact add_self
  | solicit ps hr =>
    refine quiet hv fun x hx => ?_
    obtain ⟨p, -, rfl⟩ := List.mem_map.mp hx
    trivial
  | @vote s c li lt hmsg hlog hvote =>
    have hg : Grows i g (g.add i v.term c) := grows_add (by rwa [hv.vote])
    refine ⟨_, hg, ⟨hv.id, hv.config, hv.baseConfig, hplain, ?_, add_self, ?_, ?_⟩, ?_⟩
    · intro t c' hc
      by_cases ht : t = v.term
      · exact ht.le
      · rw [add_of_ne ht] at hc
        exact hv.past t c' hc
    · exact fun hr p hp => hg.1 _ _ _ (hv.candidate hr p hp)
    · intro hr
      obtain ⟨Q, hQ, hall⟩ := hv.leader hr
      exact ⟨Q, hQ, fun p hp => hg.1 _ _ _ (hall p hp)⟩
    · intro x hx
      rw [List.mem_singleton.mp hx]
      exact add_self
  | refuse p t =>
    refine quiet hv fun x hx => ?_
    rw [List.mem_singleton.mp hx]
    trivial
  | @count s hr hmsg =>
    refine quiet ⟨hv.id, hv.config, hv.baseConfig, hplain, hv.past, hv.vote, ?_, ?_⟩ nofun
    · intro _ p hp
      rcases List.mem_insert_iff.mp hp with rfl | hp
      · exact hin _ _ hmsg
      · exact hv.candidate hr p hp
    · intro h
      rw [hr] at h
      cases h
  | win hr hq =>
    refine quiet ⟨hv.id, hv.config, hv.baseConfig, hplain, hv.past, hv.vote, nofun, fun _ => ?_⟩
      nofun
    exact ⟨v.votes, hv.config ▸ hq, hv.candidate hr⟩
  | @append payload hr hp =>
    refine quiet (hv.same rfl ?_ hv.baseConfig (hplain.append (by simpa using hp)) rfl rfl rfl rfl)
      nofun
    simpa [View.append, hp] using hv.config
  | begin h => exact absurd h hR
  | finalize hr hc =>
    rw [hv.config] at hc
    cases hc
  | heartbeat => exact quiet (hv.same rfl hv.config hv.baseConfig hplain rfl rfl rfl rfl) nofun
  | send ps hr =>
    refine quiet hv fun x hx => ?_
    obtain ⟨p, -, rfl⟩ := List.mem_map.mp hx
    exact packetOk_appendFor hv p
  | apply hlt =>
    refine quiet ?_ nofun
    unfold View.applyNext
    split <;> exact hv.same rfl hv.config hv.baseConfig hplain rfl rfl rfl rfl
  | @compact t _ hbase ht =>
    have hlog := hplain.saveSnapshot ⟨v.lastApplied, t, M.snapshot v.sm⟩
    have hb : v.store.configAt v.baseConfig v.lastApplied = S.bootstrap := by
      rw [hplain.configAt, hv.baseConfig]
    exact quiet (hv.same rfl ((hlog.effective _).trans hb) hb hlog rfl rfl rfl rfl) nofun
  | accept hr hmsg ht =>
    have hlog := hplain.splices (hin _ _ hmsg)
    refine quiet (hv.same rfl ((hlog.effective _).trans hv.baseConfig) hv.baseConfig hlog rfl rfl
      rfl rfl) fun x hx => ?_
    rw [List.mem_singleton.mp hx]
    trivial
  | @install s l idx t config data r hr hmsg hbase hF =>
    have hconfig : config = S.bootstrap := hin _ _ hmsg
    have hlog : (v.install M idx t config data).store.Plain := by
      unfold View.install
      split
      · exact (hplain.truncateSuffix _).saveSnapshot _
      · exact hplain.saveSnapshot _
    refine quiet (hv.same rfl ((hlog.effective _).trans hconfig) hconfig hlog rfl rfl rfl rfl)
      fun x hx => ?_
    rw [List.mem_singleton.mp hx]
    trivial
  | covered | outdated | conflict =>
    refine quiet hv fun x hx => ?_
    rw [List.mem_singleton.mp hx]
    trivial
  | matched | back | commit | ask | serve | decline | collect =>
    exact quiet (hv.same rfl hv.config hv.baseConfig hplain rfl rfl rfl rfl) nofun

lemma NodeOk.resume (h : NodeOk S g i v) :
    NodeOk S g i (v.resume S.machine S.bootstrap S.sm) where
  id := h.id
  config := by
    have hlog := h.log
    exact (hlog.effective _).trans (hlog.configAt _ _)
  baseConfig := h.log.configAt _ _
  log := h.log
  past := h.past
  vote := h.vote
  candidate hr := by cases hr
  leader hr := by cases hr

end Votes

/-- **The record of votes of a run** in which the membership stays. -/
def ballots (S : Setup σ) (R : Rules) (hR : ¬R.reconfigures) : MoveInvariant S R Votes where
  world _ := True
  node := Votes.NodeOk S
  packet := Votes.PacketOk S
  grows := Votes.Grows
  grows_refl := Votes.grows_refl
  grows_trans h h' := ⟨h.1.trans h'.1, fun t p hp => (h'.2 t p hp).trans (h.2 t p hp)⟩
  grows_le h := h.1
  node_mono _ _ hg hj h := h.mono hg hj
  packet_mono hg h := h.mono hg
  move _ hv hin hm := by
    obtain ⟨g', hg, hv', ho⟩ := Votes.move hR hv hin hm
    exact ⟨g', hg, trivial, hv', ho⟩
  resume _ hv _ := ⟨_, Votes.grows_refl _ _, trivial, hv.resume⟩

/-- **Election safety.** Under a fixed membership no two replicas ever lead in one term, in any run
of ticks, proposals, reads, compactions, deliveries and restarts. -/
theorem Setup.election_safety (S : Setup σ) {as : List Action}
    (has : ∀ i vs, Action.proposeConf i vs ∉ as) {k m : ℕ} {i j : ReplicaId}
    (hi : ((S.run (as.take k)).nodes i).role = .leader)
    (hj : ((S.run (as.take m)).nodes j).role = .leader)
    (hterm : ((S.run (as.take k)).nodes i).currentTerm =
      ((S.run (as.take m)).nodes j).currentTerm) : i = j := by
  let R : Rules := ⟨True, False, False, False, False, False⟩
  have hallowed : Actions.Allowed S.step (S.Obeys R) S.init as := by
    refine Actions.allowed_of_mem (fun c a ha => ?_) _
    cases a with
    | proposeConf i vs => exact absurd ha (has i vs)
    | deliver => exact fun _ _ => Node.receives_of_not nofun nofun nofun
    | restart => exact nofun
    | _ => trivial
  have hinit : (ballots S R nofun).Holds S.init ⟨fun _ _ => none⟩ :=
    ⟨Setup.proper_init, trivial,
      fun _ => ⟨rfl, rfl, rfl, nofun, nofun, rfl, nofun, nofun⟩, nofun⟩
  obtain ⟨G, hmono, hG⟩ := MoveInvariant.run (fun _ _ => trivial) hinit hallowed
  obtain ⟨Q, hQ, hallQ⟩ := ((hG k).node i).leader hi
  obtain ⟨Q', hQ', hallQ'⟩ := ((hG m).node j).leader hj
  -- the two majorities share a voter, and its vote is on record
  obtain ⟨p, -, hp, hp'⟩ := (ConfState.majority_of_maj hQ).inter (ConfState.majority_of_maj hQ')
  have hvote := hmono k _ (le_max_left k m) _ _ _ (hallQ p hp)
  have hvote' := hmono m _ (le_max_right k m) _ _ _ (hallQ' p hp')
  have hterm' : ((S.run (as.take k)).nodes i).view.term =
    ((S.run (as.take m)).nodes j).view.term := hterm
  rw [hterm', hvote'] at hvote
  exact (Option.some.inj hvote).symm

/-- Replica 0 is elected by replica 1 and receives a proposal. -/
def Setup.electOne : List Action := [.tick 0, .deliver 0, .deliver 2, .propose 0 [1]]

/-- One leader in a term: replica 0, before and after the proposal. -/
theorem Setup.election_safety_electOne :
    (((ofSize 3).run (electOne.take 3)).nodes 0).role = .leader ∧
    (((ofSize 3).run (electOne.take 4)).nodes 0).role = .leader ∧ (0 : ReplicaId) = 0 := by
  have h : (((ofSize 3).run (electOne.take 3)).nodes 0).role = .leader := by decide +kernel
  have h' : (((ofSize 3).run (electOne.take 4)).nodes 0).role = .leader := by decide +kernel
  refine ⟨h, h', ?_⟩
  exact Setup.election_safety (ofSize 3) (fun i vs => by simp [electOne]) h h' (by decide +kernel)

end CrabScheme.Raft
