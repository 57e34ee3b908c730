import CrabScheme.Raft.Log

/-!
# What holds along every run

The invariant behind the safety of Raft. A record of the past goes along with a run: the history
of campaigns, votes, leaders, acknowledgements and commits, the whole log of each replica, and the
last term whose leader it followed. The invariant ties replicas and messages to that record.

## Main results

* `NodeOk.mono`, `PacketOk.mono` — what other replicas do does not
  matter.
-/

namespace CrabScheme.Raft

open Replication

variable {σ : Type}

/-- **The record of a run.** -/
structure Record where
  hist : History ReplicaId Entry
  log : ReplicaId → List Entry
  synced : ReplicaId → ℕ
  commit : ReplicaId → ℕ

/-- The history grows, and so do the commit indices. -/
instance : Preorder Record where
  le g g' := g.hist ≤ g'.hist ∧ ∀ i, g.commit i ≤ g'.commit i
  le_refl _ := ⟨le_rfl, fun _ => le_rfl⟩
  le_trans _ _ _ h h' := ⟨h.1.trans h'.1, fun i => (h.2 i).trans (h'.2 i)⟩

/-- The record with what replica `i` has done. -/
def Record.put (g : Record) (H : History ReplicaId Entry) (i : ReplicaId) (l : List Entry)
    (u c : ℕ) : Record :=
  ⟨H, Function.update g.log i l, Function.update g.synced i u, Function.update g.commit i c⟩

/-- **Replica `i` extends the record**: what belongs to the others stays. -/
structure Grows (i : ReplicaId) (g g' : Record) : Prop where
  le : g.hist ≤ g'.hist
  log : ∀ {j}, j ≠ i → g'.log j = g.log j
  synced : ∀ {j}, j ≠ i → g'.synced j = g.synced j
  commit : ∀ {j}, j ≠ i → g'.commit j = g.commit j
  commit_le : g.commit i ≤ g'.commit i
  ballot : ∀ {j}, j ≠ i → ∀ t, g'.hist.ballot t j = g.hist.ballot t j
  campaign : ∀ {j}, j ≠ i → ∀ t, g'.hist.campaign t j = g.hist.campaign t j
  ack : ∀ {j}, j ≠ i → ∀ t, g'.hist.ack t j = g.hist.ack t j
  leader : ∀ {j}, j ≠ i → ∀ t, g'.hist.leader t = some j → g.hist.leader t = some j
  llog : ∀ {j}, j ≠ i → ∀ t, g.hist.leader t = some j → g'.hist.llog t = g.hist.llog t
  commits : ∀ {j}, j ≠ i → ∀ t, g.hist.leader t = some j → ∀ k m, g'.hist.commits t k m →
    g.hist.commits t k m

lemma Grows.refl (i : ReplicaId) (g : Record) : Grows i g g :=
  ⟨le_rfl, fun _ => rfl, fun _ => rfl, fun _ => rfl, le_rfl, fun _ _ => rfl, fun _ _ => rfl,
    fun _ _ => rfl, fun _ _ => id, fun _ _ _ => rfl, fun _ _ _ _ _ => id⟩

lemma Grows.trans {i : ReplicaId} {g1 g2 g3 : Record} (h : Grows i g1 g2) (h' : Grows i g2 g3) :
    Grows i g1 g3 where
  le := h.le.trans h'.le
  log hj := (h'.log hj).trans (h.log hj)
  synced hj := (h'.synced hj).trans (h.synced hj)
  commit hj := (h'.commit hj).trans (h.commit hj)
  commit_le := h.commit_le.trans h'.commit_le
  ballot hj t := (h'.ballot hj t).trans (h.ballot hj t)
  campaign hj t := (h'.campaign hj t).trans (h.campaign hj t)
  ack hj t := (h'.ack hj t).trans (h.ack hj t)
  leader hj t ht := h.leader hj t (h'.leader hj t ht)
  llog hj t ht := (h'.llog hj t (h.le.leader ht)).trans (h.llog hj t ht)
  commits hj t ht k m hc := h.commits hj t ht k m (h'.commits hj t (h.le.leader ht) k m hc)

lemma Grows.record_le {i : ReplicaId} {g g' : Record} (h : Grows i g g') : g ≤ g' := by
  refine ⟨h.le, fun j => ?_⟩
  by_cases hj : j = i
  · rw [hj]
    exact h.commit_le
  · exact (h.commit hj).ge

section Defs

variable (S : Setup σ) (R : Rules)

/-- Entries as replication sees them, in a cluster. -/
abbrev Setup.scheme : Scheme ReplicaId Entry := Raft.scheme (ConfState.sorted S.voters)

/-- The state of a replica that has applied a log. -/
def Setup.stateAfter (l : List Entry) : σ := S.machine.replay S.sm l

/-- Snapshots carry the state over. -/
def Setup.Faithful : Prop :=
  R.compacts → R.fresh ∧ ∀ s s' : σ, S.machine.restore s' (S.machine.snapshot s) = s

/-- The history is sound, the logs of leaders are numbered, and set no membership unless the
membership changes. -/
structure WorldOk (g : Record) : Prop where
  sound : Sound S.scheme g.hist
  indexed : ∀ t, Indexed (g.hist.llog t)
  plain : ¬R.reconfigures → ∀ t, ∀ e ∈ g.hist.llog t, e.payload.config? = none

/-- **What is known of a leader** with a given log. -/
structure Leads (H : History ReplicaId Entry) (l : List Entry) (i : ReplicaId) (v : View σ) :
    Prop where
  leader : H.leader v.term = some i
  llog : H.llog v.term = l
  self : H.ack v.term i = l.length
  matched : ∀ p, (v.matchIndex p).getD 0 ≤ H.ack v.term p
  next_pos : ∀ p, 1 ≤ (v.nextIndex p).getD 1
  next_le : ∀ p, (v.nextIndex p).getD 1 ≤ l.length + 1
  commits : ∀ k m, H.commits v.term k m → k ≤ v.commitIndex

/-- **What is known of a candidate** with a given log. -/
structure Stands (H : History ReplicaId Entry) (l : List Entry) (i : ReplicaId) (v : View σ) :
    Prop where
  campaign : H.campaign v.term i = some l
  votes : ∀ p ∈ v.votes, p ∈ H.votes v.term i
  unelected : H.leader v.term ≠ some i

/-- **What is known of the log of a replica**: what the store keeps of it, the memberships, what is
applied and what the snapshot has. -/
structure LogOk (l : List Entry) (v : View σ) : Prop where
  store : v.store.Represents l
  unsaved : v.store.hasSnapshot = false → v.store.baseIndex = 0
  uncompacted : ¬R.compacts → v.store.hasSnapshot = false
  config : v.config.membership = S.scheme.conf l
  baseConfig : v.baseConfig.membership = S.scheme.conf (l.take v.store.baseIndex)
  base_le : v.store.baseIndex ≤ v.lastApplied
  applied_le : v.lastApplied ≤ v.commitIndex
  history : v.store.baseIndex = 0 → v.history = l.take v.lastApplied
  applied : ∀ e ∈ v.history, e ∈ l.take v.lastApplied
  sm : S.Faithful R → v.sm = S.stateAfter (l.take v.lastApplied)
  snapshot : S.Faithful R → v.store.hasSnapshot = true →
    v.store.snapshotData = S.machine.snapshot (S.stateAfter (l.take v.store.baseIndex))

/-- **What is known of a replica.** -/
structure NodeOk (g : Record) (i : ReplicaId) (v : View σ) : Prop where
  id : v.id = i
  commit : v.commitIndex = g.commit i
  log : LogOk S R (g.log i) v
  step : InStep S.scheme g.hist i v.term (g.synced i) v.commitIndex (g.log i)
  vote : (g.hist.ballot v.term i).map Ballot.cand = v.votedFor
  candidate : v.role = .candidate → Stands g.hist (g.log i) i v
  leader : v.role = .leader → Leads g.hist (g.log i) i v

/-- **What is known of a message.** -/
def PacketOk (H : History ReplicaId Entry) (p : Packet) : Prop :=
  match p.msg with
  | .requestVote t c li lt => ∃ l, H.campaign t c = some l ∧ li = l.length ∧
      lt = S.scheme.lastTerm l
  | .requestVoteResp t granted => granted = true → p.sender ∈ H.votes t p.receiver
  | .appendEntries t l prev pt es c _ => H.leader t = some l ∧ ∃ j, prev ≤ j ∧
      j ≤ (H.llog t).length ∧ es = ((H.llog t).take j).drop prev ∧
      pt = S.scheme.lastTerm ((H.llog t).take prev) ∧ c ≤ j ∧
      H.Settled t c (H.llog t)
  | .appendEntriesResp t ok m _ _ => ok = true → m ≤ H.ack t p.sender
  | .installSnapshot t l li lt cs d _ => R.compacts ∧ H.leader t = some l ∧
      lt = S.scheme.lastTerm ((H.llog t).take li) ∧
      cs.membership = S.scheme.conf ((H.llog t).take li) ∧
      H.Settled t li (H.llog t) ∧
      (S.Faithful R → d = S.machine.snapshot (S.stateAfter ((H.llog t).take li)))

end Defs

section Plain

variable {S : Setup σ} {R : Rules} {g : Record}

lemma WorldOk.plain_of_sourced (hw : WorldOk S R g) (hR : ¬R.reconfigures) {l : List Entry}
    (hl : g.hist.Sourced S.scheme l) : ∀ e ∈ l, e.payload.config? = none := by
  intro e he
  obtain ⟨q, hq⟩ := List.getElem?_of_mem he
  refine hw.plain hR _ e ((hl q e hq).2.subset ?_)
  exact List.mem_of_getElem? ((List.getElem?_take_of_lt (Nat.lt_succ_self q)).trans hq)

lemma Setup.conf_of_plain {l : List Entry} (h : ∀ e ∈ l, e.payload.config? = none) :
    S.scheme.conf l = S.bootstrap.membership := by
  have hnil : l.filterMap S.scheme.change = [] := by
    rw [List.filterMap_eq_nil_iff]
    intro e he
    show e.payload.config?.map ConfState.membership = none
    rw [h e he]
    rfl
  unfold Scheme.conf
  rw [hnil]
  rfl

end Plain

section Mono

variable {S : Setup σ} {R : Rules} {g g' : Record} {i j : ReplicaId} {v : View σ}

/-- **What another replica does does not matter** to a replica. -/
lemma NodeOk.mono (h : NodeOk S R g j v) (hw : WorldOk S R g) (hw' : WorldOk S R g')
    (hg : Grows i g g') (hj : j ≠ i) : NodeOk S R g' j v where
  id := h.id
  commit := h.commit.trans (hg.commit hj).symm
  log := hg.log hj ▸ h.log
  step := by
    rw [hg.log hj, hg.synced hj]
    exact h.step.mono hw.sound hw'.sound hg.le (hg.ballot hj) (hg.campaign hj) (hg.ack hj)
  vote := by rw [hg.ballot hj, h.vote]
  candidate hr := by
    obtain ⟨h1, h2, h3⟩ := h.candidate hr
    refine ⟨by rw [hg.campaign hj, hg.log hj, h1], fun p hp => ?_, fun hlead => ?_⟩
    · obtain ⟨b, hb, hc⟩ := h2 p hp
      exact ⟨b, hg.le.ballot hb, hc⟩
    · exact h3 (hg.leader hj _ hlead)
  leader hr := by
    have hl := h.leader hr
    refine ⟨hg.le.leader hl.leader, ?_, ?_, fun p => ?_, hl.next_pos, ?_, fun k m hc => ?_⟩
    · rw [hg.llog hj _ hl.leader, hg.log hj, hl.llog]
    · rw [hg.ack hj, hg.log hj, hl.self]
    · exact (hl.matched p).trans (hg.le.ack _ p)
    · rw [hg.log hj]
      exact hl.next_le
    · exact hl.commits k m (hg.commits hj _ hl.leader k m hc)

/-- **What a replica does does not matter** to messages that were sent. -/
lemma PacketOk.mono {H H' : History ReplicaId Entry} {p : Packet} (h : PacketOk S R H p) (hg : H ≤ H') :
    PacketOk S R H' p := by
  unfold PacketOk at h ⊢
  split at h
  · obtain ⟨l, hl, hrest⟩ := h
    exact ⟨l, hg.campaign hl, hrest⟩
  · intro hgr
    obtain ⟨b, hb, hc⟩ := h hgr
    exact ⟨b, hg.ballot hb, hc⟩
  · rename_i t l prev pt es c r hmsg
    obtain ⟨hlead, j, hprev, hj, hes, hpt, hc, hset⟩ := h
    refine ⟨hg.leader hlead, j, hprev, hj.trans (hg.llog t).length_le, ?_, ?_, hc, ?_⟩
    · rw [take_of_le (hg.llog t) hj, hes]
    · rw [take_of_le (hg.llog t) (hprev.trans hj), hpt]
    · exact (hset.mono hg le_rfl).extend (hg.llog t)
  · exact fun hok => (h hok).trans (hg.ack _ _)
  · rename_i t l li lt cs d r hmsg
    obtain ⟨hc, hlead, hlt, hcs, hset, hd⟩ := h
    have htake := take_of_le (hg.llog t) hset.1
    refine ⟨hc, hg.leader hlead, ?_, ?_, (hset.mono hg le_rfl).extend (hg.llog t), fun hF => ?_⟩
    · rw [htake, hlt]
    · rw [htake, hcs]
    · rw [htake, hd hF]

end Mono

end CrabScheme.Raft
