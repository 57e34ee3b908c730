import CrabScheme.Raft.Invariant

/-!
# Every move keeps the invariant

One lemma for each kind of move: elections, the log of a leader, what a follower takes over,
commitment, applying and snapshots. Each says how the record grows.

## Main results

* `after_move`, `after_resume` — moves and restarts keep the
  invariant.
-/

namespace CrabScheme.Raft

open Replication

variable {σ : Type}

/-- **After a move**: the record is extended, and what is known of the replica and of the messages
it sends holds of the new record. -/
def After (S : Setup σ) (R : Rules) (g : Record) (i : ReplicaId) (v : View σ) (o : List Out) : Prop :=
  ∃ g', Grows i g g' ∧ WorldOk S R g' ∧ NodeOk S R g' i v ∧
    ∀ x ∈ o, PacketOk S R g'.hist ⟨i, x.1, x.2⟩

variable {v' : View σ}

section

variable {S : Setup σ} {R : Rules} {g : Record} {i : ReplicaId} {v : View σ}
variable {H : History ReplicaId Entry} {l : List Entry} {c t r : ℕ} {s : ReplicaId}

/-- A history says nothing new about replicas other than `i`. Most moves change one field. -/
structure Others (i : ReplicaId) (H₀ H : History ReplicaId Entry) : Prop where
  ballot : ∀ {j}, j ≠ i → ∀ t, H.ballot t j = H₀.ballot t j := by intros; rfl
  campaign : ∀ {j}, j ≠ i → ∀ t, H.campaign t j = H₀.campaign t j := by intros; rfl
  ack : ∀ {j}, j ≠ i → ∀ t, H.ack t j = H₀.ack t j := by intros; rfl
  leader : ∀ {j}, j ≠ i → ∀ t, H.leader t = some j → H₀.leader t = some j := by exact fun _ _ => id
  llog : ∀ {j}, j ≠ i → ∀ t, H₀.leader t = some j → H.llog t = H₀.llog t := by intros; rfl
  commits : ∀ {j}, j ≠ i → ∀ t, H₀.leader t = some j → ∀ k m, H.commits t k m → H₀.commits t k m := by
    exact fun _ _ _ _ _ => id

lemma grows_put {u : ℕ} (hle : g.hist ≤ H) (hc : g.commit i ≤ c) (h : Others i g.hist H) :
    Grows i g (g.put H i l u c) :=
  ⟨hle, fun hj => Function.update_of_ne hj .., fun hj => Function.update_of_ne hj ..,
    fun hj => Function.update_of_ne hj .., hc.trans (Function.update_self i c g.commit).ge, h.ballot,
    h.campaign, h.ack, h.leader, h.llog, h.commits⟩

lemma nodeOk_put {u : ℕ} (hid : v.id = i) (hc : v.commitIndex = c) (hlog : LogOk S R l v)
    (hstep : InStep S.scheme H i v.term u v.commitIndex l)
    (hvote : (H.ballot v.term i).map Ballot.cand = v.votedFor)
    (hcand : v.role = .candidate → Stands H l i v) (hlead : v.role = .leader → Leads H l i v) :
    NodeOk S R (g.put H i l u c) i v := by
  have hl : (g.put H i l u c).log i = l := Function.update_self ..
  have hu : (g.put H i l u c).synced i = u := Function.update_self ..
  refine ⟨hid, hc.trans (Function.update_self i c g.commit).symm, ?_, ?_, hvote, ?_, ?_⟩
  · rwa [hl]
  · rwa [hl, hu]
  · rwa [hl]
  · rwa [hl]

lemma after_same (hw : WorldOk S R g) {o : List Out} (hv : NodeOk S R g i v')
    (ho : ∀ x ∈ o, PacketOk S R g.hist ⟨i, x.1, x.2⟩) : After S R g i v' o :=
  ⟨g, .refl i g, hw, hv, ho⟩

lemma ballot_eq_none (hv : NodeOk S R g i v) (ht : v.term < t) : g.hist.ballot t i = none := by
  cases hb : g.hist.ballot t i with
  | none => rfl
  | some b => exact absurd (hv.step.ballot hb) (by omega)

variable (hw : WorldOk S R g) (hv : NodeOk S R g i v)

include hw hv

/-! ## Elections -/

lemma after_follow (ht : v.term ≤ t) : After S R g i (v.follow t) [] := by
  refine after_same hw ⟨hv.id, hv.commit, { hv.log with }, hv.step.advance ht, ?_, nofun, nofun⟩ nofun
  by_cases hne : t = v.term
  · simp [View.follow, hne, hv.vote]
  · -- no vote was cast in a later term
    simp [View.follow, hne, ballot_eq_none hv (show v.term < t by omega)]

lemma after_campaign :
    After S R g i v.campaign [] := by
  set t := v.term + 1 with ht
  set H1 := g.hist.stand t i (g.log i) with hH1
  obtain ⟨hs1, hi1⟩ := hv.step.stand hw.sound
  have hnone : H1.ballot t i = none := ballot_eq_none hv (Nat.lt_succ_self _)
  have hcamp : H1.campaign t i = some (g.log i) := by simp [hH1, History.stand]
  have hnocamp : g.hist.campaign t i = none := by
    cases hc : g.hist.campaign t i with
    | none => rfl
    | some l => exact absurd (hv.step.campaign hc) (by omega)
  obtain ⟨hs2, hi2⟩ := hi1.cast hs1 hnone hcamp (.inr ⟨rfl, le_rfl⟩)
  set b : Ballot ReplicaId Entry := ⟨i, g.log i, g.synced i⟩ with hb
  set H2 := H1.cast t i b with hH2
  have hballot : H2.ballot t i = some b := by simp [hH2, History.cast]
  have hle : g.hist ≤ H2 := (History.le_stand hnocamp).trans (History.le_cast hnone)
  refine ⟨g.put H2 i (g.log i) (g.synced i) v.commitIndex,
    grows_put hle hv.commit.ge { ballot := ?_, campaign := ?_ }, ⟨hs2, hw.indexed, hw.plain⟩,
    nodeOk_put hv.id rfl { hv.log with } hi2 ?_ (fun _ => ⟨hcamp, ?_, ?_⟩) (by rintro ⟨⟩),
    List.forall_mem_nil _⟩
  · intro j hj t'; simp [hH2, hH1, History.cast, History.stand, hj]
  · intro j hj t'; simp [hH2, hH1, History.cast, History.stand, hj]
  · show (H2.ballot t i).map Ballot.cand = some v.id
    rw [hballot, hv.id]
    rfl
  · intro p hp
    obtain rfl : p = i := (List.mem_singleton.mp hp).trans hv.id
    exact ⟨b, hballot, rfl⟩
  · intro hlead
    have := hv.step.leader hw.sound (t := t) hlead
    omega

lemma after_solicit (hr : v.role = .candidate)
    (ps : List ReplicaId) : After S R g i v (ps.map fun p =>
      (p, .requestVote v.term v.id v.store.lastIndex v.store.lastTerm)) := by
  refine after_same hw hv fun x hx => ?_
  obtain ⟨p, -, rfl⟩ := List.mem_map.mp hx
  refine ⟨g.log i, ?_, hv.log.store.lastIndex, hv.log.store.lastTerm _⟩
  rw [hv.id]
  exact (hv.candidate hr).campaign

lemma after_vote {c : ReplicaId} {li lt : ℕ}
    (hmsg : PacketOk S R g.hist ⟨s, i, .requestVote v.term c li lt⟩)
    (hup : v.store.lastTerm < lt ∨ v.store.lastTerm = lt ∧ v.store.lastIndex ≤ li)
    (hvote : v.votedFor = none ∨ v.votedFor = some c) :
    After S R g i { v with votedFor := some c } [(c, .requestVoteResp v.term true)] := by
  rcases hvote with hnone | hsome
  · obtain ⟨l, hl, rfl, rfl⟩ := hmsg
    have hballot : g.hist.ballot v.term i = none := by
      have := hv.vote
      rwa [hnone, Option.map_eq_none_iff] at this
    have hup' : S.scheme.UpToDate l (g.log i) := by
      rw [hv.log.store.lastTerm (ConfState.sorted S.voters), hv.log.store.lastIndex] at hup
      exact hup
    obtain ⟨hs, hi⟩ := hv.step.cast hw.sound hballot hl hup'
    set b : Ballot ReplicaId Entry := ⟨c, g.log i, g.synced i⟩ with hb
    set H := g.hist.cast v.term i b with hH
    have hle : g.hist ≤ H := History.le_cast hballot
    have hnew : H.ballot v.term i = some b := by simp [hH, History.cast]
    refine ⟨g.put H i (g.log i) (g.synced i) v.commitIndex,
      grows_put hle hv.commit.ge { ballot := ?_ }, ⟨hs, hw.indexed, hw.plain⟩,
      nodeOk_put hv.id rfl { hv.log with } hi (by rw [hnew]; rfl) (fun hr => ?_)
        (fun hr => { hv.leader hr with }), fun x hx => ?_⟩
    · intro j hj t'; simp [hH, History.cast, hj]
    · have hst := hv.candidate hr
      refine ⟨hst.campaign, fun p hp => ?_, hst.unelected⟩
      obtain ⟨b', hb', hc'⟩ := hst.votes p hp
      exact ⟨b', hle.ballot hb', hc'⟩
    · rw [List.mem_singleton.mp hx]
      exact fun _ => ⟨b, hnew, rfl⟩
  · -- the vote was cast before
    have hv' : { v with votedFor := some c } = v := by rw [← hsome]
    rw [hv']
    refine after_same hw hv fun x hx => ?_
    rw [List.mem_singleton.mp hx]
    intro _
    obtain ⟨b, hb, hc⟩ := Option.map_eq_some_iff.mp (hv.vote.trans hsome)
    exact ⟨b, hb, hc⟩

lemma after_count (hr : v.role = .candidate)
    (hmsg : PacketOk S R g.hist ⟨s, i, .requestVoteResp v.term true⟩) :
    After S R g i { v with votes := v.votes.insert s } [] := by
  have hst := hv.candidate hr
  refine after_same hw ⟨hv.id, hv.commit, { hv.log with }, hv.step, hv.vote,
    fun _ => ⟨hst.campaign, fun p hp => ?_, hst.unelected⟩, fun hr' => { hv.leader hr' with }⟩ nofun
  rcases List.mem_insert_iff.mp hp with rfl | hp
  · exact hmsg rfl
  · exact hst.votes p hp

lemma after_win (hr : v.role = .candidate)
    (hq : v.config.isQuorum v.votes = true) : After S R g i v.lead [] := by
  have hst := hv.candidate hr
  have hQ : (S.scheme.conf (g.log i)).IsQuorum (g.hist.votes v.term i) := by
    have := ConfState.isQuorum_membership hq
    rw [hv.log.config] at this
    exact this.mono hst.votes
  have hnone : g.hist.leader v.term = none := by
    cases hn : g.hist.leader v.term with
    | none => rfl
    | some n =>
      have := hw.sound.unique_winner hn hst.campaign hQ
      rw [this] at hst
      exact absurd hn hst.unelected
  obtain ⟨hs1, hi1⟩ := hv.step.elect hw.sound hnone hst.campaign hQ
  set H1 := g.hist.elect v.term i (g.log i) with hH1
  have hlead1 : H1.leader v.term = some i := by simp [hH1, History.elect]
  have hllog1 : H1.llog v.term = g.log i := by simp [hH1, History.elect]
  have hself : takeOver (g.log i) (H1.llog v.term) (g.log i).length = g.log i := by
    rw [hllog1]
    exact takeOver_eq_self <| List.take_prefix _ _
  obtain ⟨hs2, hi2⟩ := hi1.takeOver hs1 ⟨i, hlead1⟩ (by rw [hllog1])
    (by rw [hself]; exact hi1.settled)
  rw [hself] at hi2
  set H2 := H1.acknowledge v.term i (g.log i).length with hH2
  have hle : g.hist ≤ H2 :=
    (History.le_elect hnone (hw.sound.idle hnone)).trans History.le_acknowledge
  refine ⟨g.put H2 i (g.log i) v.term v.commitIndex,
    grows_put hle hv.commit.ge { ack := ?_, leader := ?_, llog := ?_ },
    ⟨hs2, fun t => ?_, fun hR t => ?_⟩,
    nodeOk_put hv.id rfl { hv.log with } hi2 hv.vote (by rintro ⟨⟩) fun _ =>
      ⟨hlead1, hllog1, ?_, ?_, ?_, ?_, fun k m hc => ?_⟩, List.forall_mem_nil _⟩
  · intro j hj t; simp [hH2, hH1, History.acknowledge, History.elect, hj]
  · intro j hj t ht
    by_cases htt : t = v.term
    · rw [htt] at ht
      exact absurd (Option.some.inj (hlead1.symm.trans ht)) hj.symm
    · simpa [hH2, hH1, History.acknowledge, History.elect, htt] using ht
  · intro j hj t ht
    by_cases htt : t = v.term
    · rw [htt, hnone] at ht
      cases ht
    · simp [hH2, hH1, History.acknowledge, History.elect, htt]
  · by_cases htt : t = v.term
    · rw [htt]
      exact hllog1 ▸ hv.log.store.indexed
    · simpa [Record.put, hH2, hH1, History.acknowledge, History.elect, htt] using hw.indexed t
  · by_cases htt : t = v.term
    · rw [htt]
      show ∀ e ∈ H1.llog v.term, e.payload.config? = none
      rw [hllog1]
      exact hw.plain_of_sourced hR hv.step.sourced
    · simpa [Record.put, hH2, hH1, History.acknowledge, History.elect, htt] using hw.plain hR t
  · have hack : g.hist.ack v.term i = 0 := by
      have := hw.sound.ack v.term i
      rw [hw.sound.idle hnone] at this
      exact Nat.le_zero.mp this
    show H2.ack v.term i = _
    simp [hH2, hH1, History.acknowledge, History.elect, hack]
  · intro p
    show (if p ∈ v.peers then some 0 else none : Option ℕ).getD 0 ≤ _
    split <;> exact Nat.zero_le _
  · intro p
    show 1 ≤ (if p ∈ v.peers then some (v.store.lastIndex + 1) else none : Option ℕ).getD 1
    split
    · exact Nat.le_add_left 1 _
    · exact le_rfl
  · intro p
    show (if p ∈ v.peers then some (v.store.lastIndex + 1) else none : Option ℕ).getD 1 ≤ _
    rw [hv.log.store.lastIndex]
    split
    · exact le_rfl
    · exact Nat.le_add_left 1 _
  · -- nothing is committed in a term before it has a leader
    obtain ⟨⟨n, hn⟩, -⟩ := hw.sound.commits hc
    rw [show g.hist.leader v.lead.term = none from hnone] at hn
    cases hn

/-! ## The log of a leader -/

omit hw hv in
lemma LogOk.replace {l' : List Entry} (h : LogOk S R l v) (hstore : v'.store.Represents l')
    (hbase : v'.store.baseIndex = v.store.baseIndex)
    (hsnap : v'.store.hasSnapshot = v.store.hasSnapshot ∧ v'.store.snapshotData = v.store.snapshotData)
    (hconfig : v'.config.membership = S.scheme.conf l') (hbc : v'.baseConfig = v.baseConfig)
    (hla : v'.lastApplied = v.lastApplied) (hsm : v'.sm = v.sm) (hhist : v'.history = v.history)
    (hci : v.lastApplied ≤ v'.commitIndex) (hl : l'.take v.lastApplied = l.take v.lastApplied) :
    LogOk S R l' v' := by
  have hl' : l'.take v.store.baseIndex = l.take v.store.baseIndex := take_eq_mono hl h.base_le
  refine ⟨hstore, ?_, ?_, hconfig, ?_, ?_, ?_, ?_, ?_, ?_, ?_⟩
  · rw [hsnap.1, hbase]; exact h.unsaved
  · rw [hsnap.1]; exact h.uncompacted
  · rw [hbc, hbase, hl', h.baseConfig]
  · rw [hbase, hla]; exact h.base_le
  · rwa [hla]
  · rw [hbase, hhist, hla, hl]; exact h.history
  · rw [hhist, hla, hl]; exact h.applied
  · rw [hsm, hla, hl]; exact h.sm
  · rw [hsnap.1, hsnap.2, hbase, hl']; exact h.snapshot

omit hw hv in
lemma LogOk.applied_le_length (h : LogOk S R l v) (hs : H.Settled t v.commitIndex l)
    : v.lastApplied ≤ l.length :=
  h.applied_le.trans hs.1

/-- A leader adds an entry to its log. An entry that sets a membership starts a change at the
settled membership in effect, or ends one that is committed. -/
lemma after_append (hr : v.role = .leader)
    {payload : EntryPayload}
    (hplain : ¬R.reconfigures → payload.config? = none)
    (hjoint : ∀ old new, payload = .config (.joint old new) → v.config = .simple old)
    (hsimple : ∀ new, payload = .config (.simple new) → ∃ old idx, v.config = .joint old new ∧
      v.store.lastConfigIndex = some idx ∧ idx ≤ v.commitIndex) :
    After S R g i (v.append payload) [] := by
  have hl := hv.leader hr
  have hlast := hv.log.store.lastIndex
  set e : Entry := ⟨v.term, v.store.lastIndex + 1, payload⟩ with he
  have hchange : S.scheme.change e = payload.config?.map ConfState.membership := rfl
  have hstore := hv.log.store.append (e := e) (by rw [← hlast])
  have hlen := hv.log.applied_le_length hv.step.settled
  -- the history: the leader adds the entry and acknowledges it
  obtain ⟨hs1, hi1⟩ := hv.step.extend hw.sound hl.leader hl.llog (e := e) rfl
    (fun x y hxy => by
      rw [hchange] at hxy
      cases payload with
      | config c =>
        cases c with
        | simple vs => cases hxy
        | joint old new =>
          cases hxy
          rw [← hv.log.config, hjoint x y rfl]
          rfl
      | _ => cases hxy)
    (fun y hy => by
      rw [hchange] at hy
      cases payload with
      | config c =>
        cases c with
        | joint old new => cases hy
        | simple new =>
          cases hy
          obtain ⟨old, idx, hconf, hidx, hle⟩ := hsimple y rfl
          refine ⟨⟨old, by rw [← hv.log.config, hconf]; rfl⟩, fun p e' hp hne => ?_⟩
          -- every membership of the log is committed
          have hpc : p + 1 ≤ v.commitIndex := by
            rcases Nat.lt_or_ge p v.store.baseIndex with hpb | hpb
            · have := hv.log.base_le
              have := hv.log.applied_le
              omega
            · refine (hv.log.store.le_lastConfigIndex hidx hpb hp fun hnone => hne ?_).trans hle
              show e'.payload.config?.map ConfState.membership = none
              rw [hnone]
              rfl
          have hsettled := hv.step.settled.of_le hpc
          obtain ⟨hplen, h0 | ⟨t0, k, j, ht0, hcom, hk, hpre⟩⟩ := hsettled
          · omega
          · refine ⟨t0, k, j, ht0, fun heq => ?_, hcom, ?_, hpre⟩
            · have := (hw.sound.commits hcom).2.2.1
              rw [heq, hl.llog] at this
              exact this
            · rwa [List.length_take_of_le hplen]
      | _ => cases hy)
  set H1 := g.hist.extend v.term e with hH1
  have hllog1 : H1.llog v.term = g.log i ++ [e] := by simp [hH1, History.extend, hl.llog]
  have hself : takeOver (g.log i ++ [e]) (H1.llog v.term) (g.log i ++ [e]).length =
      g.log i ++ [e] := by
    rw [hllog1]
    exact takeOver_eq_self <| List.take_prefix _ _
  obtain ⟨hs2, hi2⟩ := hi1.takeOver hs1 ⟨i, hl.leader⟩ (j := (g.log i ++ [e]).length)
    (by rw [hllog1]) (by rw [hself]; exact hi1.settled)
  rw [hself] at hi2
  set H2 := H1.acknowledge v.term i (g.log i ++ [e]).length with hH2
  have hle : g.hist ≤ H2 := History.le_extend.trans History.le_acknowledge
  have hself2 : H2.ack v.term i = (g.log i ++ [e]).length := by
    have : H2.ack v.term i = max (g.hist.ack v.term i) (g.log i ++ [e]).length := by
      simp [hH2, hH1, History.acknowledge, History.extend]
    rw [this, hl.self, List.length_append]
    exact Nat.max_eq_right (Nat.le_add_right _ _)
  refine ⟨g.put H2 i (g.log i ++ [e]) v.term v.commitIndex,
    grows_put hle hv.commit.ge { ack := ?_, llog := ?_ }, ⟨hs2, fun t => ?_, fun hR t => ?_⟩,
    nodeOk_put hv.id rfl ?_ hi2 hv.vote (fun h => ?_) fun _ => ⟨hl.leader, hllog1, hself2,
      fun p => ?_, hl.next_pos, fun p => ?_, hl.commits⟩, List.forall_mem_nil _⟩
  · intro j hj t; simp [hH2, hH1, History.acknowledge, History.extend, hj]
  · intro j hj t ht
    have htt : t ≠ v.term := by
      rintro rfl
      exact hj (Option.some.inj (ht.symm.trans hl.leader))
    simp [hH2, hH1, History.acknowledge, History.extend, htt]
  · by_cases htt : t = v.term
    · rw [htt]
      exact hllog1 ▸ hstore.indexed
    · simpa [Record.put, hH2, hH1, History.acknowledge, History.extend, htt] using hw.indexed t
  · by_cases htt : t = v.term
    · rw [htt]
      show ∀ x ∈ H2.llog v.term, x.payload.config? = none
      rw [show H2.llog v.term = g.log i ++ [e] from hllog1]
      intro x hx
      rcases List.mem_append.mp hx with hx | hx
      · exact hw.plain_of_sourced hR hv.step.sourced x hx
      · rw [List.mem_singleton.mp hx]
        exact hplain hR
    · simpa [Record.put, hH2, hH1, History.acknowledge, History.extend, htt] using hw.plain hR t
  · have hl' : (g.log i ++ [e]).take v.lastApplied = (g.log i).take v.lastApplied :=
      List.take_append_of_le_length hlen
    refine hv.log.replace hstore rfl ⟨rfl, rfl⟩ ?_ rfl rfl rfl rfl hv.log.applied_le hl'
    show (if payload.config?.isSome then (v.store.append [e]).effective v.baseConfig
      else v.config).membership = _
    split
    · refine hstore.effective ?_
      rw [hv.log.baseConfig]
      show _ = S.scheme.conf ((g.log i ++ [e]).take v.store.baseIndex)
      rw [List.take_append_of_le_length (hv.log.base_le.trans hlen)]
    · rename_i hnone
      rw [hv.log.config, S.scheme.conf_concat_none]
      rw [hchange, Option.not_isSome_iff_eq_none.mp hnone]
      rfl
  · rw [show v.role = .candidate from h] at hr
    cases hr
  · show (if p = v.id then (v.matchIndex p).map fun _ => v.store.lastIndex + 1
      else v.matchIndex p).getD 0 ≤ _
    have hold : (v.matchIndex p).getD 0 ≤ H2.ack v.term p := (hl.matched p).trans (hle.ack _ _)
    split
    · rename_i hp
      cases hm : v.matchIndex p with
      | none => exact Nat.zero_le _
      | some m =>
        rw [hp, hv.id]
        show v.store.lastIndex + 1 ≤ H2.ack v.term i
        rw [hself2, hlast, List.length_append]
        exact le_rfl
    · exact hold
  · refine (hl.next_le p).trans ?_
    rw [List.length_append]
    omega

omit hw in
lemma packetOk_appendFor (hr : v.role = .leader)
    (p : ReplicaId) : PacketOk S R g.hist ⟨i, p, v.appendFor p⟩ := by
  have hl := hv.leader hr
  have hset : g.hist.Settled v.term v.commitIndex (g.hist.llog v.term) := by
    rw [hl.llog]
    exact hv.step.settled
  have hpos := hl.next_pos p
  have hle := hl.next_le p
  have hbc := hv.log.base_le.trans hv.log.applied_le
  unfold View.appendFor
  dsimp only
  split
  · rename_i hnext
    have hhas : v.store.hasSnapshot = true := by
      by_contra hno
      have := hv.log.unsaved (Bool.not_eq_true _ ▸ hno)
      omega
    refine ⟨?_, hv.id ▸ hl.leader, ?_, ?_, hset.of_le hbc, fun hF => ?_⟩
    · by_contra hc
      rw [hv.log.uncompacted hc] at hhas
      cases hhas
    · rw [hl.llog, hv.log.store.baseTerm]
      rfl
    · rw [hl.llog, hv.log.baseConfig]
    · rw [hl.llog, hv.log.snapshot hF hhas]
  · refine ⟨hv.id ▸ hl.leader, (g.log i).length, by omega, by rw [hl.llog], ?_, ?_,
      hv.step.settled.1, hset⟩
    · rw [hl.llog, List.take_length, hv.log.store.entries (by omega)]
    · rw [hl.llog, hv.log.store.termAt_of_le (ConfState.sorted S.voters) (by omega) (by omega)]
      rfl

lemma after_matched (hr : v.role = .leader) {m ci : ℕ}
    (hmsg : PacketOk S R g.hist ⟨s, i, .appendEntriesResp v.term true m ci r⟩) :
    After S R g i (v.matched s m r) [] := by
  have hl := hv.leader hr
  have hm : m ≤ g.hist.ack v.term s := hmsg rfl
  have hlen : m ≤ (g.log i).length := by
    have := hw.sound.ack v.term s
    rw [hl.llog] at this
    exact hm.trans this
  refine after_same hw ⟨hv.id, hv.commit, { hv.log with }, hv.step, hv.vote, fun h => { hv.candidate h with },
    fun _ => ⟨hl.leader, hl.llog, hl.self, fun p => ?_, fun p => ?_, fun p => ?_, hl.commits⟩⟩ nofun
  · show (if p = s then some m else v.matchIndex p).getD 0 ≤ _
    split
    · rename_i hp
      rw [hp]
      exact hm
    · exact hl.matched p
  · show 1 ≤ (if p = s then some (m + 1) else v.nextIndex p).getD 1
    split
    · exact Nat.le_add_left 1 m
    · exact hl.next_pos p
  · show (if p = s then some (m + 1) else v.nextIndex p).getD 1 ≤ _
    split
    · exact Nat.succ_le_succ hlen
    · exact hl.next_le p

lemma after_back (hr : v.role = .leader) {k : ℕ} (hk : 1 ≤ k)
    (hk' : k ≤ max ((v.nextIndex s).getD 1 - 1) 1) : After S R g i (v.back s k r) [] := by
  have hl := hv.leader hr
  refine after_same hw ⟨hv.id, hv.commit, { hv.log with }, hv.step, hv.vote, fun h => { hv.candidate h with },
    fun _ => ⟨hl.leader, hl.llog, hl.self, hl.matched, fun p => ?_, fun p => ?_, hl.commits⟩⟩ nofun
  · show 1 ≤ (if p = s then some k else v.nextIndex p).getD 1
    split
    · exact hk
    · exact hl.next_pos p
  · show (if p = s then some k else v.nextIndex p).getD 1 ≤ _
    split
    · have := hl.next_le s
      show k ≤ _
      omega
    · exact hl.next_le p

lemma after_commit (hr : v.role = .leader) {idx : ℕ}
    (hlt : v.commitIndex < idx) (hidx : idx ≤ v.store.lastIndex)
    (hterm : v.store.termAt idx = some v.term) (hq : v.config.isQuorum (v.ackers idx) = true) :
    After S R g i { v with commitIndex := idx } [] := by
  have hl := hv.leader hr
  rw [hv.log.store.lastIndex] at hidx
  obtain ⟨k, rfl⟩ : ∃ k, idx = k + 1 := ⟨idx - 1, by omega⟩
  obtain ⟨e, he⟩ : ∃ e, (g.log i)[k]? = some e := ⟨_, List.getElem?_eq_getElem hidx⟩
  have heterm : e.term = v.term := by
    obtain ⟨-, -, ht⟩ := hv.log.store.of_termAt [] hterm
    rwa [Scheme.take_concat he, Scheme.lastTerm_concat] at ht
  have hQ : (S.scheme.conf (g.log i)).IsQuorum {p | k + 1 ≤ g.hist.ack v.term p} := by
    have := ConfState.isQuorum_membership hq
    rw [hv.log.config] at this
    refine this.mono fun p hp => ?_
    rcases List.mem_cons.mp hp with rfl | hp
    · show k + 1 ≤ g.hist.ack v.term v.id
      rw [hv.id, hl.self]
      exact hidx
    · exact (of_decide_eq_true (List.mem_filter.mp hp).2).trans (hl.matched p)
  obtain ⟨hs, hi⟩ := hv.step.commitUpTo hw.sound hl.leader hl.llog he heterm hQ
  set H := g.hist.commit v.term (k + 1) (g.log i).length with hH
  have hla := hv.log.applied_le
  have hlt' : g.commit i ≤ k + 1 := hv.commit ▸ hlt.le
  refine ⟨g.put H i (g.log i) (g.synced i) (k + 1),
    grows_put History.le_commit hlt' { commits := ?_ }, ⟨hs, hw.indexed, hw.plain⟩,
    nodeOk_put hv.id rfl { hv.log with applied_le := ?_ } hi hv.vote
      (fun h => { hv.candidate h with })
      (fun h => { hv.leader h with commits := fun k' m hc => ?_ }), nofun⟩
  · rintro j hj t ht k' m (hc | ⟨rfl, -⟩)
    · exact hc
    · exact absurd (Option.some.inj (ht.symm.trans hl.leader)) hj
  · exact hla.trans hlt.le
  · rcases hc with hc | ⟨-, rfl, -⟩
    · exact (hl.commits k' m hc).trans hlt.le
    · exact le_rfl

/-! ## Following a leader -/

omit hw hv in
lemma take_eq_of_lastTerm {L : List Entry} (hl : H.Sourced S.scheme l) (hL : H.Sourced S.scheme L)
    {k : ℕ} (hk : k ≤ l.length) (hk' : k ≤ L.length)
    (hterm : S.scheme.lastTerm (l.take k) = S.scheme.lastTerm (L.take k)) :
    L.take k = l.take k := by
  cases k with
  | zero => rfl
  | succ k =>
    obtain ⟨e, he⟩ : ∃ e, l[k]? = some e := ⟨_, List.getElem?_eq_getElem hk⟩
    obtain ⟨e', he'⟩ : ∃ e, L[k]? = some e := ⟨_, List.getElem?_eq_getElem hk'⟩
    rw [Scheme.take_concat he, Scheme.take_concat he', Scheme.lastTerm_concat,
      Scheme.lastTerm_concat] at hterm
    exact (Sourced.agree hl hL he he' hterm).symm

omit hw hv in
lemma NodeOk.committed_le (hv : NodeOk S R g i v) (hw : WorldOk S R g)
    (hlead : ∃ n, g.hist.leader v.term = some n) :
    (g.log i).take v.commitIndex <+: g.hist.llog v.term :=
  hw.sound.settled_leader hv.step.settled le_rfl hlead

lemma after_takeOver (hr : v.role = .follower) (hlead : ∃ n, g.hist.leader v.term = some n) {j : ℕ}
    (hj : j ≤ (g.hist.llog v.term).length) (v' : View σ) (hid : v'.id = v.id)
    (hterm : v'.term = v.term) (hrole : v'.role = v.role) (hvf : v'.votedFor = v.votedFor)
    (hci : v.commitIndex ≤ v'.commitIndex)
    (hlog : LogOk S R (takeOver (g.log i) (g.hist.llog v.term) j) v')
    (hset : g.hist.Settled v.term v'.commitIndex (takeOver (g.log i) (g.hist.llog v.term) j))
    {l : ReplicaId} {m ci : ℕ} (hm : m ≤ j) :
    After S R g i v' [(l, .appendEntriesResp v.term true m ci r)] := by
  obtain ⟨hs, hi⟩ := hv.step.takeOver hw.sound hlead hj hset
  set H := g.hist.acknowledge v.term i j with hH
  have hack : H.ack v.term i = max (g.hist.ack v.term i) j := by simp [hH, History.acknowledge]
  refine ⟨g.put H i _ v.term v'.commitIndex,
    grows_put History.le_acknowledge (hv.commit ▸ hci) { ack := ?_ }, ⟨hs, hw.indexed, hw.plain⟩,
    nodeOk_put (hid.trans hv.id) rfl hlog (hterm ▸ hi) ?_ ?_ ?_, fun x hx => ?_⟩
  · intro p hp t; simp [hH, History.acknowledge, hp]
  · rw [hterm, hvf]
    exact hv.vote
  · intro h
    rw [hrole, hr] at h
    cases h
  · intro h
    rw [hrole, hr] at h
    cases h
  · rw [List.mem_singleton.mp hx]
    intro _
    show m ≤ H.ack v.term i
    omega

/-- **A follower takes over entries** that follow on its log. -/
lemma after_accept (hr : v.role = .follower) {l : ReplicaId} {prev pt : ℕ} {es : List Entry}
    (hmsg : PacketOk S R g.hist ⟨s, i, .appendEntries v.term l prev pt es c r⟩)
    (hprev : v.store.termAt prev = some pt) :
    After S R g i (v.accept es c) [(l, .appendEntriesResp v.term true (prev + es.length) 0 r)] := by
  obtain ⟨hlead, j, hpj, hj, rfl, rfl, hcj, hset⟩ := hmsg
  set L := g.hist.llog v.term with hL
  have hlead' : ∃ n, g.hist.leader v.term = some n := ⟨l, hlead⟩
  have hLsrc : g.hist.Sourced S.scheme L := hw.sound.sourced_llog hlead'
  have hcom := hv.committed_le hw hlead'
  have hbc := hv.log.base_le.trans hv.log.applied_le
  -- the logs agree up to the previous entry, and behind the snapshot
  have hpre : L.take prev <+: g.log i := by
    obtain ⟨hlen, -, ht⟩ := hv.log.store.of_termAt (ConfState.sorted S.voters) hprev
    rw [take_eq_of_lastTerm hv.step.sourced hLsrc hlen (hpj.trans hj) ht]
    exact List.take_prefix _ _
  have hbase : L.take v.store.baseIndex <+: g.log i := by
    rw [take_eq_of_take (take_prefix_of_le hbc hcom) hv.log.store.base_le]
    exact List.take_prefix _ _
  have hmatch : ∀ q e e', (g.log i)[q]? = some e → L[q]? = some e' → e.term = e'.term →
      L.take (q + 1) <+: g.log i := by
    intro q e e' he he' ht
    rw [← Sourced.agree hv.step.sourced hLsrc he he' ht]
    exact List.take_prefix _ _
  have hstore := hv.log.store.splices (hw.indexed _) hbase hmatch hpj hj hpre
  set l' := takeOver (g.log i) L j with hl'
  -- what is committed stays
  have hkeep : (g.log i).take v.commitIndex <+: l' := le_takeOver ( List.take_prefix _ _) hcom
  have hjl : L.take j <+: l' := take_le_takeOver
  have hlast := hstore.lastIndex
  have hjlen : j ≤ l'.length := le_length_of_take hjl hj
  set store := ((L.take j).drop prev).foldl MemLogStore.splice v.store with hst
  have hci : (v.accept ((L.take j).drop prev) c).commitIndex =
      if v.commitIndex < c then c else v.commitIndex := by
    show (if v.commitIndex < c then min c store.lastIndex else v.commitIndex) = _
    rw [hlast, Nat.min_eq_left (hcj.trans hjlen)]
  have hlen : prev + ((L.take j).drop prev).length = j := by
    rw [List.length_drop, List.length_take_of_le hj]
    omega
  refine after_takeOver hw hv hr hlead' hj (v.accept _ c) rfl rfl rfl rfl
    (by rw [hci]; split <;> omega) ?_ ?_ hlen.le
  · refine hv.log.replace hstore (MemLogStore.splices_baseIndex _ _)
      (MemLogStore.splices_snapshot _ _) ?_ rfl rfl rfl rfl ?_ ?_
    · refine hstore.effective ?_
      rw [hv.log.baseConfig, MemLogStore.splices_baseIndex]
      rw [take_eq_of_take (take_prefix_of_le hbc hkeep) hv.log.store.base_le]
    · rw [hci]
      have := hv.log.applied_le
      split <;> omega
    · exact take_eq_of_take (take_prefix_of_le hv.log.applied_le hkeep)
        (hv.log.applied_le_length hv.step.settled)
  · rw [hci]
    split
    · exact hset.congr (take_prefix_of_le hcj hjl)
    · exact hv.step.settled.congr hkeep

/-- **A follower installs a snapshot** of the leader. -/
lemma after_install (hr : v.role = .follower) {l : ReplicaId} {idx : ℕ} {config : ConfState}
    {data : Bytes}
    (hmsg : PacketOk S R g.hist ⟨s, i, .installSnapshot v.term l idx t config data r⟩)
    (hidx : v.store.baseIndex < idx) (hfresh : R.fresh → v.lastApplied ≤ idx) :
    After S R g i (v.install S.machine idx t config data)
      [(l, .appendEntriesResp v.term true idx 0 r)] := by
  obtain ⟨hcompacts, hlead, rfl, hconfig, hset, hdata⟩ := hmsg
  set L := g.hist.llog v.term with hL
  have hlead' : ∃ n, g.hist.leader v.term = some n := ⟨l, hlead⟩
  have hLsrc : g.hist.Sourced S.scheme L := hw.sound.sourced_llog hlead'
  have hcom := hv.committed_le hw hlead'
  have hlenL : idx ≤ L.length := hset.1
  set l' := takeOver (g.log i) L idx with hl'
  have hkeep : (g.log i).take v.commitIndex <+: l' := le_takeOver ( List.take_prefix _ _) hcom
  have hidxl : L.take idx <+: l' := take_le_takeOver
  have htake : l'.take idx = L.take idx := take_eq_of_take hidxl hlenL
  set v' := v.install S.machine idx (S.scheme.lastTerm (L.take idx)) config data with hv'
  have hstore : v'.store.Represents l' := by
    show MemLogStore.Represents (MemLogStore.saveSnapshot (if v.store.termAt idx ≠
      some (S.scheme.lastTerm (L.take idx)) then v.store.truncateSuffix (v.store.baseIndex + 1)
        else v.store) _) l'
    by_cases hkept : v.store.termAt idx = some (S.scheme.lastTerm (L.take idx))
    · -- the entry is there: the end of the log is kept
      obtain ⟨hlen, -, hterm⟩ := hv.log.store.of_termAt (ConfState.sorted S.voters) hkept
      have hagree := take_eq_of_lastTerm hv.step.sourced hLsrc hlen hlenL hterm
      have hself : l' = g.log i := takeOver_eq_self (by rw [hagree]; exact List.take_prefix _ _)
      rw [if_neg (not_not.mpr hkept), hself]
      refine hv.log.store.saveSnapshot hidx.le hlen ?_
      rw [hagree]
      rfl
    · -- the entry is missing or of another term: nothing of the log is kept
      have hnot : ¬L.take idx <+: g.log i := by
        intro hin
        refine hkept ?_
        have hlen := le_length_of_take hin hlenL
        rw [hv.log.store.termAt_of_le (ConfState.sorted S.voters) hidx.le hlen,
          take_eq_of_take hin hlenL]
      have hempty : (v.store.truncateSuffix (v.store.baseIndex + 1)).log = [] := by
        have := (hv.log.store.truncateSuffix (Nat.lt_succ_self _)).log
        rw [MemLogStore.truncateSuffix_baseIndex] at this
        rw [this, List.drop_eq_nil_of_le (by rw [List.length_take]; omega)]
      rw [if_pos hkept, hl', takeOver_eq_take hnot]
      refine ⟨(hw.indexed _).take _, (List.length_take_of_le hlenL).ge, ?_, ?_⟩
      · show (v.store.truncateSuffix (v.store.baseIndex + 1)).log.filter _ = (L.take idx).drop idx
        rw [hempty, List.drop_eq_nil_of_le (List.length_take_le _ _)]
        rfl
      · show S.scheme.lastTerm (L.take idx) = (scheme []).lastTerm ((L.take idx).take idx)
        rw [List.take_take, Nat.min_self]
        rfl
  have hbaseConfig : config.membership = S.scheme.conf (l'.take idx) := by rw [htake, hconfig]
  refine after_takeOver hw hv hr hlead' hlenL v' rfl rfl rfl rfl (le_max_left _ _) ⟨hstore, nofun, ?_, ?_, hbaseConfig,
    le_max_right _ _, ?_, ?_, ?_, ?_, ?_⟩ ?_ le_rfl
  · exact fun hno => absurd hcompacts hno
  · exact hstore.effective hbaseConfig
  · exact Nat.max_le.mpr ⟨hv.log.applied_le.trans (le_max_left _ _), le_max_right _ _⟩
  · intro h0
    have : idx = 0 := h0
    omega
  · intro e he
    have hsub : (g.log i).take v.lastApplied <+: l'.take (max v.lastApplied idx) := by
      rw [← take_eq_of_take (take_prefix_of_le hv.log.applied_le hkeep)
        (hv.log.applied_le_length hv.step.settled)]
      exact (List.take_prefix_take_left (le_max_left _ _))
    exact hsub.subset (hv.log.applied e he)
  · intro hF
    have hmax : max v.lastApplied idx = idx := Nat.max_eq_right (hfresh (hF hcompacts).1)
    show S.machine.restore v.sm data = S.stateAfter (l'.take (max v.lastApplied idx))
    rw [hmax, htake, hdata hF, (hF hcompacts).2]
  · intro hF _
    show data = S.machine.snapshot (S.stateAfter (l'.take idx))
    rw [htake, hdata hF]
  · show g.hist.Settled v.term (max v.commitIndex idx) l'
    rcases le_total v.commitIndex idx with hle | hle
    · rw [Nat.max_eq_right hle]
      exact hset.congr hidxl
    · rw [Nat.max_eq_left hle]
      exact hv.step.settled.congr hkeep

/-- **A follower whose whole log is committed** answers an outdated snapshot with the end of its
log. -/
lemma after_covered (hr : v.role = .follower) {l : ReplicaId}
    (hlead : g.hist.leader v.term = some l) (hall : v.store.lastIndex ≤ v.commitIndex) :
    After S R g i v [(l, .appendEntriesResp v.term true v.store.lastIndex 0 r)] := by
  rw [hv.log.store.lastIndex] at hall ⊢
  have hcom := hv.committed_le hw ⟨l, hlead⟩
  rw [List.take_of_length_le hall] at hcom
  have hself : takeOver (g.log i) (g.hist.llog v.term) (g.log i).length = g.log i := by
    refine takeOver_eq_self ?_
    rw [take_of_le hcom le_rfl, List.take_length]
  refine after_takeOver hw hv hr ⟨l, hlead⟩ hcom.length_le v rfl rfl rfl rfl le_rfl ?_ ?_ le_rfl
  · rw [hself]
    exact hv.log
  · rw [hself]
    exact hv.step.settled

/-! ## Applying, snapshots and restarts -/

lemma after_apply (hlt : v.lastApplied < v.commitIndex) :
    After S R g i (v.applyNext S.machine) [] := by
  have hlen : v.lastApplied < (g.log i).length := hlt.trans_le hv.step.settled.1
  obtain ⟨e, he⟩ : ∃ e, (g.log i)[v.lastApplied]? = some e := ⟨_, List.getElem?_eq_getElem hlen⟩
  have hbase := hv.log.base_le
  have hentry : (if v.lastApplied + 1 ≤ v.store.baseIndex then none
      else v.store.entry (v.lastApplied + 1)) = some e := by
    rw [if_neg (by omega), hv.log.store.entry (by omega), Nat.add_sub_cancel, he]
  have htake := Scheme.take_concat he
  unfold View.applyNext
  rw [hentry]
  refine after_same hw ⟨hv.id, hv.commit, { hv.log with
    base_le := hbase.trans (Nat.le_succ _), applied_le := hlt, history := ?_, applied := ?_,
    sm := ?_ }, hv.step,
    hv.vote, fun h => { hv.candidate h with }, fun h => { hv.leader h with }⟩ nofun
  · intro h0
    rw [htake, ← hv.log.history h0]
  · intro x hx
    rw [htake]
    exact List.mem_append.mpr ((List.mem_append.mp hx).imp_left (hv.log.applied x))
  · intro hF
    show S.machine.exec v.sm e = S.stateAfter _
    rw [htake, hv.log.sm hF]
    unfold Setup.stateAfter StateMachine.replay
    rw [List.foldl_append]
    rfl

lemma after_compact (hR : R.compacts) (hlt : v.store.baseIndex < v.lastApplied)
    (ht : v.store.termAt v.lastApplied = some t) : After S R g i (v.compact S.machine t) [] := by
  have hlen := hv.log.applied_le_length hv.step.settled
  obtain ⟨-, -, hterm⟩ := hv.log.store.of_termAt [] ht
  have hstore : (v.compact S.machine t).store.Represents (g.log i) :=
    hv.log.store.saveSnapshot hlt.le hlen hterm.symm
  have hbase := hv.log.store.configAt hv.log.baseConfig hlt.le
  refine after_same hw ⟨hv.id, hv.commit, ⟨hstore, nofun, fun h => absurd hR h, hstore.effective hbase, hbase,
    le_rfl, hv.log.applied_le, ?_, hv.log.applied, hv.log.sm, ?_⟩, hv.step, hv.vote,
    fun h => { hv.candidate h with }, fun h => { hv.leader h with }⟩ nofun
  · intro h0
    have : v.lastApplied = 0 := h0
    omega
  · intro hF _
    show S.machine.snapshot v.sm = _
    rw [hv.log.sm hF]
    rfl

/-- **A replica that resumes from its store** is where it was, as a follower. -/
lemma after_resume
    (hanchor : R.compacts → R.reconfigures → v.baseConfig = S.bootstrap) :
    After S R g i (v.resume S.machine S.bootstrap S.sm) [] := by
  have hboot : S.bootstrap.membership = S.scheme.conf ((g.log i).take v.store.baseIndex) := by
    by_cases hc : R.compacts
    · by_cases hre : R.reconfigures
      · rw [← hanchor hc hre]
        exact hv.log.baseConfig
      · refine (S.conf_of_plain fun e he => ?_).symm
        exact hw.plain_of_sourced hre hv.step.sourced e (List.mem_of_mem_take he)
    · rw [hv.log.unsaved (hv.log.uncompacted hc)]
      rfl
  have hbase := hv.log.store.configAt hboot le_rfl
  have hbc := hv.log.base_le.trans hv.log.applied_le
  have hci : max v.commitIndex v.store.baseIndex = v.commitIndex := Nat.max_eq_left hbc
  have hsame : (v.resume S.machine S.bootstrap S.sm).commitIndex = v.commitIndex := hci
  refine after_same hw ⟨hv.id, hsame.trans hv.commit, ⟨hv.log.store, hv.log.unsaved, hv.log.uncompacted,
    hv.log.store.effective hbase, hbase, le_rfl, ?_, ?_, nofun, ?_, hv.log.snapshot⟩, ?_, hv.vote,
    nofun, nofun⟩ nofun
  · rw [hsame]
    exact hbc
  · intro h0
    show [] = (g.log i).take v.store.baseIndex
    have h0' : v.store.baseIndex = 0 := h0
    rw [h0']
    rfl
  · intro hF
    show (if v.store.hasSnapshot then S.machine.restore S.sm v.store.snapshotData else S.sm) =
      S.stateAfter ((g.log i).take v.store.baseIndex)
    cases hs : v.store.hasSnapshot with
    | false =>
      rw [hv.log.unsaved hs]
      rfl
    | true =>
      have hc : R.compacts := by
        by_contra hc
        rw [hv.log.uncompacted hc] at hs
        cases hs
      rw [if_pos rfl, hv.log.snapshot hF hs, (hF hc).2]
  · rw [hsame]
    exact hv.step

end

/-! ## All moves -/

/-- With snapshots, outdated ones only reach replicas whose log is committed, and restarts keep
the membership if it changes. -/
def Rules.Careful (R : Rules) : Prop := R.compacts → R.settled ∧ (R.reconfigures → R.anchored)

/-- **Every move keeps the invariant.** -/
lemma after_move {S : Setup σ} {R : Rules} (hR : R.Careful) {g : Record} {i : ReplicaId}
    {v : View σ} {o : List Out} {inbox : ReplicaId → Message → Prop} (hw : WorldOk S R g)
    (hv : NodeOk S R g i v) (hin : ∀ s m, inbox s m → PacketOk S R g.hist ⟨s, i, m⟩)
    (hm : Move S.machine R inbox v v' o) : After S R g i v' o := by
  have quiet : ∀ {v' : View σ} {o : List Out}, NodeOk S R g i v' →
      (∀ x ∈ o, PacketOk S R g.hist ⟨i, x.1, x.2⟩) → After S R g i v' o := after_same hw
  cases hm with
  | follow ht => exact after_follow hw hv ht
  | campaign hr hid => exact after_campaign hw hv
  | solicit ps hr => exact after_solicit hw hv hr ps
  | vote hmsg hup hvote => exact after_vote hw hv (hin _ _ hmsg) hup hvote
  | refuse p t =>
    refine quiet hv fun x hx => ?_
    rw [List.mem_singleton.mp hx]
    exact nofun
  | count hr hmsg => exact after_count hw hv hr (hin _ _ hmsg)
  | win hr hq => exact after_win hw hv hr hq
  | @append payload hr hp =>
    refine after_append hw hv hr (fun _ => hp) ?_ ?_
    · rintro old new rfl
      cases hp
    · rintro new rfl
      cases hp
  | @begin old new hre hr hc =>
    refine after_append hw hv hr (absurd hre) ?_ nofun
    rintro old' new' h
    cases h
    exact hc
  | @finalize old new idx hr hc hidx hle =>
    refine after_append hw hv hr (fun hre => ?_) nofun ?_
    · -- a change that ends has begun
      have hconf := hv.log.config
      rw [S.conf_of_plain (hw.plain_of_sourced hre hv.step.sourced), hc] at hconf
      cases hconf
    rintro new' h
    cases h
    exact ⟨old, idx, hc, hidx, hle⟩
  | send ps hr =>
    refine quiet hv fun x hx => ?_
    obtain ⟨p, -, rfl⟩ := List.mem_map.mp hx
    exact packetOk_appendFor hv hr p
  | matched hr hmsg => exact after_matched hw hv hr (hin _ _ hmsg)
  | back hr _ hk hk' _ => exact after_back hw hv hr hk hk'
  | commit hr hlt hidx hterm hq => exact after_commit hw hv hr hlt hidx hterm hq
  | apply hlt => exact after_apply hw hv hlt
  | compact hc hlt ht => exact after_compact hw hv hc hlt ht
  | accept hr hmsg hprev => exact after_accept hw hv hr (hin _ _ hmsg) hprev
  | install hr hmsg hidx hfresh => exact after_install hw hv hr (hin _ _ hmsg) hidx hfresh
  | covered hr hmsg _ hall =>
    obtain ⟨hc, hlead, -⟩ := hin _ _ hmsg
    exact after_covered hw hv hr hlead (hall (hR hc).1)
  | outdated | conflict =>
    refine quiet hv fun x hx => ?_
    rw [List.mem_singleton.mp hx]
    exact nofun
  | heartbeat | ask | serve | decline | collect =>
    exact quiet ⟨hv.id, hv.commit, { hv.log with }, hv.step, hv.vote, fun h => { hv.candidate h with },
      fun h => { hv.leader h with }⟩ nofun

/-- **The invariant of every run** that follows careful rules. -/
def safety (S : Setup σ) {R : Rules} (hR : R.Careful) : MoveInvariant S R Record where
  world := WorldOk S R
  node := NodeOk S R
  packet g := PacketOk S R g.hist
  grows := Grows
  grows_refl := .refl
  grows_trans h h' := h.trans h'
  grows_le h := h.record_le
  node_mono hw hw' hg hj h := h.mono hw hw' hg hj
  packet_mono hg h := h.mono hg.le
  move hw hv hin hm := after_move hR hw hv hin hm
  resume hw hv hb := by
    obtain ⟨g', hg, hw', hv', -⟩ := after_resume hw hv fun hc hre => hb ((hR hc).2 hre)
    exact ⟨g', hg, hw', hv'⟩

end CrabScheme.Raft
