import CrabScheme.Raft.Reads

/-!
# Linearizable reads

With a fixed membership, a leader answers a read from a state that has applied everything that was
committed anywhere when the read was issued. That needs a leader that has committed an entry of its
own term when it receives the read, which the code does not ask for: a leader that was just elected
can answer from a state that lacks what its predecessor committed.

## Main results

* `Setup.linearizable_reads` — answers reflect everything committed when the read
  was issued.
-/

namespace CrabScheme.Raft

open Replication

variable {σ : Type}

/-! ## Steady runs -/

namespace Setup

variable (S : Setup σ)

/-- **A steady action.** A leader only receives a read when the entry at its commit index is of its
own term. The rejection of a message of an earlier term confirms none of the reads of the leader
it reaches. A snapshot only reaches replicas whose log is committed, if their own covers it, and
is only installed where it covers what is applied. -/
def Steady (c : Cluster σ) : Action → Prop
  | .deliver k =>
    match c.sent[k]? with
    | some ⟨_, i, .installSnapshot t _ li _ _ _ _⟩ => (c.nodes i).currentTerm ≤ t →
      (li ≤ (c.nodes i).store.baseIndex → (c.nodes i).lastLogIndex ≤ (c.nodes i).commitIndex) ∧
        ((c.nodes i).store.baseIndex < li → (c.nodes i).lastApplied ≤ li)
    | some ⟨_, i, .appendEntriesResp t ok _ ci r⟩ => (c.nodes i).role = .leader →
      t = (c.nodes i).currentTerm → ok = false → ci = 0 →
        r ≤ (c.nodes i).readSeq ∧ ∀ pr ∈ (c.nodes i).pendingReads, r < pr.minSeq
    | _ => True
  | .read i _ _ => (c.nodes i).role = .leader →
    (c.nodes i).store.termAt (c.nodes i).commitIndex = some (c.nodes i).currentTerm
  | _ => True

instance (c : Cluster σ) (a : Action) : Decidable (Steady c a) := by
  unfold Steady
  induction a using Action.casesOn with
  | deliver k =>
    dsimp only
    generalize c.sent[k]? = p
    induction p using Option.casesOn with
    | none => infer_instance
    | some p =>
      induction p using Packet.casesOn with
      | mk s i msg => induction msg using Message.casesOn <;> infer_instance
  | _ => infer_instance

/-- The rules of steady runs. -/
def steadyRules : Rules := ⟨True, False, True, True, False, True⟩

lemma steadyRules_careful : steadyRules.Careful := fun _ => ⟨trivial, nofun⟩

variable {S}

lemma obeys_of_steady {c : Cluster σ} {a : Action} (h : Steady c a)
    (hconf : ∀ i vs, a ≠ .proposeConf i vs) : S.Obeys steadyRules c a := by
  cases a with
  | proposeConf i vs => exact absurd rfl (hconf i vs)
  | deliver k =>
    rintro ⟨s, i, msg⟩ hp
    dsimp only [Steady] at h
    rw [hp] at h
    cases msg with
    | installSnapshot => exact fun hle => ⟨fun _ => (h hle).1, fun _ => (h hle).2⟩
    | appendEntriesResp => exact fun _ => h
    | _ => trivial
  | restart i => exact nofun
  | _ => trivial

lemma steady_run {as : List Action} (hconf : ∀ i vs, .proposeConf i vs ∉ as)
    (has : Actions.Allowed S.step Steady S.init as) :
    ∃ G : ℕ → Record × Watch, (∀ k m, k ≤ m → G k ≤ G m) ∧
      ∀ k, (watching S steadyRules_careful trivial).Holds (S.run (as.take k)) (G k) := by
  have hinit : (watching S steadyRules_careful trivial).Holds S.init
      (blank, ⟨fun _ => 0, fun _ => 0, fun _ _ _ => 0⟩) := by
    have h := S.holds_init steadyRules_careful
    exact ⟨h.proper, ⟨h.world, fun _ _ => le_rfl, fun _ => rfl⟩,
      fun i => ⟨h.node i, rfl, fun _ => ⟨fun _ => rfl, rfl⟩, nofun, fun _ => le_rfl, nofun, nofun⟩,
      nofun⟩
  have hallowed : Actions.Allowed S.step (S.Obeys steadyRules) S.init as := by
    refine Actions.Allowed.mono (fun c a h => ?_)
      (has.with_mem (Q := fun a => ∀ i vs, a ≠ .proposeConf i vs) ?_)
    · exact obeys_of_steady h.1 h.2
    · rintro a ha i vs rfl
      exact hconf i vs ha
  exact MoveInvariant.run (fun _ _ => trivial) hinit hallowed

/-! ## The reads of a run -/

variable (S)

/-- **A read is served.** Replica `i` receives it in step `k` as the leader. It waits until step
`m`, and in that step it is gone while the replica still leads the same term. -/
structure Serves (as : List Action) (i : ReplicaId) (k m reqId : ℕ) (query : Bytes) : Prop where
  le : k ≤ m
  issued : as[k]? = some (.read i reqId query)
  led : ((S.run (as.take k)).nodes i).role = .leader
  waits : ∀ s, k < s → s ≤ m → ⟨reqId, query, ((S.run (as.take k)).nodes i).commitIndex,
    ((S.run (as.take k)).nodes i).readSeq + 1⟩ ∈ ((S.run (as.take s)).nodes i).pendingReads
  gone : ⟨reqId, query, ((S.run (as.take k)).nodes i).commitIndex,
    ((S.run (as.take k)).nodes i).readSeq + 1⟩ ∉ ((S.run (as.take (m + 1))).nodes i).pendingReads
  leads : ((S.run (as.take (m + 1))).nodes i).role = .leader
  term : ((S.run (as.take (m + 1))).nodes i).currentTerm =
    ((S.run (as.take k)).nodes i).currentTerm

/-- A read has waited since it was issued. -/
structure Waiting (as : List Action) (i : ReplicaId) (k m : ℕ) (pr : PendingRead) : Prop where
  lt : k < m
  issued : as[k]? = some (.read i pr.reqId pr.query)
  led : ((S.run (as.take k)).nodes i).role = .leader
  index : pr.readIndex = ((S.run (as.take k)).nodes i).commitIndex
  seq : pr.minSeq = ((S.run (as.take k)).nodes i).readSeq + 1
  waits : ∀ s, k < s → s ≤ m → pr ∈ ((S.run (as.take s)).nodes i).pendingReads
  term : ((S.run (as.take m)).nodes i).currentTerm = ((S.run (as.take k)).nodes i).currentTerm

variable {S}

section Track

variable {as : List Action} (hidle : ∀ k i, ((S.run (as.take k)).nodes i).role ≠ .leader →
  ((S.run (as.take k)).nodes i).pendingReads = [])

include hidle

/-- **What a step does to the reads of a replica.** -/
lemma tends_step (m : ℕ) (i : ReplicaId) :
    ((S.run (as.take m)).nodes i).Tends S.machine ((S.run (as.take (m + 1))).nodes i) ∨
    ∃ reqId query, as[m]? = some (.read i reqId query) ∧
      ((S.run (as.take m)).nodes i).role = .leader ∧ (S.run (as.take (m + 1))).nodes i =
        (((S.run (as.take m)).nodes i).asked reqId query).serveReads S.machine := by
  cases ha : as[m]? with
  | none =>
    rw [run_take_of_none S ha]
    exact .inl (Node.tends_of_eq rfl rfl rfl)
  | some a =>
    rw [run_take_succ S ha]
    unfold step
    split
    · rename_i j r hd
      by_cases hij : i = j
      · subst hij
        have hself : ((S.run (as.take m)).act i r).nodes i = r.1 := Function.update_self ..
        rw [hself]
        refine (tends_of_drive hd (hidle m i)).imp_right ?_
        rintro ⟨reqId, query, rfl, hrest⟩
        exact ⟨reqId, query, rfl, hrest⟩
      · have hother : ((S.run (as.take m)).act j r).nodes i = (S.run (as.take m)).nodes i :=
          Function.update_of_ne hij ..
        rw [hother]
        exact .inl (Node.tends_of_eq rfl rfl rfl)
    · exact .inl (Node.tends_of_eq rfl rfl rfl)

/-- **Every read that waits was issued**, by induction on the steps. -/
lemma waiting_of_pending {m : ℕ} {i : ReplicaId} {pr : PendingRead}
    (hpr : pr ∈ ((S.run (as.take m)).nodes i).pendingReads) : ∃ k, S.Waiting as i k m pr := by
  induction m with
  | zero =>
    cases hpr
  | succ m ih =>
    -- a read that waited before the step waits on
    have hold : pr ∈ ((S.run (as.take m)).nodes i).pendingReads →
        ((S.run (as.take (m + 1))).nodes i).currentTerm =
          ((S.run (as.take m)).nodes i).currentTerm → ∃ k, S.Waiting as i k (m + 1) pr := by
      intro hmem hterm
      obtain ⟨k, h⟩ := ih hmem
      refine ⟨k, { h with lt := h.lt.trans (Nat.lt_succ_self m), waits := fun s hs hsm => ?_,
                          term := hterm.trans h.term }⟩
      rcases Nat.lt_or_ge m s with hlt | hge
      · rwa [show s = m + 1 by omega]
      · exact h.waits s hs hge
    rcases tends_step hidle m i with htends | ⟨reqId, query, ha, hrole, hnode⟩
    · obtain ⟨hmem, hterm⟩ := htends.kept pr hpr
      exact hold hmem hterm
    · have hpr' := hpr
      rw [hnode] at hpr'
      have hmem := ((Node.tends_serveReads _).kept pr hpr').1
      have hterm : ((S.run (as.take (m + 1))).nodes i).currentTerm =
          ((S.run (as.take m)).nodes i).currentTerm := by
        rw [hnode]
        exact (Node.calm_serveReads S.machine _).term
      rcases List.mem_append.mp hmem with hmem | hnew
      · exact hold hmem hterm
      · obtain rfl := List.mem_singleton.mp hnew
        refine ⟨m, ⟨Nat.lt_succ_self m, ha, hrole, rfl, rfl, fun s hs hsm => ?_, hterm⟩⟩
        rwa [show s = m + 1 by omega]

/-- **A value is the answer to a read that is served**, taken from the state of the replica. -/
lemma serves_of_value {m : ℕ} {i : ReplicaId} {r : ℕ} {x : Bytes}
    (hx : (r, ReadResult.value x) ∈ ((S.run (as.take (m + 1))).nodes i).readyReads) :
    (r, ReadResult.value x) ∈ ((S.run (as.take m)).nodes i).readyReads ∨
    ∃ k query, S.Serves as i k m r query ∧
      x = S.machine.query ((S.run (as.take (m + 1))).nodes i).sm query := by
  -- a read that waited before the step is served in it
  have hserved : ∀ pr : PendingRead, pr ∈ ((S.run (as.take m)).nodes i).pendingReads →
      pr ∉ ((S.run (as.take (m + 1))).nodes i).pendingReads →
      ((S.run (as.take (m + 1))).nodes i).role = .leader →
      ((S.run (as.take (m + 1))).nodes i).currentTerm =
        ((S.run (as.take m)).nodes i).currentTerm →
      ∃ k, S.Serves as i k m pr.reqId pr.query := by
    intro pr hpr hgone hrole hterm
    obtain ⟨k, h⟩ := waiting_of_pending hidle hpr
    have hpr' : (⟨pr.reqId, pr.query, ((S.run (as.take k)).nodes i).commitIndex,
        ((S.run (as.take k)).nodes i).readSeq + 1⟩ : PendingRead) = pr := by
      rw [← h.index, ← h.seq]
    exact ⟨k, h.lt.le, h.issued, h.led, hpr'.symm ▸ h.waits, hpr'.symm ▸ hgone, hrole,
      hterm.trans h.term⟩
  rcases tends_step hidle m i with htends | ⟨reqId, query, ha, hrole, hnode⟩
  · refine (htends.earlier hx).imp_right ?_
    rintro ⟨hr, ht, pr, hpr, hgone, rfl, hval⟩
    obtain ⟨k, hk⟩ := hserved pr hpr hgone hr ht
    exact ⟨k, pr.query, hk, hval⟩
  · have hx' := hx
    rw [hnode] at hx'
    rcases (Node.tends_serveReads _).earlier hx' with hold | ⟨hr, ht, pr, hpr, hgone, rfl, hval⟩
    · exact .inl hold
    · rw [← hnode] at hr ht hgone hval
      right
      rcases List.mem_append.mp hpr with hpr | hnew
      · obtain ⟨k, hk⟩ := hserved pr hpr hgone hr ht
        exact ⟨k, pr.query, hk, hval⟩
      · obtain rfl := List.mem_singleton.mp hnew
        exact ⟨m, query, ⟨le_rfl, ha, hrole, fun s hs hsm => by omega, hgone, hr, ht⟩, hval⟩

end Track

end Setup

/-! ## A confirmed leader has committed the most -/

section Coverage

variable {S : Setup σ} {R : Rules} {g : Record} {i : ReplicaId} {v : ReplicaId → View σ}

/-- **No replica has committed more than a leader** that has committed in its own term, when a
quorum is in no later term. -/
lemma commit_le_of_quorum (hw : WorldOk S R g) (hre : ¬R.reconfigures)
    (hnode : ∀ j, NodeOk S R g j (v j)) (hr : (v i).role = .leader)
    (hterm : (v i).store.termAt (v i).commitIndex = some (v i).term) {Q : Set ReplicaId}
    (hQ : S.bootstrap.membership.IsQuorum Q) (hall : ∀ p ∈ Q, (v p).term ≤ (v i).term)
    (j : ReplicaId) : (v j).commitIndex ≤ (v i).commitIndex := by
  obtain ⟨-, h0 | ⟨t0, k0, j0, ht0, hcom, hle, -⟩⟩ := (hnode j).step.settled
  · omega
  refine hle.trans ?_
  have hlead := (hnode i).leader hr
  obtain ⟨-, -, -, ⟨q, e, rfl, he, het⟩, hquorum⟩ := hw.sound.commits hcom
  rcases lt_trichotomy t0 (v i).term with hlt | heq | hgt
  · -- an earlier leader: its entry is in the log, before the entries of the term
    by_contra hno
    have hpre := hw.sound.complete ⟨i, hlead.leader⟩ hlt hcom
    have heL : (g.log i)[q]? = some e := by
      rw [← hlead.llog]
      have hlen := (List.getElem?_eq_some_iff.mp he).1
      rw [← getElem?_eq_of_take_eq (take_eq_of_take hpre hlen).symm (Nat.lt_succ_self q), he]
    obtain ⟨-, -, hlast⟩ := (hnode i).log.store.of_termAt (ConfState.sorted S.voters) hterm
    rcases Nat.eq_zero_or_pos (v i).commitIndex with h0 | hpos
    · rw [h0] at hlast
      have : 0 = (v i).term := hlast
      omega
    · obtain ⟨e', he'⟩ : ∃ e', (g.log i)[(v i).commitIndex - 1]? = some e' :=
        ⟨_, List.getElem?_eq_getElem (by
          have := (List.getElem?_eq_some_iff.mp heL).1
          omega)⟩
      rw [show (v i).commitIndex = (v i).commitIndex - 1 + 1 by omega, Scheme.take_concat he',
        Scheme.lastTerm_concat] at hlast
      have hmono := hw.sound.term_mono (hnode i).step.sourced (by omega) he' heL
      have : S.scheme.term e' = (v i).term := hlast
      omega
  · subst heq
    exact hlead.commits _ _ hcom
  · -- a later leader: a replica of the quorum has acknowledged in its term
    have hconf : S.scheme.conf ((g.hist.llog t0).take j0) = S.bootstrap.membership :=
      S.conf_of_plain fun x hx => hw.plain hre t0 x (List.mem_of_mem_take hx)
    rw [hconf] at hquorum
    obtain ⟨p, -, hpQ, hpack⟩ := Quorum.Majority.inter hQ hquorum
    have hsync := (hnode p).step.ack (Nat.lt_of_lt_of_le (Nat.succ_pos q) hpack)
    have := (hnode p).step.synced_le
    have := hall p hpQ
    omega

end Coverage

namespace Setup

variable {S : Setup σ} {as : List Action} {G : ℕ → Record × Watch}

section Serving

variable (hmono : ∀ k m, k ≤ m → G k ≤ G m)
  (hG : ∀ k, (watching S steadyRules_careful trivial).Holds (S.run (as.take k)) (G k))

include hG in
lemma exists_confirmed {i : ReplicaId} {k m reqId : ℕ} {query : Bytes}
    (has : Actions.Allowed S.step Steady S.init as) (hconf : ∀ i vs, .proposeConf i vs ∉ as)
    (h : S.Serves as i k m reqId query)
    (hterm : ((S.run (as.take m)).nodes i).currentTerm =
      ((S.run (as.take k)).nodes i).currentTerm) :
    ∃ (g : Record × Watch) (w : View σ), G m ≤ g ∧ WorldOk S steadyRules g.1 ∧
      NodeOk S steadyRules g.1 i w ∧ Tracks g.2 i w ∧
      w.term = ((S.run (as.take k)).nodes i).currentTerm ∧
      (⟨reqId, query, ((S.run (as.take k)).nodes i).commitIndex,
        ((S.run (as.take k)).nodes i).readSeq + 1⟩ : PendingRead) ∈ w.pendingReads ∧
      ((S.run (as.take k)).nodes i).commitIndex ≤
        ((S.run (as.take (m + 1))).nodes i).lastApplied ∧
      w.Confirmed (((S.run (as.take k)).nodes i).readSeq + 1) := by
  set c := S.run (as.take m) with hc
  set pr : PendingRead := ⟨reqId, query, ((S.run (as.take k)).nodes i).commitIndex,
    ((S.run (as.take k)).nodes i).readSeq + 1⟩ with hprdef
  have hholds := hG m
  -- it is enough to find moves to the end of the step from where the read waits
  suffices hfrom : ∃ (g : Record × Watch) (u : View σ) (o : List Out), G m ≤ g ∧
      (watching S steadyRules_careful trivial).world g ∧
      (watching S steadyRules_careful trivial).node g i u ∧
      (∀ s msg, (⟨s, i, msg⟩ : Packet) ∈ c.sent →
        (watching S steadyRules_careful trivial).packet g ⟨s, i, msg⟩) ∧
      u.role = .leader ∧ u.term = (c.nodes i).currentTerm ∧ pr ∈ u.pendingReads ∧
      Moves S.machine steadyRules (fun s msg => (⟨s, i, msg⟩ : Packet) ∈ c.sent) u
        ((S.run (as.take (m + 1))).nodes i).view o by
    obtain ⟨g, u, o, hle, hw, hu, hin, hr, hut, hpr, hmoves⟩ := hfrom
    obtain ⟨w, o', hmw, hwt, hprw, hidx, hconfirmed⟩ := hmoves.served hr hpr h.leads
      (h.term.trans (hterm.symm.trans hut.symm)) h.gone
    obtain ⟨g', hg', hw', hnode', -⟩ := MoveInvariant.moves hmw hw hu hin
    refine ⟨g', w, hle.trans ((watching S steadyRules_careful trivial).grows_le hg'), hw'.1,
      hnode'.1, hnode'.2, hwt.trans (hut.trans hterm), hprw, hidx, ?_⟩
    exact hconfirmed.resolve_left (Nat.succ_ne_zero _)
  rcases Nat.lt_or_ge k m with hkm | hkm
  · -- the read has waited before the step
    have hpr := h.waits m hkm le_rfl
    have hrole : (c.nodes i).role = .leader := by
      by_contra hr
      have hnil : (c.nodes i).pendingReads = [] := ((hholds.node i).2.idle hr).2
      rw [hnil] at hpr
      cases hpr
    cases ha : as[m]? with
    | none =>
      have hgone := h.gone
      rw [run_take_of_none S ha] at hgone
      exact absurd hpr hgone
    | some a =>
      have hobeys : S.Obeys steadyRules c a := obeys_of_steady (has.at ha) fun i vs hav =>
        hconf i vs (hav ▸ List.mem_of_getElem? ha)
      have hstep := run_take_succ S ha
      have hgone := h.gone
      have hleads := h.leads
      have hterm' := h.term
      rw [hstep] at hgone hleads hterm' ⊢
      unfold step at hgone hleads hterm' ⊢
      split
      · rename_i j r hd
        rw [hd] at hgone hleads hterm'
        by_cases hij : i = j
        · subst hij
          have hself : (c.act i r).nodes i = r.1 := Function.update_self ..
          rw [hself] at hgone hleads hterm' ⊢
          obtain ⟨u, hu, hmoves⟩ := moves_of_drive (fun _ _ => trivial) hholds.proper hobeys hd
          rcases hu with rfl | ⟨-, rfl⟩
          · exact ⟨G m, _, r.2, le_rfl, hholds.world, hholds.node i,
              fun s msg hmsg => hholds.packet _ hmsg, hrole, rfl, hpr, hmoves⟩
          · -- a replica that restarts does not lead the same term
            have hpast := hmoves.past (t := (c.nodes i).currentTerm) (.inl ⟨rfl, le_rfl⟩)
            rcases hpast with ⟨hf, -⟩ | hlt
            · rw [show r.1.view.role = .leader from hleads] at hf
              cases hf
            · have : r.1.view.term = (c.nodes i).currentTerm := hterm'.trans hterm.symm
              omega
        · have hother : (c.act j r).nodes i = c.nodes i := Function.update_of_ne hij ..
          rw [hother] at hgone
          exact absurd hpr hgone
      · rename_i hd
        rw [hd] at hgone
        exact absurd hpr hgone
  · -- the read is issued in the step
    obtain rfl : k = m := Nat.le_antisymm h.le hkm
    have hstep := run_take_succ S h.issued
    have hd : S.drive c (.read i reqId query) =
        some (i, (c.nodes i).read S.machine reqId query) := rfl
    have hnode : (S.run (as.take (k + 1))).nodes i =
        ((c.nodes i).asked reqId query).serveReads S.machine := by
      have hread : ((c.nodes i).read S.machine reqId query).1 =
          ((c.nodes i).asked reqId query).serveReads S.machine := by
        unfold Node.read
        rw [if_pos h.led]
        rfl
      rw [hstep]
      unfold step
      rw [hd, ← hread]
      exact Function.update_self ..
    have hask : Move S.machine steadyRules (fun s msg => (⟨s, i, msg⟩ : Packet) ∈ c.sent)
        (c.nodes i).view ((c.nodes i).asked reqId query).view [] := .ask reqId query h.led
    obtain ⟨g, hg, hw, hu, -⟩ := (watching S steadyRules_careful trivial).move hholds.world
      (hholds.node i) (fun s msg hmsg => hholds.packet _ hmsg) hask
    rw [hnode]
    exact ⟨g, _, [], (watching S steadyRules_careful trivial).grows_le hg, hw, hu,
      fun s msg hmsg => (watching S steadyRules_careful trivial).packet_mono hg
        (hholds.packet _ hmsg), h.led, rfl, List.mem_append_right _ (List.mem_singleton.mpr rfl),
      Node.moves_serveReads _⟩

include hmono hG in
/-- **A served read finds everything applied** that was committed when it was issued. -/
lemma commit_le_of_serves {i : ReplicaId} {k m reqId : ℕ} {query : Bytes}
    (has : Actions.Allowed S.step Steady S.init as) (hconf : ∀ i vs, .proposeConf i vs ∉ as)
    (h : S.Serves as i k m reqId query) (j : ReplicaId) :
    ((S.run (as.take k)).nodes j).commitIndex ≤
      ((S.run (as.take (m + 1))).nodes i).lastApplied := by
  have hterms : ∀ s p, (G s).2.term p = ((S.run (as.take s)).nodes p).currentTerm := fun s p =>
    ((hG s).node p).2.term
  have hterm : ((S.run (as.take m)).nodes i).currentTerm =
      ((S.run (as.take k)).nodes i).currentTerm := by
    have h1 := (hmono k m h.le).2.term i
    have h2 := (hmono m (m + 1) (Nat.le_succ m)).2.term i
    rw [hterms, hterms] at h1 h2
    rw [h.term] at h2
    omega
  obtain ⟨g, w, hle, hw, hnode, htracks, hwt, hpr, hidx, Q, hQ, hall⟩ :=
    exists_confirmed hG has hconf h hterm
  have hgk : (G k).2 ≤ g.2 := ((hmono k m h.le).trans hle).2
  have hseq : (G k).2.seq ((S.run (as.take k)).nodes i).currentTerm =
      ((S.run (as.take k)).nodes i).readSeq := ((hG k).node i).2.seq h.led
  -- the replicas that confirmed were in no later term when the read was issued
  have hearly : ∀ p ∈ Q, ((S.run (as.take k)).nodes p).currentTerm ≤
      ((S.run (as.take k)).nodes i).currentTerm := by
    intro p hp
    rcases hall p hp with hpi | hack
    · rw [hpi, hnode.id]
    · have hfloor := htracks.confirmed _ hpr p hack
      have hpend := htracks.pending_le hpr
      rw [hwt] at hfloor hpend
      rw [← hterms k p]
      exact (hgk.later (by rw [hseq]; exact Nat.lt_succ_self _) hpend p).trans hfloor
  have hquorum : S.bootstrap.membership.IsQuorum {p | p ∈ Q} := by
    have := ConfState.isQuorum_membership hQ
    rwa [hnode.log.config, S.conf_of_plain (hw.plain_of_sourced nofun hnode.step.sourced)] at this
  refine Nat.le_trans ?_ hidx
  exact commit_le_of_quorum (v := fun p => ((S.run (as.take k)).nodes p).view) (hG k).world.1 nofun
    (fun p => ((hG k).node p).1) h.led (has.at h.issued h.led) hquorum hearly j

end Serving

/-- **Linearizable reads.** With a fixed membership, in a steady run:

* a value that a replica answers is the answer to a read that is served, taken from the state of
  the replica;
* when a read is served, the replica has applied every entry that any replica had committed when
  the read was issued, and its state is the one after the committed entries it has applied, if
  restoring a snapshot gives back the state it was taken of. -/
theorem linearizable_reads {as : List Action} (hconf : ∀ i vs, .proposeConf i vs ∉ as)
    (has : Actions.Allowed S.step Steady S.init as) :
    (∀ m i r x, (r, ReadResult.value x) ∈ ((S.run (as.take (m + 1))).nodes i).readyReads →
      (r, ReadResult.value x) ∈ ((S.run (as.take m)).nodes i).readyReads ∨
      ∃ k query, S.Serves as i k m r query ∧
        x = S.machine.query ((S.run (as.take (m + 1))).nodes i).sm query) ∧
    ∃ chosen : ℕ → Entry,
      (∀ k i, ∀ e ∈ ((S.run (as.take k)).nodes i).store.log,
        e.index ≤ ((S.run (as.take k)).nodes i).commitIndex → chosen e.index = e) ∧
      ∀ i k m reqId query, S.Serves as i k m reqId query →
        (∀ j, ((S.run (as.take k)).nodes j).commitIndex ≤
          ((S.run (as.take (m + 1))).nodes i).lastApplied) ∧
        ((∀ s s' : σ, S.machine.restore s' (S.machine.snapshot s) = s) →
          ((S.run (as.take (m + 1))).nodes i).sm = S.machine.replay S.sm
            ((List.range' 1 ((S.run (as.take (m + 1))).nodes i).lastApplied).map chosen)) := by
  obtain ⟨G, hmono, hG⟩ := steady_run hconf has
  have hnode := fun k i => ((hG k).node i).1
  have hidle : ∀ k i, ((S.run (as.take k)).nodes i).role ≠ .leader →
      ((S.run (as.take k)).nodes i).pendingReads = [] := fun k i hr =>
    (((hG k).node i).2.idle hr).2
  obtain ⟨chosen, hchosen⟩ := exists_chosen (fun k m hkm => (hmono k m hkm).1)
    (fun k => (hG k).world.1) hnode
  refine ⟨fun m i r x hx => serves_of_value hidle hx, chosen, fun k i e he hle => ?_,
    fun i k m reqId query h => ⟨commit_le_of_serves hmono hG has hconf h, fun hM => ?_⟩⟩
  · have hget := (hnode k i).log.store.getElem?_of_mem he
    have hpos := (hnode k i).log.store.indexed _ e hget
    rw [getElem?_of_take_eq_range' (hchosen k i _ hle) (by omega)] at hget
    exact Option.some.inj hget
  · have hlog := (hnode (m + 1) i).log
    have happ : ((S.run (as.take (m + 1))).nodes i).lastApplied ≤
      ((S.run (as.take (m + 1))).nodes i).commitIndex := hlog.applied_le
    rw [← hchosen (m + 1) i _ happ]
    exact hlog.sm fun _ => ⟨trivial, hM⟩

/-- Replica 0 is elected, and commits a command with replica 1. -/
def commitOne : List Action :=
  [.tick 0, .deliver 0, .deliver 2, .deliver 3, .deliver 5, .propose 0 [1], .deliver 6, .deliver 8]

/-- Replica 0 receives a read, which replica 1 confirms. -/
def steadyRead : List Action := commitOne ++ [Action.read 0 7 [], .deliver 9, .deliver 11]

/-- The read of a leader that has committed in its term finds the command applied. -/
theorem linearizable_reads_steadyRead :
    Actions.Allowed (ofSize 3).step Steady (ofSize 3).init steadyRead ∧
    (ofSize 3).Serves steadyRead 0 8 10 7 [] ∧
    (((ofSize 3).run (steadyRead.take 8)).nodes 0).commitIndex = 2 ∧
    ∀ j, (((ofSize 3).run (steadyRead.take 8)).nodes j).commitIndex ≤
      (((ofSize 3).run (steadyRead.take 11)).nodes 0).lastApplied := by
  have has : Actions.Allowed (ofSize 3).step Steady (ofSize 3).init steadyRead := by
    decide +kernel
  have hserves : (ofSize 3).Serves steadyRead 0 8 10 7 [] := by
    refine ⟨by decide, rfl, by decide +kernel, fun s hs hs' => ?_, by decide +kernel,
      by decide +kernel, by decide +kernel⟩
    obtain rfl | rfl : s = 9 ∨ s = 10 := by omega
    · decide +kernel
    · decide +kernel
  obtain ⟨-, chosen, -, h⟩ := linearizable_reads
    (fun i vs => by simp [steadyRead, commitOne]) has
  exact ⟨has, hserves, by decide +kernel, (h 0 8 10 7 [] hserves).1⟩

/-! ## A read at a new leader -/

/-- Replica 1 is elected in term 2 by replica 2 and receives a read, which replica 2 confirms. -/
def staleRead : List Action :=
  commitOne ++ [Action.tick 1, .deliver 10, .deliver 11, .read 1 7 [], .deliver 15, .deliver 16]

/-- **A new leader answers from an old state**: the command is committed at replica 0 before the
read is issued, and replica 1 answers without it. -/
theorem linearizable_reads_fails :
    staleRead[11]? = some (.read 1 7 []) ∧
    (((ofSize 3).run (staleRead.take 11)).nodes 0).commitIndex = 2 ∧
    (((ofSize 3).run (staleRead.take 11)).nodes 0).sm = [1] ∧
    (((ofSize 3).run staleRead).nodes 1).lastApplied = 1 ∧
    (((ofSize 3).run staleRead).nodes 1).readyReads = [(7, .value [])] := by
  decide +kernel

end Setup

end CrabScheme.Raft
