import CrabScheme.Raft.Safety

/-!
# What a confirmed heartbeat says

A leader answers a read once a quorum has confirmed a heartbeat that it sent after the read was
issued. A replica that confirms a heartbeat of term `t` is not in a later term, so when the
heartbeat was begun it was not in a later term either. To say so, the record of a run is extended
by the terms all replicas were in when a heartbeat was begun.

## Main results

* `Tracks.confirmed` — replicas that confirm the heartbeat of a read were not in a
  later term when it was begun.
-/

namespace CrabScheme.Raft

open Replication

variable {σ : Type}

/-- **The record of heartbeats**: the term each replica is in, the last heartbeat of the leader of
each term, and the terms the replicas were in when a heartbeat was begun. -/
structure Watch where
  term : ReplicaId → ℕ
  seq : ℕ → ℕ
  floor : ℕ → ℕ → ReplicaId → ℕ

namespace Watch

/-- Terms and heartbeats move on, and what is recorded stays. A heartbeat that is begun later finds
the replicas in the terms of now, or later ones. -/
structure Le (w w' : Watch) : Prop where
  term : ∀ i, w.term i ≤ w'.term i
  seq : ∀ t, w.seq t ≤ w'.seq t
  floor : ∀ {t s}, s ≤ w.seq t → ∀ p, w'.floor t s p = w.floor t s p
  later : ∀ {t s}, w.seq t < s → s ≤ w'.seq t → ∀ p, w.term p ≤ w'.floor t s p

instance : Preorder Watch where
  le := Le
  le_refl w := ⟨fun _ => le_rfl, fun _ => le_rfl, fun _ _ => rfl, fun h h' => by omega⟩
  le_trans w₁ w₂ w₃ h h' := by
    refine ⟨fun i => (h.term i).trans (h'.term i), fun t => (h.seq t).trans (h'.seq t),
      fun hs p => ?_, fun {t s} hs hs' p => ?_⟩
    · rw [h'.floor (hs.trans (h.seq _)), h.floor hs]
    · rcases Nat.lt_or_ge (w₂.seq t) s with hlt | hle
      · exact (h.term p).trans (h'.later hlt hs' p)
      · rw [h'.floor hle]
        exact h.later hs hle p

/-- **The record after replica `i` has moved.** The heartbeats of a leader that are new are begun
now. -/
def next (w : Watch) (i : ReplicaId) (v : View σ) : Watch where
  term := Function.update w.term i v.term
  seq := if v.role = .leader then Function.update w.seq v.term v.readSeq else w.seq
  floor t s p := if v.role = .leader ∧ t = v.term ∧ w.seq t < s then w.term p else w.floor t s p

variable {w : Watch} {i : ReplicaId} {v : View σ}

lemma next_seq_leader (hr : v.role = .leader) : (w.next i v).seq v.term = v.readSeq := by
  simp [next, hr]

lemma next_seq_of_ne {t : ℕ} (h : ¬(v.role = .leader ∧ t = v.term)) :
    (w.next i v).seq t = w.seq t := by
  by_cases hr : v.role = .leader
  · have ht : t ≠ v.term := fun ht => h ⟨hr, ht⟩
    simp [next, hr, ht]
  · simp [next, hr]

lemma next_floor_of_le {t s : ℕ} (h : s ≤ w.seq t) (p : ReplicaId) :
    (w.next i v).floor t s p = w.floor t s p :=
  if_neg fun hc => by omega

lemma next_term_self : (w.next i v).term i = v.term := Function.update_self ..

lemma next_term_of_ne {j : ReplicaId} (h : j ≠ i) : (w.next i v).term j = w.term j :=
  Function.update_of_ne h ..

lemma le_next (hterm : w.term i ≤ v.term) (hseq : v.role = .leader → w.seq v.term ≤ v.readSeq) :
    w ≤ w.next i v := by
  refine ⟨fun j => ?_, fun t => ?_, fun hs p => next_floor_of_le hs p, fun {t s} hs hs' p => ?_⟩
  · by_cases hj : j = i
    · rw [hj, next_term_self]
      exact hterm
    · rw [next_term_of_ne hj]
  · by_cases h : v.role = .leader ∧ t = v.term
    · rw [h.2, next_seq_leader h.1]
      exact hseq h.1
    · rw [next_seq_of_ne h]
  · by_cases h : v.role = .leader ∧ t = v.term
    · exact (if_pos ⟨h.1, h.2, hs⟩ : (w.next i v).floor t s p = w.term p).ge
    · rw [next_seq_of_ne h] at hs'
      omega

end Watch

/-! ## The invariant -/

/-- The terms at the begin of a heartbeat are past, and a term without a leader has no heartbeat. -/
structure WatchOk (g : Record) (w : Watch) : Prop where
  floor_le : ∀ {t s}, s ≤ w.seq t → ∀ p, w.floor t s p ≤ w.term p
  idle : ∀ {t}, g.hist.leader t = none → w.seq t = 0

/-- **What is known of the reads of a replica.** -/
structure Tracks (w : Watch) (i : ReplicaId) (v : View σ) : Prop where
  term : w.term i = v.term
  idle : v.role ≠ .leader → (∀ p, v.ackedSeq p = none) ∧ v.pendingReads = []
  seq : v.role = .leader → w.seq v.term = v.readSeq
  acked : ∀ p, (v.ackedSeq p).getD 0 ≤ v.readSeq
  pending : ∀ pr ∈ v.pendingReads, 0 < pr.minSeq ∧ pr.minSeq ≤ v.readSeq
  /-- Replicas that confirm the heartbeat of a read were not in a later term when it was begun. -/
  confirmed : ∀ pr ∈ v.pendingReads, ∀ p, pr.minSeq ≤ (v.ackedSeq p).getD 0 →
    w.floor v.term pr.minSeq p ≤ v.term

/-- **What a message says of a heartbeat.** The rejection of a message of an earlier term says
nothing. -/
def Told (w : Watch) (p : Packet) : Prop :=
  match p.msg with
  | .appendEntries t _ _ _ _ _ r => r ≤ w.seq t
  | .installSnapshot t _ _ _ _ _ r => r ≤ w.seq t
  | .appendEntriesResp t ok _ ci r => ok = true ∨ ci ≠ 0 →
      r ≤ w.seq t ∧ ∀ s, s ≤ r → w.floor t s p.sender ≤ t
  | _ => True

section Mono

variable {w w' : Watch} {i j : ReplicaId} {v v' : View σ}

lemma Told.mono {p : Packet} (h : Told w p) (hle : w ≤ w') : Told w' p := by
  unfold Told at h ⊢
  split at h
  · exact h.trans (hle.seq _)
  · exact h.trans (hle.seq _)
  · intro hok
    obtain ⟨hr, hs⟩ := h hok
    refine ⟨hr.trans (hle.seq _), fun s hsr => ?_⟩
    rw [hle.floor (hsr.trans hr)]
    exact hs s hsr
  · trivial

lemma Tracks.pending_le (h : Tracks w i v) {pr : PendingRead} (hpr : pr ∈ v.pendingReads) :
    pr.minSeq ≤ w.seq v.term := by
  have hr : v.role = .leader := by
    by_contra hr
    rw [(h.idle hr).2] at hpr
    cases hpr
  rw [h.seq hr]
  exact (h.pending pr hpr).2

lemma Tracks.mono (h : Tracks w j v) (hle : w ≤ w') (hterm : w'.term j = w.term j)
    (hseq : v.role = .leader → w'.seq v.term = w.seq v.term) : Tracks w' j v where
  term := hterm.trans h.term
  idle := h.idle
  seq hr := (hseq hr).trans (h.seq hr)
  acked := h.acked
  pending := h.pending
  confirmed pr hpr p hp := by
    rw [hle.floor (h.pending_le hpr)]
    exact h.confirmed pr hpr p hp

lemma Tracks.keep (h : Tracks w i v) (hrole : v'.role = v.role) (hterm : v'.term = v.term)
    (hseq : v'.readSeq = v.readSeq) (hacked : v'.ackedSeq = v.ackedSeq)
    (hpend : ∀ pr ∈ v'.pendingReads, pr ∈ v.pendingReads) : Tracks (w.next i v') i v' where
  term := Watch.next_term_self
  idle hr := by
    obtain ⟨h1, h2⟩ := h.idle (hrole ▸ hr)
    rw [hacked]
    refine ⟨h1, List.eq_nil_iff_forall_not_mem.mpr fun pr hpr => ?_⟩
    have := hpend pr hpr
    rw [h2] at this
    cases this
  seq hr := Watch.next_seq_leader hr
  acked := by
    rw [hacked, hseq]
    exact h.acked
  pending pr hpr := by
    rw [hseq]
    exact h.pending pr (hpend pr hpr)
  confirmed pr hpr p hp := by
    rw [hacked] at hp
    rw [hterm, Watch.next_floor_of_le (h.pending_le (hpend pr hpr))]
    exact h.confirmed pr (hpend pr hpr) p hp

lemma tracks_of_idle (hrole : v'.role ≠ .leader) (hacked : ∀ p, v'.ackedSeq p = none)
    (hpend : v'.pendingReads = []) : Tracks (w.next i v') i v' where
  term := Watch.next_term_self
  idle _ := ⟨hacked, hpend⟩
  seq hr := absurd hr hrole
  acked p := by
    rw [hacked]
    exact Nat.zero_le _
  pending pr hpr := by
    rw [hpend] at hpr
    cases hpr
  confirmed pr hpr := by
    rw [hpend] at hpr
    cases hpr

/-- **A peer confirms a heartbeat**, or rejects a message without confirming a read. -/
lemma Tracks.confirm (h : Tracks w i v) (hr : v.role = .leader) {s : ReplicaId} {r : ℕ}
    (hrole : v'.role = v.role) (hterm : v'.term = v.term) (hseq : v'.readSeq = v.readSeq)
    (hpend : v'.pendingReads = v.pendingReads)
    (hacked : v'.ackedSeq = fun p =>
      if p = s then some (max r ((v.ackedSeq s).getD 0)) else v.ackedSeq p)
    (hle : r ≤ v.readSeq)
    (hnew : ∀ pr ∈ v.pendingReads, pr.minSeq ≤ r → w.floor v.term pr.minSeq s ≤ v.term) :
    Tracks (w.next i v') i v' where
  term := Watch.next_term_self
  idle hr' := absurd (hrole.trans hr) hr'
  seq hr' := Watch.next_seq_leader hr'
  acked p := by
    have hold := h.acked
    rw [hacked, hseq]
    dsimp only
    split
    · exact Nat.max_le.mpr ⟨hle, hold s⟩
    · exact hold p
  pending pr hpr := by
    rw [hpend] at hpr
    rw [hseq]
    exact h.pending pr hpr
  confirmed pr hpr p hp := by
    rw [hpend] at hpr
    rw [hacked] at hp
    rw [hterm, Watch.next_floor_of_le (h.pending_le hpr)]
    dsimp only at hp
    split at hp
    · rename_i hps
      rw [hps]
      have hmax : pr.minSeq ≤ max r ((v.ackedSeq s).getD 0) := hp
      rcases Nat.lt_or_ge r pr.minSeq with hlt | hge
      · exact h.confirmed pr hpr s (by omega)
      · exact hnew pr hpr hge
    · exact h.confirmed pr hpr p hp

lemma Tracks.beat (h : Tracks w i v) (hr : v.role = .leader) (hrole : v'.role = v.role)
    (hterm : v'.term = v.term) (hseq : v'.readSeq = v.readSeq + 1)
    (hacked : v'.ackedSeq = v.ackedSeq)
    (hpend : ∀ pr ∈ v'.pendingReads, pr ∈ v.pendingReads ∨ pr.minSeq = v.readSeq + 1) :
    Tracks (w.next i v') i v' where
  term := Watch.next_term_self
  idle hr' := absurd (hrole.trans hr) hr'
  seq hr' := Watch.next_seq_leader hr'
  acked p := by
    rw [hacked, hseq]
    exact (h.acked p).trans (Nat.le_succ _)
  pending pr hpr := by
    rw [hseq]
    rcases hpend pr hpr with hold | hnew
    · exact ⟨(h.pending pr hold).1, (h.pending pr hold).2.trans (Nat.le_succ _)⟩
    · omega
  confirmed pr hpr p hp := by
    rw [hacked] at hp
    rcases hpend pr hpr with hold | hnew
    · rw [hterm, Watch.next_floor_of_le (h.pending_le hold)]
      exact h.confirmed pr hold p hp
    · -- nobody has confirmed the heartbeat yet
      have := h.acked p
      omega

end Mono

/-! ## Every move keeps the invariant -/

section Moves

variable {M : StateMachine σ} {R : Rules} {inbox : ReplicaId → Message → Prop}
variable {v v' : View σ} {o : List Out}

lemma Move.term_le (h : Move M R inbox v v' o) : v.term ≤ v'.term := by
  cases h with
  | follow ht => exact ht
  | campaign => exact Nat.le_succ _
  | apply =>
    unfold View.applyNext
    split <;> exact le_rfl
  | _ => exact le_rfl

lemma Move.leader_cases (h : Move M R inbox v v' o) (hr : v'.role = .leader) :
    (v.role = .leader ∧ v'.term = v.term ∧ v.readSeq ≤ v'.readSeq) ∨
      (v.role = .candidate ∧ v' = v.lead) := by
  cases h with
  | follow => cases hr
  | campaign => cases hr
  | win hc => exact .inr ⟨hc, rfl⟩
  | apply =>
    unfold View.applyNext at hr ⊢
    split at hr <;> exact .inl ⟨hr, rfl, le_rfl⟩
  | heartbeat => exact .inl ⟨hr, rfl, Nat.le_succ _⟩
  | ask => exact .inl ⟨hr, rfl, Nat.le_succ _⟩
  | _ => exact .inl ⟨hr, rfl, le_rfl⟩

variable {S : Setup σ} {g g' : Record} {w : Watch} {i : ReplicaId}

/-- **Every move keeps what is known of reads.** -/
lemma Tracks.move (hT : R.timely) (h : Tracks w i v)
    (hin : ∀ s m, inbox s m → Told w ⟨s, i, m⟩) (hm : Move M R inbox v v' o) :
    Tracks (w.next i v') i v' := by
  cases hm with
  | follow => exact tracks_of_idle nofun (fun _ => rfl) rfl
  | campaign hr => exact tracks_of_idle nofun (h.idle hr).1 (h.idle hr).2
  | win hc =>
    -- a candidate has no reads
    have hidle := h.idle (by rw [hc]; exact nofun)
    refine ⟨Watch.next_term_self, fun hr => absurd rfl hr, fun hr => Watch.next_seq_leader hr,
      h.acked, h.pending, fun pr hpr => ?_⟩
    rw [show v.lead.pendingReads = [] from hidle.2] at hpr
    cases hpr
  | heartbeat =>
    by_cases hr : v.role = .leader
    · exact h.beat hr rfl rfl rfl rfl fun pr hpr => .inl hpr
    · exact tracks_of_idle hr (h.idle hr).1 (h.idle hr).2
  | ask reqId q hr =>
    refine h.beat hr rfl rfl rfl rfl fun pr hpr => ?_
    rcases List.mem_append.mp hpr with hpr | hpr
    · exact .inl hpr
    · rw [List.mem_singleton.mp hpr]
      exact .inr rfl
  | matched hr hmsg =>
    obtain ⟨hle, hfloor⟩ := hin _ _ hmsg (.inl rfl)
    exact h.confirm hr rfl rfl rfl rfl rfl (h.seq hr ▸ hle) fun pr _ hpr => hfloor _ hpr
  | @back s m ci r k hr hmsg _ _ htimely =>
    by_cases hci : ci = 0
    · obtain ⟨hle, hlt⟩ := htimely hT hci
      refine h.confirm hr rfl rfl rfl rfl rfl hle fun pr hpr hpr' => ?_
      have := hlt pr hpr
      omega
    · obtain ⟨hle, hfloor⟩ := hin _ _ hmsg (.inr hci)
      exact h.confirm hr rfl rfl rfl rfl rfl (h.seq hr ▸ hle) fun pr _ hpr => hfloor _ hpr
  | apply =>
    unfold View.applyNext
    split <;> exact h.keep rfl rfl rfl rfl fun _ hpr => hpr
  | serve => exact h.keep rfl rfl rfl rfl fun _ hpr => List.mem_of_mem_filter hpr
  | _ => exact h.keep rfl rfl rfl rfl fun _ hpr => hpr

/-- **What a move sends** is true of heartbeats. -/
lemma told_of_move (hw : WatchOk g w) (h : Tracks w i v)
    (hin : ∀ s m, inbox s m → Told w ⟨s, i, m⟩) (hm : Move M R inbox v v' o) :
    ∀ x ∈ o, Told (w.next i v') ⟨i, x.1, x.2⟩ := by
  -- a replica that answers a message of its term confirms a heartbeat of that term
  have hconfirm : ∀ {r : ℕ} (v' : View σ) (l : ReplicaId) (ok : Bool) (m ci : ℕ),
      r ≤ w.seq v.term → w ≤ w.next i v' →
      ∀ x ∈ [(l, Message.appendEntriesResp v.term ok m ci r)], Told (w.next i v') ⟨i, x.1, x.2⟩ := by
    intro r v' l ok m ci hr hle x hx
    rw [List.mem_singleton.mp hx]
    have htold : Told w ⟨i, l, .appendEntriesResp v.term ok m ci r⟩ := fun _ =>
      ⟨hr, fun s hs => (hw.floor_le (hs.trans hr) i).trans h.term.le⟩
    exact htold.mono hle
  cases hm with
  | solicit ps =>
    intro x hx
    obtain ⟨p, -, rfl⟩ := List.mem_map.mp hx
    trivial
  | send ps hr =>
    intro x hx
    obtain ⟨p, -, rfl⟩ := List.mem_map.mp hx
    show Told (w.next i v) ⟨i, p, v.appendFor p⟩
    unfold View.appendFor
    dsimp only
    split <;> exact (Watch.next_seq_leader hr).ge
  | accept hr hmsg =>
    exact hconfirm _ _ _ _ _ (hin _ _ hmsg)
      (Watch.le_next h.term.le fun hr' => absurd (hr.symm.trans hr') nofun)
  | install hr hmsg =>
    exact hconfirm _ _ _ _ _ (hin _ _ hmsg)
      (Watch.le_next h.term.le fun hr' => absurd (hr.symm.trans hr') nofun)
  | covered hr hmsg =>
    exact hconfirm _ _ _ _ _ (hin _ _ hmsg)
      (Watch.le_next h.term.le fun hr' => absurd (hr.symm.trans hr') nofun)
  | conflict ci hr hmsg =>
    exact hconfirm _ _ _ _ _ (hin _ _ hmsg)
      (Watch.le_next h.term.le fun hr' => absurd (hr.symm.trans hr') nofun)
  | outdated p r =>
    intro x hx
    rw [List.mem_singleton.mp hx]
    rintro (hok | hci)
    · cases hok
    · exact absurd rfl hci
  | vote | refuse =>
    intro x hx
    rw [List.mem_singleton.mp hx]
    trivial
  | _ => exact nofun

lemma NodeOk.unled (hv : NodeOk S R g i v) (hc : v.role = .candidate) (hg : Grows i g g')
    (hv' : NodeOk S R g' i v.lead) : g.hist.leader v.term = none := by
  cases hn : g.hist.leader v.term with
  | none => rfl
  | some n =>
    have hlead : g'.hist.leader v.term = some i := (hv'.leader rfl).leader
    rw [hg.le.leader hn] at hlead
    rw [hlead] at hn
    exact absurd hn (hv.candidate hc).unelected

lemma watch_of_move (hw : WatchOk g w) (hv : NodeOk S R g i v) (h : Tracks w i v)
    (hg : Grows i g g') (hv' : NodeOk S R g' i v') (hterm : v.term ≤ v'.term)
    (hlead : v'.role = .leader → (v.role = .leader ∧ v'.term = v.term ∧ v.readSeq ≤ v'.readSeq) ∨
      (v.role = .candidate ∧ v' = v.lead)) :
    w ≤ w.next i v' ∧ WatchOk g' (w.next i v') := by
  have hle : w ≤ w.next i v' := by
    refine Watch.le_next (h.term.trans_le hterm) fun hr => ?_
    rcases hlead hr with ⟨hr0, ht, hs⟩ | ⟨hc, rfl⟩
    · rw [ht, h.seq hr0]
      exact hs
    · rw [show v.lead.term = v.term from rfl, hw.idle (hv.unled hc hg hv')]
      exact Nat.zero_le _
  refine ⟨hle, fun {t s} hs p => ?_, fun {t} ht => ?_⟩
  · rcases Nat.lt_or_ge (w.seq t) s with hlt | hge
    · by_cases hc : v'.role = .leader ∧ t = v'.term
      · refine ((if_pos ⟨hc.1, hc.2, hlt⟩ : (w.next i v').floor t s p = w.term p)).trans_le ?_
        exact hle.term p
      · rw [Watch.next_seq_of_ne hc] at hs
        omega
    · rw [Watch.next_floor_of_le hge]
      exact (hw.floor_le hge p).trans (hle.term p)
  · have hnot : ¬(v'.role = .leader ∧ t = v'.term) := by
      rintro ⟨hr, rfl⟩
      rw [(hv'.leader hr).leader] at ht
      cases ht
    rw [Watch.next_seq_of_ne hnot]
    refine hw.idle ?_
    cases hn : g.hist.leader t with
    | none => rfl
    | some n =>
      rw [hg.le.leader hn] at ht
      cases ht

end Moves

/-- **The invariant of reads**, on top of the one for safety. -/
def watching (S : Setup σ) {R : Rules} (hR : R.Careful) (hT : R.timely) :
    MoveInvariant S R (Record × Watch) where
  world g := WorldOk S R g.1 ∧ WatchOk g.1 g.2
  node g i v := NodeOk S R g.1 i v ∧ Tracks g.2 i v
  packet g p := PacketOk S R g.1.hist p ∧ Told g.2 p
  grows i g g' := Grows i g.1 g'.1 ∧ g.2 ≤ g'.2 ∧ (∀ {j}, j ≠ i → g'.2.term j = g.2.term j) ∧
    ∀ {j}, j ≠ i → ∀ t, g.1.hist.leader t = some j → g'.2.seq t = g.2.seq t
  grows_refl i g := ⟨.refl i g.1, le_rfl, fun _ => rfl, fun _ _ _ => rfl⟩
  grows_trans h h' := ⟨h.1.trans h'.1, h.2.1.trans h'.2.1,
    fun hj => (h'.2.2.1 hj).trans (h.2.2.1 hj),
    fun hj t ht => (h'.2.2.2 hj t (h.1.le.leader ht)).trans (h.2.2.2 hj t ht)⟩
  grows_le h := ⟨h.1.record_le, h.2.1⟩
  node_mono hw hw' hg hj h := ⟨h.1.mono hw.1 hw'.1 hg.1 hj,
    h.2.mono hg.2.1 (hg.2.2.1 hj) fun hr => hg.2.2.2 hj _ (h.1.leader hr).leader⟩
  packet_mono hg h := ⟨h.1.mono hg.1.le, h.2.mono hg.2.1⟩
  move := by
    intro g i v v' o inbox hw hv hin hm
    obtain ⟨g', hg, hw', hv', ho⟩ := after_move hR hw.1 hv.1 (fun s m h => (hin s m h).1) hm
    have hin' : ∀ s m, inbox s m → Told g.2 ⟨s, i, m⟩ := fun s m h => (hin s m h).2
    obtain ⟨hle, hwatch⟩ := watch_of_move hw.2 hv.1 hv.2 hg hv' hm.term_le fun hr =>
      hm.leader_cases hr
    refine ⟨(g', g.2.next i v'), ⟨hg, hle, fun hj => Watch.next_term_of_ne hj, fun hj t ht => ?_⟩,
      ⟨hw', hwatch⟩, ⟨hv', hv.2.move hT hin' hm⟩, fun x hx => ⟨ho x hx, ?_⟩⟩
    · refine Watch.next_seq_of_ne ?_
      rintro ⟨hr, rfl⟩
      have := (hv'.leader hr).leader
      rw [hg.le.leader ht, Option.some.injEq] at this
      exact hj this
    · exact told_of_move hw.2 hv.2 hin' hm x hx
  resume := by
    intro g i v hw hv hb
    obtain ⟨g', hg, hw', hv', -⟩ := after_resume hw.1 hv.1 fun hc hre => hb ((hR hc).2 hre)
    obtain ⟨hle, hwatch⟩ := watch_of_move hw.2 hv.1 hv.2 hg hv' le_rfl nofun
    refine ⟨(g', g.2.next i _), ⟨hg, hle, fun hj => Watch.next_term_of_ne hj, fun hj t ht => ?_⟩,
      ⟨hw', hwatch⟩, ⟨hv', tracks_of_idle nofun (fun _ => rfl) rfl⟩⟩
    exact Watch.next_seq_of_ne fun h => absurd h.1 nofun

end CrabScheme.Raft
