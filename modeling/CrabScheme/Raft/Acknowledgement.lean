import CrabScheme.Raft.Driver

/-!
# The acknowledgement of proposals

A driver keeps the proposals that await their reply by the index the command was given, and replies
when its replica applies that index. A replica that loses its leadership may have the entry replaced
by one of the next leader at the same index, and the driver is not told: the proposer then receives
the reply to a command that is not its own. As long as no entry that is awaited is discarded, every
reply is about the entry its proposal has created.

## Main results

* `Setup.truthful_replies` — the replies of every driver in every run with such
  messages only.
-/

namespace CrabScheme.Raft

variable {σ : Type}

/-! ## Entries that stay in the log -/

namespace MemLogStore.Numbered

variable {s : MemLogStore}

lemma entry_append (h : s.Numbered) (t : ℕ) (p : EntryPayload) {j : ℕ} {e : Entry}
    (he : s.entry j = some e) : (s.append [⟨t, s.lastIndex + 1, p⟩]).entry j = some e := by
  obtain ⟨hmem, hidx⟩ := h.entry_eq_some_iff.mp he
  exact (h.concat t p).entry_eq_some_iff.mpr ⟨List.mem_append_left _ hmem, hidx⟩

lemma entry_saveSnapshot (h : s.Numbered) {m : SnapshotMeta}
    (hm : s.baseIndex ≤ m.lastIncludedIndex) {j : ℕ} {e : Entry} (he : s.entry j = some e) (hj : m.lastIncludedIndex < j) :
    (s.saveSnapshot m).entry j = some e := by
  obtain ⟨hmem, rfl⟩ := h.entry_eq_some_iff.mp he
  refine (h.saveSnapshot hm).entry_eq_some_iff.mpr ⟨?_, rfl⟩
  exact List.mem_filter.mpr ⟨hmem, by simpa using hj⟩

lemma entry_splices (h : s.Numbered) {es : List Entry} {prev j : ℕ} {e : Entry}
    (hprev : prev ≤ s.lastIndex) (hes : ∀ q x, es[q]? = some x → x.index = prev + q + 1)
    (he : s.entry j = some e)
    (hok : ∀ x ∈ es, s.baseIndex < x.index → x.index ≤ j → s.termAt x.index = some x.term) :
    (es.foldl MemLogStore.splice s).entry j = some e := by
  obtain ⟨hmem, hidx⟩ := h.entry_eq_some_iff.mp he
  obtain ⟨hlt, hle⟩ := h.bounds hmem
  have hlast := h.lastIndex_eq
  obtain ⟨htake, -⟩ := h.splices_take (m := j - s.baseIndex) hprev hes (by omega)
    fun x hx hb hm => hok x hx hb (by omega)
  have hget : (es.foldl MemLogStore.splice s).log[j - s.baseIndex - 1]? =
      s.log[j - s.baseIndex - 1]? := by
    rw [← List.getElem?_take_of_lt (show j - s.baseIndex - 1 < j - s.baseIndex by omega), htake,
      List.getElem?_take_of_lt (by omega)]
  unfold MemLogStore.entry at he ⊢
  rw [splices_baseIndex, hget]
  exact he

end MemLogStore.Numbered

/-! ## What a driver awaits -/

/-- **The entry of a proposal**: it is in the log until it is applied, and what the driver has not
seen of its index is about it. -/
structure Local.Follows (l : Local σ) (seen : ℕ) (e : Entry) : Prop where
  live : l.lastApplied < e.index → l.store.entry e.index = some e
  applied : ∀ a ∈ l.appliedOutbox, seen < a.index → a.index = e.index →
    appliedAt l.history e.index = some e

namespace Local.Follows

variable {M : StateMachine σ} {l : Local σ} {seen : ℕ} {e : Entry}

section

variable (h : l.Follows seen e) (hk : l.Kept)

include h hk

lemma append (t : ℕ) (p : EntryPayload) : (l.append t p).Follows seen e :=
  ⟨fun hlt => hk.numbered.entry_append t p (h.live hlt), h.applied⟩

lemma compact : (l.compact M).Follows seen e := by
  unfold Local.compact
  split_ifs
  · exact h
  · cases l.store.termAt l.lastApplied with
    | none => exact h
    | some t =>
      exact ⟨fun hlt => hk.numbered.entry_saveSnapshot hk.base_le (h.live hlt) hlt, h.applied⟩

lemma applyTo {c : ℕ} (hc : c ≤ l.store.lastIndex)
    (hbounded : ∀ a ∈ l.appliedOutbox, a.index ≤ l.lastApplied) :
    (l.applyTo M c).Follows seen e := by
  have hla := hk.lastApplied_applyTo (M := M) hc
  refine ⟨fun hlt => h.live ?_, fun a ha hseen hidx => ?_⟩
  · rw [hla] at hlt
    exact (le_max_left _ _).trans_lt hlt
  · show appliedAt (l.history ++ l.due (c - l.lastApplied)) e.index = some e
    rcases List.mem_append.mp ha with ha | ha
    · rw [hk.appliedAt_old hc (hidx ▸ hbounded a ha)]
      exact h.applied a ha hseen hidx
    · -- the entry that is applied at the index is the one in the log
      obtain ⟨x, hx, hax, -⟩ := StateMachine.exists_of_mem_outputs ha
      have hmem : x ∈ l.store.log := List.mem_of_mem_drop (List.mem_of_mem_take hx)
      have hentry := hk.numbered.entry_eq_some_iff.mpr ⟨hmem, rfl⟩
      have hxe : x.index = e.index := hax.symm.trans hidx
      have hlive := h.live (hxe ▸ (hk.bounds_due hc hx).1)
      rw [← hxe, hentry] at hlive
      cases Option.some.inj hlive
      exact hk.appliedAt_due hc hx

lemma advance {c : ℕ} (hc : c ≤ l.store.lastIndex)
    (hbounded : ∀ a ∈ l.appliedOutbox, a.index ≤ l.lastApplied) :
    (l.advance M c).Follows seen e := by
  have happly := h.applyTo (M := M) hk hc hbounded
  unfold Local.advance Local.maybeCompact
  split_ifs
  · exact happly.compact ⟨hk.numbered, hk.config, hk.base_le.trans (Nat.le_add_right _ _)⟩
  · exact happly

lemma takeOver {es : List Entry} {prev : ℕ} (hprev : prev ≤ l.store.lastIndex)
    (hes : ∀ q x, es[q]? = some x → x.index = prev + q + 1)
    (hok : l.lastApplied < e.index → ∀ x ∈ es, l.store.baseIndex < x.index → x.index ≤ e.index → l.store.termAt x.index = some x.term)
    : (l.takeOver es).Follows seen e :=
  ⟨fun hlt => hk.numbered.entry_splices hprev hes (h.live hlt) (hok hlt), h.applied⟩

lemma install {idx t : ℕ} {config : ConfState} {data : Bytes} (hbase : l.store.baseIndex < idx)
    (hok : l.lastApplied < e.index → idx < e.index → l.store.termAt idx = some t) :
    (l.install M idx t config data).Follows seen e := by
  refine ⟨fun hlt => ?_, h.applied⟩
  have hla := (le_max_left _ _).trans_lt hlt
  have hidx := (le_max_right _ _).trans_lt hlt
  show (MemLogStore.saveSnapshot _ _).entry e.index = some e
  rw [if_neg (not_not.mpr (hok hla hidx))]
  exact hk.numbered.entry_saveSnapshot hbase.le (h.live hla) hidx

end

end Local.Follows

namespace RaftDriver

/-- **What a driver awaits and has answered.** An awaited index has the entry of its proposal, and a
reply is about the entry of its proposal. -/
structure Truthful (d : RaftDriver) (l : Local σ) : Prop where
  bounded : ∀ a ∈ l.appliedOutbox, a.index ≤ l.lastApplied
  pending : ∀ idx recipient reqId, d.pending idx = some (recipient, reqId) →
    ∃ p ∈ d.proposals, p.recipient = recipient ∧ p.reqId = reqId ∧ p.entry.index = idx ∧
      l.Follows d.notifiedThrough p.entry
  replies : ∀ r ∈ d.replies, ∃ p ∈ d.proposals, p.recipient = r.recipient ∧ p.reqId = r.reqId ∧
    r.entry = some p.entry

namespace Truthful

variable {M : StateMachine σ} {d : RaftDriver} {l l' : Local σ}

lemma step (h : d.Truthful l) (hbounded : ∀ a ∈ l'.appliedOutbox, a.index ≤ l'.lastApplied)
    (hstep : ∀ e : Entry, (d.pending e.index).isSome → l.Follows d.notifiedThrough e →
      l'.Follows d.notifiedThrough e) : d.Truthful l' := by
  refine ⟨hbounded, fun idx recipient reqId hidx => ?_, h.replies⟩
  obtain ⟨p, hp, hrec, hreq, rfl, hfollows⟩ := h.pending idx recipient reqId hidx
  exact ⟨p, hp, hrec, hreq, rfl, hstep _ (by rw [hidx]; rfl) hfollows⟩

lemma advance (h : d.Truthful l) (hk : l.Kept) {c : ℕ} (hc : c ≤ l.store.lastIndex) :
    d.Truthful (l.advance M c) := by
  refine h.step ?_ fun e _ he => he.advance hk hc h.bounded
  obtain ⟨hla, hout, -⟩ := hk.advance_applies hc
  rw [hla, hout]
  intro a ha
  rcases List.mem_append.mp ha with ha | ha
  · exact (h.bounded a ha).trans (le_max_left _ _)
  · obtain ⟨e, he, hae, -⟩ := StateMachine.exists_of_mem_outputs ha
    exact hae ▸ (hk.bounds_due hc he).2

lemma forget (h : d.Truthful l) (idx : ℕ) : (d.forget idx).Truthful l := by
  refine ⟨h.bounded, fun j recipient reqId hj => h.pending j recipient reqId ?_, h.replies⟩
  by_cases hidx : j = idx
  · exact absurd hj (by simp [RaftDriver.forget, hidx])
  · simpa [RaftDriver.forget, hidx] using hj

lemma seen (h : d.Truthful l) {j : ℕ} (hj : d.notifiedThrough ≤ j) :
    ({ d with notifiedThrough := j } : RaftDriver).Truthful l := by
  refine ⟨h.bounded, fun idx recipient reqId hidx => ?_, h.replies⟩
  obtain ⟨p, hp, hrec, hreq, hi, hfollows⟩ := h.pending idx recipient reqId hidx
  exact ⟨p, hp, hrec, hreq, hi, hfollows.live,
    fun a ha hlt hai => hfollows.applied a ha (hj.trans_lt hlt) hai⟩

lemma observe (h : d.Truthful l) (c : Committed) : (d.observe c).Truthful l := by
  unfold RaftDriver.observe
  split
  · exact ⟨h.bounded, h.pending, h.replies⟩
  · exact h

lemma answer (h : d.Truthful l) {a : Applied}
    (ha : ∀ recipient reqId, d.pending a.index = some (recipient, reqId) →
      ∃ p ∈ d.proposals, p.recipient = recipient ∧ p.reqId = reqId ∧
        appliedAt l.history a.index = some p.entry) : (d.answer l.history a).Truthful l := by
  unfold RaftDriver.answer
  split
  · rename_i recipient reqId hpend
    have hforget := h.forget a.index
    refine ⟨h.bounded, hforget.pending, fun r hr => ?_⟩
    rcases List.mem_append.mp hr with hr | hr
    · exact h.replies r hr
    · cases List.mem_singleton.mp hr
      exact ha recipient reqId hpend
  · exact h

lemma notifyOne {a : Applied} {as : List Applied}
    (h : d.Truthful { l with appliedOutbox := a :: as }) :
    (d.notifyOne l.history a).Truthful { l with appliedOutbox := as } := by
  have hrest : d.Truthful { l with appliedOutbox := as } :=
    h.step (fun x hx => h.bounded x (List.mem_cons_of_mem _ hx)) fun e _ he =>
      ⟨he.live, fun x hx => he.applied x (List.mem_cons_of_mem _ hx)⟩
  unfold RaftDriver.notifyOne
  split_ifs with hle
  · exact hrest.forget _
  · refine ((hrest.seen (by omega)).observe _).answer fun recipient reqId hpend => ?_
    have hsame : ∀ (d' : RaftDriver) (c : Committed), (d'.observe c).pending = d'.pending ∧
        (d'.observe c).proposals = d'.proposals := fun d' c => by
      unfold RaftDriver.observe
      split <;> exact ⟨rfl, rfl⟩
    rw [(hsame _ _).1] at hpend
    rw [(hsame _ _).2]
    obtain ⟨p, hp, hrec, hreq, hidx, hfollows⟩ := h.pending _ recipient reqId hpend
    refine ⟨p, hp, hrec, hreq, ?_⟩
    rw [← hidx]
    exact hfollows.applied a List.mem_cons_self (by omega) hidx.symm

/-- **The outbox is drained**: the proposals of what was applied are answered. -/
lemma notify (h : d.Truthful l) : (d.notifyAll l.history l.appliedOutbox).Truthful l.drain := by
  have hall : ∀ (as : List Applied) (d : RaftDriver), d.Truthful { l with appliedOutbox := as } →
      (d.notifyAll l.history as).Truthful l.drain := by
    intro as
    induction as with
    | nil => exact fun _ h => h
    | cons a as ih => exact fun _ h => ih _ h.notifyOne
  exact hall _ d h

lemma track (h : d.Truthful l) (hk : l.Kept) (hquiet : d.Quiet l) {p : Proposal} {cmd : Bytes}
    (hp : p.entry = ⟨p.entry.term, l.store.lastIndex + 1, .command cmd⟩) :
    (d.track p).Truthful (l.append p.entry.term (.command cmd)) := by
  have hmono : ∀ {q : Proposal}, q ∈ d.proposals → q ∈ (d.track p).proposals :=
    fun hq => List.mem_append_left _ hq
  refine ⟨h.bounded, fun idx recipient reqId hidx => ?_, fun r hr => ?_⟩
  · by_cases hi : idx = p.entry.index
    · -- the new entry is the last one of the log
      have hpend : (d.track p).pending idx = some (p.recipient, p.reqId) := if_pos hi
      rw [hpend] at hidx
      cases hidx
      refine ⟨p, List.mem_append_right _ List.mem_cons_self, rfl, rfl, hi.symm, fun _ => ?_,
        fun a ha hlt => absurd (hquiet a ha) (Nat.not_le.mpr hlt)⟩
      refine (hk.numbered.concat _ _).entry_eq_some_iff.mpr ⟨List.mem_append_right _ ?_, rfl⟩
      rw [← hp]
      exact List.mem_cons_self
    · have hpend : (d.track p).pending idx = d.pending idx := if_neg hi
      obtain ⟨q, hq, hrec, hreq, hqi, hfollows⟩ := h.pending idx recipient reqId (hpend ▸ hidx)
      exact ⟨q, hmono hq, hrec, hreq, hqi, hfollows.append hk _ _⟩
  · obtain ⟨q, hq, hrest⟩ := h.replies r hr
    exact ⟨q, hmono hq, hrest⟩

end Truthful

end RaftDriver

/-! ## Every run -/

/-- **No entry that a proposal awaits is discarded**: entries of a leader that are taken over agree
with the log up to every index that is awaited and not applied, and so does a snapshot that is
installed, unless it covers the index. -/
def Undisturbed (d : RaftDriver) (l : Local σ) : Message → Prop
  | .appendEntries _ _ prev pt es _ _ => l.store.termAt prev = some pt →
      ∀ idx ∈ List.range' (l.lastApplied + 1) (l.store.lastIndex - l.lastApplied),
        (d.pending idx).isSome → ∀ e ∈ es, l.store.baseIndex < e.index → e.index ≤ idx →
          l.store.termAt e.index = some e.term
  | .installSnapshot _ _ li lt _ _ _ => l.store.baseIndex < li →
      ∀ idx ∈ List.range' (l.lastApplied + 1) (l.store.lastIndex - l.lastApplied),
        (d.pending idx).isSome → li < idx → l.store.termAt li = some lt
  | _ => True

instance (d : RaftDriver) (l : Local σ) (msg : Message) : Decidable (Undisturbed d l msg) := by
  unfold Undisturbed
  split <;> infer_instance

lemma Local.Follows.mem_range {l : Local σ} {seen : ℕ} {e : Entry} (h : l.Follows seen e)
    (hk : l.Kept) (hlt : l.lastApplied < e.index) :
    e.index ∈ List.range' (l.lastApplied + 1) (l.store.lastIndex - l.lastApplied) := by
  have hmem := (hk.numbered.entry_eq_some_iff.mp (h.live hlt)).1
  have hle := (hk.numbered.bounds hmem).2
  exact List.mem_range'_1.mpr ⟨hlt, by omega⟩

/-- What a driver awaits and has answered is an invariant of the driver and its replica. -/
def truthful (M : StateMachine σ) : DriverInvariant M (Undisturbed (σ := σ)) where
  holds d l := d.Truthful l
  start _ hquiet := ⟨hquiet, nofun, nofun⟩
  works hk h hw := by
    cases hw with
    | append => exact h.step h.bounded fun e _ he => he.append hk _ _
    | advance _ hlast => exact h.advance hk hlast
    | compact =>
      obtain ⟨hla, hout, -⟩ := Local.compact_applies _
      exact h.step (by rw [hla, hout]; exact h.bounded) fun e _ he => he.compact hk
  takes hk hnum h hP ht := by
    cases ht with
    | @accept _ _ _ _ es c _ hprev =>
      have hover : RaftDriver.Truthful _ (Local.takeOver _ es) := h.step h.bounded
        fun e hpend he => he.takeOver hk (hk.numbered.le_of_termAt hprev) hnum fun hlt =>
          hP hprev _ (he.mem_range hk hlt) hpend
      unfold Local.accept
      split_ifs
      · exact hover.advance (hk.takeOver hprev hnum) (min_le_right _ _)
      · exact hover
    | install hlt =>
      exact h.step (fun a ha => (h.bounded a ha).trans (le_max_left _ _)) fun e hpend he =>
        he.install hk hlt fun hla hidx => hP hlt _ (he.mem_range hk hla) hpend hidx
  notify _ h := h.notify
  observe _ h _ := ⟨h.bounded, h.pending, h.replies⟩
  propose hk h hquiet hp := h.track hk hquiet hp

namespace Setup

variable {S : Setup σ}

/-- **Replies are about the command that was proposed.** In every run in which no entry that a
proposal awaits is discarded, a driver sends a reply only once its replica has applied the very
entry that the proposal with that actor and request id has created. -/
theorem truthful_replies {as : List DriverAction}
    (has : Actions.Allowed S.driverStep (S.Meets Undisturbed) S.driversInit as) (i : ReplicaId)
    {r : Reply} (hr : r ∈ ((S.driverRun as).drivers i).replies) :
    ∃ p ∈ ((S.driverRun as).drivers i).proposals,
      p.recipient = r.recipient ∧ p.reqId = r.reqId ∧ r.entry = some p.entry :=
  RaftDriver.Truthful.replies (((truthful S.machine).run has).driver i) r hr

/-- Replica 0 is elected, and actor 9 proposes a command to it as request 7. -/
def proposed : List DriverAction :=
  [.tick 0, .poll 1 [0], .poll 0 [2], .proposeWithReply 0 [1] 9 7]

/-- Replica 1 takes the entries over, and the proposer is answered when its own is applied. -/
theorem truthful_replies_proposed :
    Actions.Allowed (ofSize 3).driverStep ((ofSize 3).Meets Undisturbed) (ofSize 3).driversInit
      (proposed ++ [DriverAction.poll 1 [5], .poll 0 [7]]) ∧
    (((ofSize 3).driverRun (proposed ++ [DriverAction.poll 1 [5], .poll 0 [7]])).drivers 0).replies =
      [⟨9, 7, [], 2, some ⟨1, 2, .command [1]⟩⟩] ∧
    ∃ p ∈ (((ofSize 3).driverRun (proposed ++ [DriverAction.poll 1 [5], .poll 0 [7]])).drivers 0).proposals,
      p.recipient = 9 ∧ p.reqId = 7 ∧ some (⟨1, 2, .command [1]⟩ : Entry) = some p.entry := by
  have has : Actions.Allowed (ofSize 3).driverStep ((ofSize 3).Meets Undisturbed)
      (ofSize 3).driversInit (proposed ++ [DriverAction.poll 1 [5], .poll 0 [7]]) := by
    decide +kernel
  have hreplies :
      (((ofSize 3).driverRun (proposed ++ [DriverAction.poll 1 [5], .poll 0 [7]])).drivers 0).replies =
        [⟨9, 7, [], 2, some ⟨1, 2, .command [1]⟩⟩] := by
    decide +kernel
  exact ⟨has, hreplies, truthful_replies has 0 (by rw [hreplies]; exact List.mem_cons_self)⟩

/-- Replica 1 is elected before it has seen the command, and has its own committed at the same
index: replica 0 answers the proposer of the lost one. -/
theorem truthful_replies_fails :
    (((ofSize 3).driverRun (proposed ++ [DriverAction.tick 1, .poll 2 [8], .poll 1 [9], .propose 1 [2],
      .poll 0 [12], .poll 1 [14], .tick 1, .poll 0 [15]])).drivers 0).proposals =
        [⟨9, 7, ⟨1, 2, .command [1]⟩⟩] ∧
    (((ofSize 3).driverRun (proposed ++ [DriverAction.tick 1, .poll 2 [8], .poll 1 [9], .propose 1 [2],
      .poll 0 [12], .poll 1 [14], .tick 1, .poll 0 [15]])).drivers 0).replies =
        [⟨9, 7, [], 2, some ⟨2, 2, .command [2]⟩⟩] := by
  decide +kernel

end Setup

end CrabScheme.Raft
