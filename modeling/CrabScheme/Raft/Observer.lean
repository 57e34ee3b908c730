import CrabScheme.Raft.Driver

/-!
# The stream of the commit observer

A driver notifies its observer of every index its replica applies. A snapshot that a replica installs
moves its last applied index without applying anything, so the indices it covers are never
announced: the stream has a gap if it had begun before, and the next entry is applied. Without such
snapshots the stream has every index from its first one on, each with the command that was applied.

## Main results

* `Setup.observer_stream` — the stream of every driver in every run with such
  messages only.
-/

namespace CrabScheme.Raft

variable {σ : Type}

/-! ## Consecutive numbers -/

/-- **Consecutive numbers, up to `n`.** -/
def RunsTo (n : ℕ) (xs : List ℕ) : Prop := ∃ s, xs = List.range' s xs.length ∧ s + xs.length = n + 1

namespace RunsTo

variable {n m : ℕ} {xs ys : List ℕ}

lemma nil (n : ℕ) : RunsTo n [] := ⟨n + 1, rfl, rfl⟩

lemma range' (m k : ℕ) : RunsTo (m + k) (List.range' (m + 1) k) := by
  refine ⟨m + 1, ?_, ?_⟩ <;> rw [List.length_range']
  omega

lemma append (h : RunsTo m xs) (h' : RunsTo n ys) (hlen : m + ys.length = n) :
    RunsTo n (xs ++ ys) := by
  obtain ⟨s, hs, hsm⟩ := h
  obtain ⟨t, ht, htn⟩ := h'
  refine ⟨s, ?_, ?_⟩
  · rw [List.length_append, ← List.range'_append_1, ← hs, show s + xs.length = t by omega, ← ht]
  · rw [List.length_append]
    omega

lemma le (h : RunsTo n xs) {x : ℕ} (hx : x ∈ xs) : x ≤ n := by
  obtain ⟨s, hs, hsn⟩ := h
  rw [hs] at hx
  have := (List.mem_range'_1.mp hx).2
  omega

end RunsTo

/-! ## What a driver announces -/

namespace RaftDriver

variable {d : RaftDriver} {l : Local σ}

/-- What the replica has applied and the driver has not seen. -/
def fresh (d : RaftDriver) (l : Local σ) : List Applied :=
  l.appliedOutbox.filter fun a => decide (d.notifiedThrough < a.index)

lemma Quiet.fresh (h : d.Quiet l) : d.fresh l = [] := by
  refine List.filter_eq_nil_iff.mpr fun a ha => ?_
  rw [decide_eq_true_eq, Nat.not_lt]
  exact h a ha

/-- **What a driver has announced, next to what its replica has applied.** -/
structure Streams (d : RaftDriver) (l : Local σ) : Prop where
  silent : d.observer = none → d.committed = []
  le : d.notifiedThrough ≤ l.lastApplied
  bounded : ∀ a ∈ l.appliedOutbox, a.index ≤ l.lastApplied
  sent : RunsTo d.notifiedThrough (d.committed.map fun x => x.2.index)
  fresh : d.observer ≠ none → RunsTo l.lastApplied ((d.fresh l).map Applied.index)
  tight : d.committed ≠ [] → d.notifiedThrough + (d.fresh l).length = l.lastApplied
  told : ∀ x ∈ d.committed, ∃ e, appliedAt l.history x.2.index = some e ∧ x.2.command = e.command
  shown : ∀ a ∈ d.fresh l, ∃ e, appliedAt l.history a.index = some e ∧ a.command = e.command

/-! ## The loop of `notify_applied` -/

section

variable (hist : List Entry)

@[simp] lemma answer_committed (a : Applied) : (d.answer hist a).committed = d.committed := by
  unfold answer
  split <;> rfl

@[simp] lemma answer_observer (a : Applied) : (d.answer hist a).observer = d.observer := by
  unfold answer
  split <;> rfl

@[simp] lemma answer_notifiedThrough (a : Applied) :
    (d.answer hist a).notifiedThrough = d.notifiedThrough := by
  unfold answer
  split <;> rfl

lemma notifyOne_observer (a : Applied) : (d.notifyOne hist a).observer = d.observer := by
  unfold notifyOne
  split_ifs
  · rfl
  · unfold observe
    split <;> simp_all

lemma notifyAll_observer (as : List Applied) (d : RaftDriver) :
    (d.notifyAll hist as).observer = d.observer := by
  induction as generalizing d with
  | nil => rfl
  | cons a as ih => exact (ih _).trans (notifyOne_observer hist a)

lemma notifyOne_notifiedThrough (a : Applied) :
    (d.notifyOne hist a).notifiedThrough = max d.notifiedThrough a.index := by
  unfold notifyOne
  split_ifs with h
  · exact (max_eq_left h).symm
  · rw [answer_notifiedThrough, max_eq_right (by omega)]
    unfold observe
    split <;> rfl

lemma notifyAll_le {as : List Applied} {n : ℕ} (d : RaftDriver) (hd : d.notifiedThrough ≤ n)
    (has : ∀ a ∈ as, a.index ≤ n) : (d.notifyAll hist as).notifiedThrough ≤ n := by
  induction as generalizing d with
  | nil => exact hd
  | cons a as ih =>
    refine ih _ ?_ fun x hx => has x (List.mem_cons_of_mem a hx)
    rw [notifyOne_notifiedThrough]
    exact max_le hd (has a List.mem_cons_self)

lemma notifyAll_of_none (as : List Applied) (d : RaftDriver) (hobs : d.observer = none)
    : (d.notifyAll hist as).committed = d.committed := by
  induction as generalizing d with
  | nil => rfl
  | cons a as ih =>
    refine (ih _ ((notifyOne_observer hist a).trans hobs)).trans ?_
    unfold notifyOne
    split_ifs
    · rfl
    · unfold observe
      simp [hobs]

lemma notifyAll_announces {as : List Applied} {obs : ActorRef} {s : ℕ} (d : RaftDriver)
    (hobs : d.observer = some obs) (hs : d.notifiedThrough < s)
    (hrange : (as.filter fun a => decide (d.notifiedThrough < a.index)).map Applied.index = List.range' s (as.filter fun a => decide (d.notifiedThrough < a.index)).length)
    : (d.notifyAll hist as).committed = d.committed ++
        (as.filter fun a => decide (d.notifiedThrough < a.index)).map
          (fun a => (obs, ⟨a.index, a.command⟩)) ∧
      ((as.filter fun a => decide (d.notifiedThrough < a.index)) = [] →
        (d.notifyAll hist as).notifiedThrough = d.notifiedThrough) ∧
      ((as.filter fun a => decide (d.notifiedThrough < a.index)) ≠ [] →
        (d.notifyAll hist as).notifiedThrough + 1 =
          s + (as.filter fun a => decide (d.notifiedThrough < a.index)).length) := by
  induction as generalizing d s with
  | nil => exact ⟨(List.append_nil _).symm, fun _ => rfl, fun h => absurd rfl h⟩
  | cons a as ih =>
    by_cases ha : d.notifiedThrough < a.index
    · rw [List.filter_cons_of_pos (by simpa using ha)] at hrange ⊢
      rw [List.map_cons, List.length_cons, List.range'_succ, List.cons.injEq] at hrange
      obtain ⟨hidx, hrest⟩ := hrange
      -- the driver after the first new index
      have hone : (d.notifyOne hist a).notifiedThrough = s := by
        rw [notifyOne_notifiedThrough]
        omega
      have hsame : (as.filter fun x => decide ((d.notifyOne hist a).notifiedThrough < x.index)) =
          as.filter fun x => decide (d.notifiedThrough < x.index) := by
        refine List.filter_congr fun x hx => decide_eq_decide.mpr ?_
        rw [hone]
        refine ⟨fun h => by omega, fun h => ?_⟩
        have hmem : x.index ∈ List.range' (s + 1)
            (as.filter fun x => decide (d.notifiedThrough < x.index)).length := by
          rw [← hrest]
          exact List.mem_map_of_mem (List.mem_filter.mpr ⟨hx, by simpa using h⟩)
        exact (List.mem_range'_1.mp hmem).1
      have hcom : (d.notifyOne hist a).committed =
          d.committed ++ [(obs, ⟨a.index, a.command⟩)] := by
        unfold notifyOne
        rw [if_neg (by omega)]
        unfold observe
        simp [hobs]
      obtain ⟨h1, h2, h3⟩ := ih (d.notifyOne hist a) ((notifyOne_observer hist a).trans hobs)
        (s := s + 1) (by omega) (by rw [hsame]; exact hrest)
      rw [hsame] at h1 h2 h3
      have hnext : d.notifyAll hist (a :: as) = (d.notifyOne hist a).notifyAll hist as := rfl
      refine ⟨?_, fun h => absurd h (List.cons_ne_nil _ _), fun _ => ?_⟩
      · rw [hnext, h1, hcom, List.append_assoc]
        rfl
      · rw [hnext, List.length_cons]
        by_cases hnil : (as.filter fun x => decide (d.notifiedThrough < x.index)) = []
        · rw [h2 hnil, hone, hnil]
          rfl
        · rw [h3 hnil]
          omega
    · rw [List.filter_cons_of_neg (by simpa using ha)] at hrange ⊢
      have hnext : d.notifyAll hist (a :: as) = (d.forget a.index).notifyAll hist as := by
        show (d.notifyOne hist a).notifyAll hist as = _
        unfold notifyOne
        rw [if_pos (by omega)]
      rw [hnext]
      exact ih (d.forget a.index) hobs hs hrange

end

namespace Streams

variable {M : StateMachine σ} {l' : Local σ}

variable (l') in
lemma congr (h : d.Streams l) (hla : l'.lastApplied = l.lastApplied)
    (hout : l'.appliedOutbox = l.appliedOutbox) (hhist : l'.history = l.history) :
    d.Streams l' := by
  have hfresh : d.fresh l' = d.fresh l := by
    unfold RaftDriver.fresh
    rw [hout]
  refine ⟨h.silent, hla ▸ h.le, ?_, h.sent, ?_, ?_, ?_, ?_⟩
  · rw [hla, hout]
    exact h.bounded
  · rw [hla, hfresh]
    exact h.fresh
  · rw [hla, hfresh]
    exact h.tight
  · rw [hhist]
    exact h.told
  · rw [hfresh, hhist]
    exact h.shown

/-- **Applying** announces nothing yet: the outbox grows by the next indices. -/
lemma advance (h : d.Streams l) (hk : l.Kept) {c : ℕ} (hc : c ≤ l.store.lastIndex) :
    d.Streams (l.advance M c) := by
  obtain ⟨hla, hout, hhist⟩ := hk.advance_applies hc
  have hidx := hk.map_index_due hc
  have hfresh : d.fresh (l.advance M c) =
      d.fresh l ++ M.outputs l.sm (l.due (c - l.lastApplied)) := by
    unfold RaftDriver.fresh
    rw [hout, List.filter_append]
    congr 1
    rw [List.filter_eq_self]
    intro a ha
    obtain ⟨e, he, hae, -⟩ := StateMachine.exists_of_mem_outputs ha
    have := (hk.bounds_due hc he).1
    have := h.le
    simp only [decide_eq_true_eq]
    omega
  have hlen : (M.outputs l.sm (l.due (c - l.lastApplied))).length = c - l.lastApplied := by
    rw [← List.length_map, StateMachine.map_index_outputs, List.length_map,
      hk.length_due hc]
  have hmax : l.lastApplied + (c - l.lastApplied) = max l.lastApplied c := by omega
  refine ⟨h.silent, ?_, ?_, h.sent, fun hobs => ?_, fun hne => ?_, fun x hx => ?_, fun a ha => ?_⟩
  · rw [hla]
    exact h.le.trans (le_max_left _ _)
  · rw [hla, hout]
    intro a ha
    rcases List.mem_append.mp ha with ha | ha
    · exact (h.bounded a ha).trans (le_max_left _ _)
    · obtain ⟨e, he, hae, -⟩ := StateMachine.exists_of_mem_outputs ha
      exact hae ▸ (hk.bounds_due hc he).2
  · rw [hla, hfresh, List.map_append, StateMachine.map_index_outputs, hidx, ← hmax]
    refine (h.fresh hobs).append (RunsTo.range' _ _) ?_
    rw [List.length_range']
  · rw [hla, hfresh, List.length_append, hlen, ← h.tight hne]
    omega
  · have hle := h.sent.le (List.mem_map_of_mem hx)
    rw [hhist, hk.appliedAt_old hc (hle.trans h.le)]
    exact h.told x hx
  · rw [hfresh] at ha
    rcases List.mem_append.mp ha with ha | ha
    · rw [hhist, hk.appliedAt_old hc (h.bounded a (List.mem_filter.mp ha).1)]
      exact h.shown a ha
    · obtain ⟨e, he, hae, hcmd⟩ := StateMachine.exists_of_mem_outputs ha
      rw [hhist, hae]
      exact ⟨e, hk.appliedAt_due hc he, hcmd⟩

/-- **The outbox is drained**: its new indices are announced. -/
lemma notify (h : d.Streams l) : (d.notifyAll l.history l.appliedOutbox).Streams l.drain := by
  have hle := notifyAll_le l.history d h.le h.bounded
  have hobserver := notifyAll_observer l.history l.appliedOutbox d
  cases hobs : d.observer with
  | none =>
    have hcom : (d.notifyAll l.history l.appliedOutbox).committed = [] :=
      (notifyAll_of_none l.history _ d hobs).trans (h.silent hobs)
    refine ⟨fun _ => hcom, hle, nofun, ?_, fun hne => absurd (hobserver.trans hobs) hne,
      fun hne => absurd hcom hne, ?_, nofun⟩
    · rw [hcom]
      exact .nil _
    · rw [hcom]
      exact nofun
  | some obs =>
    have hruns := h.fresh (by rw [hobs]; exact nofun)
    obtain ⟨s, hs, hsn⟩ := hruns
    rw [List.length_map] at hs hsn
    -- the first new index is new
    have hnew : d.notifiedThrough < s := by
      rcases Nat.eq_zero_or_pos (d.fresh l).length with hzero | hpos
      · have := h.le
        omega
      · have hmem : s ∈ (d.fresh l).map Applied.index := by
          rw [hs]
          exact List.mem_range'_1.mpr ⟨le_rfl, by omega⟩
        obtain ⟨a, ha, rfl⟩ := List.mem_map.mp hmem
        exact of_decide_eq_true (List.mem_filter.mp ha).2
    obtain ⟨hcom, hnone, hsome⟩ := notifyAll_announces l.history d hobs hnew hs
    have hall : (d.notifyAll l.history l.appliedOutbox).committed =
        d.committed ++ (d.fresh l).map fun a => (obs, ⟨a.index, a.command⟩) := hcom
    have hidx : (d.notifyAll l.history l.appliedOutbox).committed.map (fun x => x.2.index) =
        d.committed.map (fun x => x.2.index) ++ (d.fresh l).map Applied.index := by
      rw [hall, List.map_append, List.map_map]
      rfl
    have htold : ∀ x ∈ (d.notifyAll l.history l.appliedOutbox).committed,
        ∃ e, appliedAt l.history x.2.index = some e ∧ x.2.command = e.command := by
      intro x hx
      rw [hall] at hx
      rcases List.mem_append.mp hx with hx | hx
      · exact h.told x hx
      · obtain ⟨a, ha, rfl⟩ := List.mem_map.mp hx
        exact h.shown a ha
    have hsilent : (d.notifyAll l.history l.appliedOutbox).observer = none →
        (d.notifyAll l.history l.appliedOutbox).committed = [] := fun hn => by
      rw [hobserver, hobs] at hn
      cases hn
    by_cases hnil : d.fresh l = []
    · have hsame : (d.notifyAll l.history l.appliedOutbox).notifiedThrough = d.notifiedThrough :=
        hnone hnil
      rw [hnil, List.map_nil, List.append_nil] at hidx hall
      refine ⟨hsilent, hle, nofun, ?_, fun _ => .nil _, fun hne => ?_, htold, nofun⟩
      · rw [hidx, hsame]
        exact h.sent
      · have := h.tight (hall ▸ hne)
        rw [hnil] at this
        rw [hsame]
        exact this
    · have hlast : (d.notifyAll l.history l.appliedOutbox).notifiedThrough = l.lastApplied := by
        have : (d.notifyAll l.history l.appliedOutbox).notifiedThrough + 1 =
          s + (d.fresh l).length := hsome hnil
        omega
      refine ⟨hsilent, hle, nofun, ?_, fun _ => .nil _, fun _ => hlast, htold, nofun⟩
      rw [hidx, hlast]
      have hruns : RunsTo l.lastApplied ((d.fresh l).map Applied.index) :=
        ⟨s, by rw [List.length_map]; exact hs, by rw [List.length_map]; exact hsn⟩
      by_cases hc : d.committed = []
      · rw [hc]
        exact hruns
      · refine h.sent.append hruns ?_
        rw [List.length_map]
        exact h.tight hc

/-- A snapshot is installed: nothing is applied, and nothing may have been announced if it moves the
last applied index. -/
lemma install (h : d.Streams l) {idx t : ℕ} {config : ConfState} {data : Bytes}
    (hP : l.lastApplied < idx → d.observer = none ∨ d.committed = [] ∧ d.fresh l = []) :
    d.Streams (l.install M idx t config data) := by
  have hmax : (l.install M idx t config data).lastApplied = max l.lastApplied idx := rfl
  rcases Nat.lt_or_ge l.lastApplied idx with hlt | hge
  · have hcom : d.committed = [] := (hP hlt).elim h.silent And.left
    refine ⟨h.silent, h.le.trans (le_max_left _ _),
      fun a ha => (h.bounded a ha).trans (le_max_left _ _), h.sent, fun hobs => ?_,
      fun hne => absurd hcom hne, h.told, h.shown⟩
    have hfresh : d.fresh (l.install M idx t config data) = [] :=
      ((hP hlt).resolve_left hobs).2
    rw [hfresh]
    exact .nil _
  · exact h.congr _ (hmax.trans (max_eq_left hge)) rfl rfl

end Streams

end RaftDriver

/-! ## Every run -/

/-- **A snapshot beyond what a replica has applied only reaches it before its driver has begun to
announce.** -/
def Unannounced (d : RaftDriver) (l : Local σ) : Message → Prop
  | .installSnapshot _ _ idx _ _ _ _ => l.store.baseIndex < idx → l.lastApplied < idx →
      d.observer = none ∨ d.committed = [] ∧ d.fresh l = []
  | _ => True

instance (d : RaftDriver) (l : Local σ) (msg : Message) : Decidable (Unannounced d l msg) := by
  unfold Unannounced
  induction msg using Message.casesOn <;> infer_instance

/-- What a driver announces is an invariant of the driver and its replica. -/
def streams (M : StateMachine σ) : DriverInvariant M (Unannounced (σ := σ)) where
  holds d l := d.Streams l
  start _ hquiet := by
    have hfresh := hquiet.fresh
    refine ⟨fun _ => rfl, le_rfl, hquiet, .nil _, fun _ => ?_, fun h => absurd rfl h, nofun, ?_⟩
    · rw [hfresh]
      exact .nil _
    · rw [hfresh]
      exact nofun
  works hk h hw := by
    cases hw with
    | append => exact h.congr _ rfl rfl rfl
    | advance _ hlast => exact h.advance hk hlast
    | compact =>
      obtain ⟨hla, hout, hhist⟩ := Local.compact_applies _
      exact h.congr _ hla hout hhist
  takes hk hnum h hP ht := by
    cases ht with
    | @accept _ _ _ _ es c _ hprev =>
      have hover := h.congr (Local.takeOver _ es) rfl rfl rfl
      unfold Local.accept
      split_ifs
      · exact hover.advance (hk.takeOver hprev hnum) (min_le_right _ _)
      · exact hover
    | install hlt => exact h.install (hP hlt)
  notify _ h := h.notify
  observe obs h hquiet := by
    refine ⟨nofun, h.le, h.bounded, h.sent, fun _ => ?_, h.tight, h.told, h.shown⟩
    have hfresh : (RaftDriver.setObserver _ obs).fresh _ = [] := hquiet.fresh
    rw [hfresh]
    exact .nil _
  propose _ h _ _ :=
    ⟨h.silent, h.le, h.bounded, h.sent, h.fresh, h.tight, h.told, h.shown⟩

namespace Setup

variable {S : Setup σ}

/-- **The stream of the commit observer.** In every run in which a snapshot beyond what is applied
only reaches a replica before its driver has begun to announce, the indices a driver announces are
consecutive, and each comes with the command of the entry its replica applied there. -/
theorem observer_stream {as : List DriverAction}
    (has : Actions.Allowed S.driverStep (S.Meets Unannounced) S.driversInit as) (i : ReplicaId) :
    (∃ s, ((S.driverRun as).drivers i).committed.map (fun x => x.2.index) =
        List.range' s ((S.driverRun as).drivers i).committed.length) ∧
      ∀ x ∈ ((S.driverRun as).drivers i).committed, ∃ e,
        appliedAt ((S.driverRun as).cluster.nodes i).history x.2.index = some e ∧
          x.2.command = e.command := by
  have h := ((streams S.machine).run has).driver i
  obtain ⟨s, hs, -⟩ := RaftDriver.Streams.sent h
  rw [List.length_map] at hs
  exact ⟨⟨s, hs⟩, RaftDriver.Streams.told h⟩

/-- Replica 0 is elected, and all three commit its first entry; replica 2 is observed by actor 9. -/
def watched : List DriverAction :=
  [.setObserver 2 9, .tick 0, .poll 1 [0], .poll 0 [2], .poll 1 [3], .poll 2 [4], .poll 0 [5, 6],
    .tick 0, .poll 1 [7], .poll 2 [8], .poll 0 [9, 10]]

/-- Replica 2 commits a command, and its observer is told of both entries. -/
theorem observer_stream_watched :
    Actions.Allowed (ofSize 3).driverStep ((ofSize 3).Meets Unannounced) (ofSize 3).driversInit
      (watched ++ [DriverAction.propose 0 [1], .poll 2 [12], .poll 0 [13], .tick 0, .poll 2 [15]]) ∧
    (((ofSize 3).driverRun
      (watched ++ [DriverAction.propose 0 [1], .poll 2 [12], .poll 0 [13], .tick 0, .poll 2 [15]])).drivers
        2).committed = [(9, ⟨1, []⟩), (9, ⟨2, [1]⟩)] ∧
    ∃ s, [1, 2] = List.range' s 2 := by
  have has : Actions.Allowed (ofSize 3).driverStep ((ofSize 3).Meets Unannounced)
      (ofSize 3).driversInit
      (watched ++ [DriverAction.propose 0 [1], .poll 2 [12], .poll 0 [13], .tick 0, .poll 2 [15]]) := by
    decide +kernel
  have hcom : (((ofSize 3).driverRun
      (watched ++ [DriverAction.propose 0 [1], .poll 2 [12], .poll 0 [13], .tick 0, .poll 2 [15]])).drivers
        2).committed = [(9, ⟨1, []⟩), (9, ⟨2, [1]⟩)] := by
    decide +kernel
  have h := (observer_stream has 2).1
  rw [hcom] at h
  exact ⟨has, hcom, h⟩

/-- Replicas 0 and 1 commit a command that replica 2 only receives as a snapshot. When the next
command is committed, its observer is told of index 3 right after index 1. -/
theorem observer_stream_fails :
    (((ofSize 3).driverRun (watched ++ [DriverAction.propose 0 [1], .poll 1 [11], .poll 0 [13], .compact 0,
      .tick 0, .poll 2 [15], .poll 0 [16], .propose 0 [2], .poll 2 [18], .poll 0 [19], .tick 0,
      .poll 2 [21]])).drivers 2).committed = [(9, ⟨1, []⟩), (9, ⟨3, [2]⟩)] := by
  decide +kernel

end Setup


end CrabScheme.Raft
