import CrabScheme.Raft.Matching

/-!
# What snapshots carry over

A replica that installs a snapshot restores its state machine and keeps the larger of its own last
applied index and the one of the snapshot. When the snapshot is behind, the state goes back and the
index does not. When a snapshot is only installed where it covers what is applied, the state machine
of every replica has applied exactly the committed entries up to its last applied index.

## Main results

* `Setup.snapshot_fidelity` — state machines have applied the committed entries.
-/

namespace CrabScheme.Raft

open Replication

variable {σ : Type}

namespace Setup

variable (S : Setup σ)

/-- **A fresh snapshot**: a snapshot that is installed covers what the receiver has applied. -/
def Fresh (c : Cluster σ) : Action → Prop
  | .deliver k =>
    match c.sent[k]? with
    | some ⟨_, i, .installSnapshot t _ li _ _ _ _⟩ =>
      (c.nodes i).currentTerm ≤ t → (c.nodes i).store.baseIndex < li → (c.nodes i).lastApplied ≤ li
    | _ => True
  | _ => True

instance (c : Cluster σ) (a : Action) : Decidable (Fresh c a) := by
  unfold Fresh
  induction a using Action.casesOn with
  | deliver k =>
    dsimp only
    generalize c.sent[k]? = p
    induction p using Option.casesOn with
    | none => infer_instance
    | some p =>
      induction p using Packet.casesOn with
      | mk s i msg => induction msg using Message.casesOn <;> infer_instance
  | _ => infer_instance

/-- A careful action that only installs fresh snapshots. -/
def Orderly (c : Cluster σ) (a : Action) : Prop := S.Careful c a ∧ Fresh c a

instance (c : Cluster σ) (a : Action) : Decidable (S.Orderly c a) :=
  inferInstanceAs (Decidable (S.Careful c a ∧ Fresh c a))

/-- The rules of orderly runs. -/
def orderlyRules : Rules := ⟨True, True, True, True, True, False⟩

variable {S}

lemma obeys_of_orderly {c : Cluster σ} {a : Action} (h : S.Orderly c a) :
    S.Obeys orderlyRules c a := by
  have hcareful := obeys_of_careful h.1
  cases a with
  | deliver k =>
    rintro ⟨s, i, msg⟩ hp
    have hfresh := h.2
    dsimp only [Fresh] at hfresh
    rw [hp] at hfresh
    cases msg with
    | installSnapshot => exact fun hle => ⟨(hcareful _ hp hle).1, fun _ => hfresh hle⟩
    | appendEntriesResp => exact nofun
    | _ => trivial
  | restart i => exact hcareful
  | _ => trivial

lemma orderly_run {as : List Action} (has : Actions.Allowed S.step S.Orderly S.init as) :
    ∃ G : ℕ → Record, (∀ k m, k ≤ m → G k ≤ G m) ∧ ∀ k, WorldOk S orderlyRules (G k) ∧
      (∀ i, NodeOk S orderlyRules (G k) i ((S.run (as.take k)).nodes i).view) ∧
      ∀ p ∈ (S.run (as.take k)).sent, PacketOk S orderlyRules (G k).hist p := by
  obtain ⟨G, hmono, hG⟩ := S.safe_run (fun _ => ⟨trivial, fun _ => trivial⟩)
    (fun _ _ => trivial) (has.mono fun _ _ => obeys_of_orderly)
  exact ⟨G, hmono, fun k => ⟨(hG k).world, (hG k).node, (hG k).packet⟩⟩

/-- **Snapshot fidelity.** When restoring a snapshot gives back the state it was taken of, there is
one sequence of committed entries for an orderly run, and at all times the state machine of every
replica has applied, from the initial state, exactly its entries from index one to the last applied
index. -/
theorem snapshot_fidelity
    (hM : ∀ s s' : σ, S.machine.restore s' (S.machine.snapshot s) = s) {as : List Action}
    (has : Actions.Allowed S.step S.Orderly S.init as) :
    ∃ chosen : ℕ → Entry, ∀ k i,
      (∀ e ∈ ((S.run (as.take k)).nodes i).history, chosen e.index = e) ∧
      (∀ e ∈ ((S.run (as.take k)).nodes i).store.log,
        e.index ≤ ((S.run (as.take k)).nodes i).commitIndex → chosen e.index = e) ∧
      ((S.run (as.take k)).nodes i).lastApplied ≤ ((S.run (as.take k)).nodes i).commitIndex ∧
      ((S.run (as.take k)).nodes i).sm = S.machine.replay S.sm
        ((List.range' 1 ((S.run (as.take k)).nodes i).lastApplied).map chosen) := by
  obtain ⟨G, hmono, hG⟩ := orderly_run has
  have hnode := fun k => (hG k).2.1
  obtain ⟨chosen, hchosen⟩ := exists_chosen hmono (fun k => (hG k).1) hnode
  refine ⟨chosen, fun k i => ?_⟩
  have hlog := (hnode k i).log
  -- an entry of the committed part of the log is the chosen one
  have hentry : ∀ e : Entry, ((G k).log i)[e.index - 1]? = some e →
      e.index ≤ ((S.run (as.take k)).nodes i).commitIndex → 0 < e.index → chosen e.index = e := by
    intro e he hle hpos
    rw [getElem?_of_take_eq_range' (hchosen k i _ hle) hpos] at he
    exact Option.some.inj he
  have happ : ((S.run (as.take k)).nodes i).lastApplied ≤
    ((S.run (as.take k)).nodes i).commitIndex := hlog.applied_le
  refine ⟨fun e he => ?_, fun e he hle => ?_, happ, ?_⟩
  · obtain ⟨q, hq⟩ := List.getElem?_of_mem (hlog.applied e he)
    have hlt := (List.getElem?_eq_some_iff.mp hq).1
    rw [List.length_take] at hlt
    rw [List.getElem?_take_of_lt (by omega)] at hq
    have hidx := hlog.store.indexed q e hq
    refine hentry e (by rwa [hidx, Nat.add_sub_cancel]) ?_ (by omega)
    have : q < ((S.run (as.take k)).nodes i).lastApplied := lt_of_lt_of_le hlt (min_le_left _ _)
    omega
  · have hget := hlog.store.getElem?_of_mem he
    refine hentry e hget hle ?_
    have hpos := hlog.store.indexed _ e hget
    omega
  · rw [← hchosen k i _ happ]
    exact hlog.sm fun _ => ⟨trivial, hM⟩

/-! ## A late snapshot -/

/-- Replicas 0 and 1 commit a command that replica 2 has received as well, and replica 0 sends
replica 2 a snapshot of it before it knows that. -/
def snapshotSent : List Action :=
  [.tick 0, .deliver 0, .deliver 2, .deliver 3, .deliver 5, .propose 0 [1], .deliver 6, .deliver 7,
    .deliver 8, .compact 0, .tick 0]

/-- The snapshot arrives at once. -/
def snapshotFresh : List Action := snapshotSent ++ [Action.deliver 11]

/-- Snapshot fidelity of a replica that has installed a fresh snapshot. -/
theorem snapshot_fidelity_fresh :
    Actions.Allowed (ofSize 3).step (ofSize 3).Orderly (ofSize 3).init snapshotFresh ∧
    (((ofSize 3).run snapshotFresh).nodes 2).lastApplied = 2 ∧
    ∃ chosen : ℕ → Entry, (((ofSize 3).run snapshotFresh).nodes 2).sm =
      (ofSize 3).machine.replay (ofSize 3).sm ((List.range' 1 2).map chosen) := by
  have has : Actions.Allowed (ofSize 3).step (ofSize 3).Orderly (ofSize 3).init snapshotFresh := by
    decide +kernel
  have hlast : (((ofSize 3).run snapshotFresh).nodes 2).lastApplied = 2 := by decide +kernel
  obtain ⟨chosen, h⟩ := snapshot_fidelity (fun _ _ => rfl) has
  have hsm := (h snapshotFresh.length 2).2.2.2
  rw [List.take_length, hlast] at hsm
  exact ⟨has, hlast, chosen, hsm⟩

/-- Before the snapshot arrives replica 2 applies a second command. -/
def snapshotLate : List Action :=
  snapshotSent ++
    [.deliver 9, .propose 0 [2], .deliver 13, .deliver 14, .tick 0, .deliver 16, .deliver 11]

/-- **A late snapshot takes the state back**: replicas 0 and 2 have applied the same three entries,
and the state of replica 2 lacks the second command. -/
theorem snapshot_fidelity_fails :
    (((ofSize 3).run snapshotLate).nodes 2).lastApplied = 3 ∧
    (((ofSize 3).run snapshotLate).nodes 2).history =
      [⟨1, 1, .noop⟩, ⟨1, 2, .command [1]⟩, ⟨1, 3, .command [2]⟩] ∧
    (((ofSize 3).run snapshotLate).nodes 0).history =
      (((ofSize 3).run snapshotLate).nodes 2).history ∧
    (((ofSize 3).run snapshotLate).nodes 0).sm = [1, 2] ∧
    (((ofSize 3).run snapshotLate).nodes 2).sm = [1] := by
  decide +kernel

end Setup

end CrabScheme.Raft
