import CrabScheme.Raft.Safety

/-!
# Log matching with snapshots

With snapshots the safety of Raft depends on how a replica answers a snapshot that its own one
covers: it answers with the end of its log, although the leader that sent the snapshot may not have
the end of that log. A leader then counts entries as replicated that are not. When such a snapshot
only reaches replicas whose whole log is committed, logs match as they should.

## Main results

* `Setup.log_matching` — live logs with an entry of one index and term agree up to
  it.
-/

namespace CrabScheme.Raft

open Replication

variable {σ : Type}

/-! ## Careful runs -/

namespace Setup

variable (S : Setup σ)

/-- **A careful action**: a snapshot that the receiver's own one covers only reaches a replica whose
whole log is committed, and a replica only restarts from a snapshot that was taken under the first
membership. -/
def Careful (c : Cluster σ) : Action → Prop
  | .deliver k =>
    match c.sent[k]? with
    | some ⟨_, i, .installSnapshot t _ li _ _ _ _⟩ =>
      (c.nodes i).currentTerm ≤ t → li ≤ (c.nodes i).store.baseIndex →
        (c.nodes i).lastLogIndex ≤ (c.nodes i).commitIndex
    | _ => True
  | .restart i => (c.nodes i).baseConfig = S.bootstrap
  | _ => True

instance (c : Cluster σ) (a : Action) : Decidable (S.Careful c a) := by
  unfold Careful
  induction a using Action.casesOn with
  | deliver k =>
    dsimp only
    generalize c.sent[k]? = p
    induction p using Option.casesOn with
    | none => infer_instance
    | some p =>
      induction p using Packet.casesOn with
      | mk s i msg => induction msg using Message.casesOn <;> infer_instance
  | _ => infer_instance

/-- The rules of careful runs. -/
def carefulRules : Rules := ⟨True, True, True, False, True, False⟩

variable {S}

lemma obeys_of_careful {c : Cluster σ} {a : Action} (h : S.Careful c a) :
    S.Obeys carefulRules c a := by
  cases a with
  | deliver k =>
    rintro ⟨s, i, msg⟩ hp
    dsimp only [Careful] at h
    rw [hp] at h
    cases msg with
    | installSnapshot => exact fun hle => ⟨fun _ => h hle, nofun⟩
    | appendEntriesResp => exact nofun
    | _ => trivial
  | restart i => exact fun _ => h
  | _ => trivial

lemma careful_run {as : List Action} (has : Actions.Allowed S.step S.Careful S.init as) :
    ∃ G : ℕ → Record, (∀ k m, k ≤ m → G k ≤ G m) ∧ ∀ k, WorldOk S carefulRules (G k) ∧
      ∀ i, NodeOk S carefulRules (G k) i ((S.run (as.take k)).nodes i).view := by
  obtain ⟨G, hmono, hG⟩ := S.safe_run (fun _ => ⟨trivial, fun _ => trivial⟩)
    (fun _ _ => trivial) (has.mono fun _ _ => obeys_of_careful)
  exact ⟨G, hmono, fun k => ⟨(hG k).world, (hG k).node⟩⟩

end Setup

/-! ## Log matching -/

/-- **Log matching.** In every state of a careful run, with snapshots taken and installed at any
time, two live logs that both have an entry of one index and one term agree at every index up to it
that both have. -/
theorem Setup.log_matching {S : Setup σ} {as : List Action}
    (has : Actions.Allowed S.step S.Careful S.init as) {i j : ReplicaId} {e e' x x' : Entry}
    (he : e ∈ ((S.run as).nodes i).store.log) (he' : e' ∈ ((S.run as).nodes j).store.log)
    (hidx : e.index = e'.index) (hterm : e.term = e'.term)
    (hx : x ∈ ((S.run as).nodes i).store.log) (hx' : x' ∈ ((S.run as).nodes j).store.log)
    (hxx : x.index = x'.index) (hle : x.index ≤ e.index) : x = x' := by
  obtain ⟨G, -, hG⟩ := careful_run has
  have hnode := (hG as.length).2
  rw [List.take_length] at hnode
  have hget := (hnode i).log.store.getElem?_of_mem he
  have hget' := (hnode j).log.store.getElem?_of_mem he'
  rw [← hidx] at hget'
  have hagree := Sourced.agree (hnode i).step.sourced (hnode j).step.sourced hget hget' hterm
  have hxget := (hnode i).log.store.getElem?_of_mem hx
  have hxget' := (hnode j).log.store.getElem?_of_mem hx'
  rw [getElem?_eq_of_take_eq hagree (by omega), hxx, hxget'] at hxget
  exact (Option.some.inj hxget).symm

/-! ## An outdated snapshot -/

namespace Setup

/-- Replica 0 leads and everything up to index 1 is committed; replicas 0 and 1 take snapshots of
it. Then replica 0 adds two entries that only replica 2 receives. -/
def twoTails : List Action :=
  [.tick 0, .deliver 0, .deliver 1, .deliver 4, .deliver 5, .deliver 6, .deliver 7, .deliver 8,
    .deliver 9, .deliver 10, .deliver 11, .tick 0, .deliver 14, .compact 0, .compact 1,
    .propose 0 [1], .propose 0 [2], .deliver 24]

/-- Log matching, after replica 3 has installed the snapshot. -/
theorem log_matching_twoTails :
    Actions.Allowed (ofSize 5).step (ofSize 5).Careful (ofSize 5).init (twoTails ++ [Action.deliver 25]) ∧
      (⟨1, 2, .command [1]⟩ : Entry) = ⟨1, 2, .command [1]⟩ := by
  have has : Actions.Allowed (ofSize 5).step (ofSize 5).Careful (ofSize 5).init
      (twoTails ++ [Action.deliver 25]) := by decide +kernel
  refine ⟨has, log_matching (i := 0) (j := 2) (e := ⟨1, 3, .command [2]⟩) has ?_ ?_ rfl rfl ?_ ?_
    rfl (by decide)⟩ <;> decide +kernel

/-- Replica 1 is elected in term 2 and again, after a restart, in term 3. It is told twice that
replica 0 lacks its entry of term 2, and sends its snapshot, which replica 0 answers with the end
of its own tail. With that and the acknowledgement of replica 3 it commits its log up to index 3,
and folds it into a snapshot. -/
def falseCommit : List Action :=
  [.tick 1, .deliver 30, .deliver 31, .deliver 32, .deliver 33, .restart 1, .tick 1, .deliver 40,
    .deliver 41, .deliver 42, .deliver 43, .deliver 46, .deliver 48, .deliver 49, .deliver 50,
    .deliver 44, .deliver 51, .deliver 51, .deliver 53, .deliver 54, .compact 1]

/-- Replica 2 is elected in term 4 with the tail of replica 0, and replica 1, behind whose snapshot
the tails differ, takes over the entry of term 4 alone. It is elected in term 5 and passes the entry
on to replica 3. -/
def mixedLog : List Action :=
  [.tick 2, .tick 2, .tick 2, .deliver 63, .deliver 66, .deliver 67, .deliver 68, .deliver 70,
    .deliver 73, .deliver 74, .deliver 75, .deliver 76, .deliver 77, .deliver 78, .tick 1,
    .deliver 82, .deliver 83, .deliver 84, .deliver 85, .deliver 88, .deliver 90, .deliver 91]

/-- **An outdated snapshot breaks log matching**: replicas 2 and 3 both have the entry of index 4
and term 4, and have different entries of index 2. -/
theorem log_matching_fails :
    (⟨4, 4, .noop⟩ ∈ (((ofSize 5).run (twoTails ++ falseCommit ++ mixedLog)).nodes 2).store.log ∧
      ⟨4, 4, .noop⟩ ∈ (((ofSize 5).run (twoTails ++ falseCommit ++ mixedLog)).nodes 3).store.log) ∧
    ⟨1, 2, .command [1]⟩ ∈
      (((ofSize 5).run (twoTails ++ falseCommit ++ mixedLog)).nodes 2).store.log ∧
    ⟨2, 2, .noop⟩ ∈
      (((ofSize 5).run (twoTails ++ falseCommit ++ mixedLog)).nodes 3).store.log := by
  decide +kernel

end Setup

end CrabScheme.Raft
