import CrabScheme.Raft.Preserve

/-!
# Safety of Raft

What the invariant says of runs. Without compaction it needs no rules: whatever the network and
the crashes do, at most one replica leads in a term even while the membership changes, and all
replicas apply the same entries in the same order.

## Main results

* `Setup.election_safety_reconfiguring` — one leader in a term, while memberships change.
* `Setup.state_machine_safety` — replicas apply the same entries, in order, and
  keep what is committed.
* `Setup.leader_completeness` — later leaders have what is committed.
* `Setup.leader_append_only`, `Setup.vote_stays` — leaders keep their entries, voters their votes.
-/

namespace CrabScheme.Raft

open Replication

variable {σ : Type}

namespace Setup

variable (S : Setup σ)

/-- The record of a cluster that was just started. -/
def blank : Record where
  hist := ⟨fun _ _ => none, fun _ _ => none, fun _ => none, fun _ => [], fun _ _ => 0,
    fun _ _ _ => False⟩
  log _ := []
  synced _ := 0
  commit _ := 0

lemma holds_init {R : Rules} (hR : R.Careful) : (safety S hR).Holds S.init blank where
  proper := proper_init
  world := ⟨⟨nofun, nofun, nofun, nofun, fun _ => rfl, fun _ _ => le_rfl, nofun, nofun, nofun,
    nofun⟩, nofun, nofun⟩
  node i := ⟨rfl, rfl, ⟨.new, fun _ => rfl, fun _ => rfl, rfl, rfl, le_rfl, le_rfl, fun _ => rfl,
    nofun, fun _ => rfl, nofun⟩, ⟨nofun, nofun, nofun, le_rfl, .inl rfl, nofun, nofun, fun _ _ => by
      show List.take _ [] <+: []
      rw [List.take_nil], le_rfl, .inl rfl⟩, rfl, nofun, nofun⟩
  packet := nofun

/-- **Every state of a run has a record**, and the record only grows. -/
theorem safe_run {R : Rules} (hR : R.Careful) (hcfg : S.Configured R) {as : List Action}
    (has : Actions.Allowed S.step (S.Obeys R) S.init as) :
    ∃ G : ℕ → Record, (∀ k m, k ≤ m → G k ≤ G m) ∧
      ∀ k, (safety S hR).Holds (S.run (as.take k)) (G k) :=
  MoveInvariant.run hcfg (S.holds_init hR) has

/-! ## Runs without compaction -/

/-- No replica is set to take snapshots. -/
def Uncompacting : Prop := ∀ i, (S.cfg i).snapshotThreshold = 0

/-- Nothing is assumed of the network, of crashes and of changes of the membership. -/
def plainRules : Rules := ⟨False, True, False, False, False, False⟩

variable {S}

lemma uncompacted_run (hcfg : S.Uncompacting) {as : List Action} (has : ∀ i, .compact i ∉ as) :
    ∃ G : ℕ → Record, (∀ k m, k ≤ m → G k ≤ G m) ∧ ∀ k, WorldOk S plainRules (G k) ∧
      ∀ i, NodeOk S plainRules (G k) i ((S.run (as.take k)).nodes i).view := by
  have hallowed : Actions.Allowed S.step (S.Obeys plainRules) S.init as := by
    refine Actions.allowed_of_mem (fun c a ha => ?_) _
    cases a with
    | compact i => exact absurd ha (has i)
    | deliver => exact fun _ _ => Node.receives_of_not nofun nofun nofun
    | restart => exact nofun
    | _ => trivial
  have hconf : S.Configured plainRules := fun i hi => by
    rw [hcfg i] at hi
    cases hi
  obtain ⟨G, hmono, hG⟩ := S.safe_run (R := plainRules) nofun hconf hallowed
  exact ⟨G, hmono, fun k => ⟨(hG k).world, (hG k).node⟩⟩

/-- **Election safety while the membership changes.** Without compaction no two replicas ever lead
in one term, whatever memberships leaders propose and however far these have spread. -/
theorem election_safety_reconfiguring (hcfg : S.Uncompacting) {as : List Action}
    (has : ∀ i, .compact i ∉ as) {k m : ℕ} {i j : ReplicaId}
    (hi : ((S.run (as.take k)).nodes i).role = .leader)
    (hj : ((S.run (as.take m)).nodes j).role = .leader)
    (hterm : ((S.run (as.take k)).nodes i).currentTerm =
      ((S.run (as.take m)).nodes j).currentTerm) : i = j := by
  obtain ⟨G, hmono, hG⟩ := uncompacted_run hcfg has
  have hlead := (hmono k _ (le_max_left k m)).1.leader (((hG k).2 i).leader hi).leader
  have hlead' := (hmono m _ (le_max_right k m)).1.leader (((hG m).2 j).leader hj).leader
  have hterm' : ((S.run (as.take k)).nodes i).view.term =
    ((S.run (as.take m)).nodes j).view.term := hterm
  rw [hterm', hlead'] at hlead
  exact (Option.some.inj hlead).symm

/-- Replica 0 is elected, commits its first entry and begins to add replica 3. -/
def addMember : List Action :=
  [.tick 0, .deliver 0, .deliver 2, .deliver 3, .deliver 5, .proposeConf 0 [0, 1, 2, 3]]

/-- One leader while the membership changes: replica 0, before and after it begins the change. -/
theorem election_safety_reconfiguring_addMember :
    (((ofSize 3).run (addMember.take 3)).nodes 0).role = .leader ∧
    (((ofSize 3).run (addMember.take 6)).nodes 0).role = .leader ∧
    (((ofSize 3).run (addMember.take 6)).nodes 0).config = .joint [0, 1, 2] [0, 1, 2, 3] ∧
    (0 : ReplicaId) = 0 := by
  have h : (((ofSize 3).run (addMember.take 3)).nodes 0).role = .leader := by decide +kernel
  have h' : (((ofSize 3).run (addMember.take 6)).nodes 0).role = .leader := by decide +kernel
  refine ⟨h, h', by decide +kernel, ?_⟩
  exact election_safety_reconfiguring (fun _ => rfl)
    (fun i => by simp [addMember]) h h' (by decide +kernel)

end Setup

section Agreement

variable {S : Setup σ} {R R' : Rules} {g g₁ g₂ : Record} {i j : ReplicaId} {v v' : View σ}

/-- **What two replicas have committed agrees**, at different times too. -/
lemma NodeOk.agree (h : NodeOk S R g₁ i v) (h' : NodeOk S R' g₂ j v') (hw : WorldOk S R g)
    (hle : g₁ ≤ g) (hle' : g₂ ≤ g) {k : ℕ} (hk : k ≤ v.commitIndex) (hk' : k ≤ v'.commitIndex) :
    (g₁.log i).take k = (g₂.log j).take k :=
  hw.sound.settled_agree (h.step.settled.mono hle.1 le_rfl) (h'.step.settled.mono hle'.1 le_rfl)
    hk hk'

end Agreement

lemma getElem?_of_take_eq_range' {l : List Entry} {chosen : ℕ → Entry} {idx : ℕ}
    (h : l.take idx = (List.range' 1 idx).map chosen) (hpos : 0 < idx) :
    l[idx - 1]? = some (chosen idx) := by
  have hq : idx - 1 < idx := by omega
  have heq := congrArg (fun l => l[idx - 1]?) h
  simp only [List.getElem?_take_of_lt hq, List.getElem?_map, List.getElem?_range' hq, Nat.one_mul, Nat.add_sub_cancel' hpos] at heq
  exact heq

namespace Setup

variable {S : Setup σ}

/-- **The committed entries of a run**: one for each index that some replica commits at some
time. -/
lemma exists_chosen {R : Rules} {as : List Action} {G : ℕ → Record}
    (hmono : ∀ k m, k ≤ m → G k ≤ G m) (hworld : ∀ k, WorldOk S R (G k))
    (hnode : ∀ k i, NodeOk S R (G k) i ((S.run (as.take k)).nodes i).view) :
    ∃ chosen : ℕ → Entry, ∀ k i m, m ≤ ((S.run (as.take k)).nodes i).commitIndex →
      ((G k).log i).take m = (List.range' 1 m).map chosen := by
  classical
  -- an index that is committed anywhere has the same entry everywhere
  let P : ℕ → Entry → Prop := fun idx e => ∃ k i,
    idx ≤ ((S.run (as.take k)).nodes i).commitIndex ∧ ((G k).log i)[idx - 1]? = some e
  have huniq : ∀ {idx e e'}, 0 < idx → P idx e → P idx e' → e = e' := by
    rintro idx e e' hpos ⟨k, i, hk, he⟩ ⟨k', i', hk', he'⟩
    have hagree := (hnode k i).agree (hnode k' i') (hworld (max k k')) (hmono k _ (le_max_left k k'))
      (hmono k' _ (le_max_right k k')) hk hk'
    rw [getElem?_eq_of_take_eq hagree (by omega), he'] at he
    exact (Option.some.inj he).symm
  refine ⟨fun idx => if h : ∃ e, P idx e then h.choose else ⟨0, 0, .noop⟩, fun k i m hm => ?_⟩
  have hlen : m ≤ ((G k).log i).length := hm.trans (hnode k i).step.settled.1
  refine List.ext_getElem? fun q => ?_
  rw [List.getElem?_map]
  rcases Nat.lt_or_ge q m with hq | hq
  · obtain ⟨e, he⟩ : ∃ e, ((G k).log i)[q]? = some e :=
      ⟨_, List.getElem?_eq_getElem (by omega)⟩
    have hP : P (q + 1) e := ⟨k, i, by omega, he⟩
    have hex : ∃ e, P (1 + 1 * q) e := ⟨e, by rwa [Nat.one_mul, Nat.add_comm]⟩
    rw [List.getElem?_take_of_lt hq, he, List.getElem?_range' hq, Option.map_some, dif_pos hex]
    have hchoose := hex.choose_spec
    generalize hex.choose = x at hchoose
    rw [Nat.one_mul, Nat.add_comm] at hchoose
    rw [huniq (Nat.succ_pos q) hP hchoose]
  · rw [List.getElem?_eq_none (by rw [List.length_take]; omega),
      List.getElem?_eq_none (by rw [List.length_range']; omega)]
    rfl

end Setup

lemma Indexed.map_index {l : List Entry} (h : Indexed l) :
    l.map Entry.index = List.range' 1 l.length := by
  refine List.ext_getElem? fun k => ?_
  rw [List.getElem?_map]
  cases he : l[k]? with
  | none =>
    rw [List.getElem?_eq_none_iff.mpr]
    · rfl
    · rw [List.length_range']
      exact List.getElem?_eq_none_iff.mp he
  | some e =>
    rw [List.getElem?_range' (List.getElem?_eq_some_iff.mp he).1, Option.map_some, h k e he]
    congr 1
    omega

namespace Setup

variable {S : Setup σ}

/-- **State machine safety.** Without compaction, at all times and on all replicas:

* what two replicas have applied at an index is the same entry;
* a replica applies the entries from index one on, in order and once;
* nothing is applied that is not committed, and nothing is committed that is not in the log;
* an entry that is committed stays in the log. -/
theorem state_machine_safety (hcfg : S.Uncompacting) {as : List Action}
    (has : ∀ i, .compact i ∉ as) (k m : ℕ) (i j : ReplicaId) :
    (∀ (idx : ℕ) (e e' : Entry), ((S.run (as.take k)).nodes i).history[idx]? = some e →
      ((S.run (as.take m)).nodes j).history[idx]? = some e' → e = e') ∧
    (((S.run (as.take k)).nodes i).history.map Entry.index =
      List.range' 1 ((S.run (as.take k)).nodes i).lastApplied) ∧
    (((S.run (as.take k)).nodes i).lastApplied ≤ ((S.run (as.take k)).nodes i).commitIndex ∧
      ((S.run (as.take k)).nodes i).commitIndex ≤ ((S.run (as.take k)).nodes i).lastLogIndex) ∧
    (k ≤ m → ∀ idx, idx ≤ ((S.run (as.take k)).nodes i).commitIndex →
      ((S.run (as.take m)).nodes i).entryAt idx = ((S.run (as.take k)).nodes i).entryAt idx) := by
  obtain ⟨G, hmono, hG⟩ := uncompacted_run hcfg has
  have hnode := fun k => (hG k).2
  have hbase : ∀ k i, ((S.run (as.take k)).nodes i).view.store.baseIndex = 0 := fun k i =>
    ((hnode k i).log).unsaved ((hnode k i).log.uncompacted nofun)
  have hhist : ∀ k i, ((S.run (as.take k)).nodes i).history =
      ((G k).log i).take ((S.run (as.take k)).nodes i).lastApplied := fun k i =>
    (hnode k i).log.history (hbase k i)
  have hlen : ∀ k i, ((S.run (as.take k)).nodes i).commitIndex ≤ ((G k).log i).length :=
    fun k i => (hnode k i).step.settled.1
  have happ : ∀ k i, ((S.run (as.take k)).nodes i).lastApplied ≤
    ((S.run (as.take k)).nodes i).commitIndex := fun k i => (hnode k i).log.applied_le
  refine ⟨?_, ?_, ⟨happ k i, ?_⟩, ?_⟩
  · intro idx e e' he he'
    rw [hhist] at he he'
    have hlt := (List.getElem?_eq_some_iff.mp he).1
    have hlt' := (List.getElem?_eq_some_iff.mp he').1
    rw [List.length_take] at hlt hlt'
    have hk := happ k i
    have hm := happ m j
    have hagree := (hnode k i).agree (hnode m j) (hG (max k m)).1 (hmono k _ (le_max_left k m))
      (hmono m _ (le_max_right k m))
      (show idx + 1 ≤ ((S.run (as.take k)).nodes i).commitIndex by omega)
      (show idx + 1 ≤ ((S.run (as.take m)).nodes j).commitIndex by omega)
    rw [List.getElem?_take_of_lt (by omega), getElem?_eq_of_take_eq hagree (Nat.lt_succ_self idx)]
      at he
    rw [List.getElem?_take_of_lt (by omega), he, Option.some.injEq] at he'
    exact he'
  · rw [hhist, ((hnode k i).log.store.indexed.take _).map_index,
      List.length_take_of_le ((happ k i).trans (hlen k i))]
  · have hlast : ((S.run (as.take k)).nodes i).lastLogIndex = ((G k).log i).length :=
      (hnode k i).log.store.lastIndex
    rw [hlast]
    exact hlen k i
  · intro hkm idx hidx
    have hmore : ((S.run (as.take k)).nodes i).commitIndex ≤
        ((S.run (as.take m)).nodes i).commitIndex := by
      have := (hmono k m hkm).2 i
      rwa [← (hnode k i).commit, ← (hnode m i).commit] at this
    have hentry : ∀ k, 0 < idx → ((S.run (as.take k)).nodes i).entryAt idx =
        ((G k).log i)[idx - 1]? := by
      intro k hpos
      have hb := hbase k i
      unfold Node.entryAt
      rw [if_neg (by have : ((S.run (as.take k)).nodes i).store.baseIndex = 0 := hb; omega)]
      exact (hnode k i).log.store.entry (by omega)
    rcases Nat.eq_zero_or_pos idx with rfl | hpos
    · rfl
    · rw [hentry m hpos, hentry k hpos]
      have hagree := (hnode m i).agree (hnode k i) (hG m).1 le_rfl (hmono k m hkm)
        (hidx.trans hmore) hidx
      exact getElem?_eq_of_take_eq hagree (by omega)

/-- Replica 0 commits and applies a command, and is restarted. -/
def applyOnce : List Action :=
  [.tick 0, .deliver 0, .deliver 2, .deliver 3, .deliver 5, .propose 0 [1], .deliver 6, .deliver 8,
    .restart 0]

/-- State machine safety: the second entry of replica 0 stays through the restart. -/
theorem state_machine_safety_applyOnce :
    (((ofSize 3).run (applyOnce.take 8)).nodes 0).commitIndex = 2 ∧
    (((ofSize 3).run (applyOnce.take 9)).nodes 0).entryAt 2 =
      (((ofSize 3).run (applyOnce.take 8)).nodes 0).entryAt 2 := by
  have h : (((ofSize 3).run (applyOnce.take 8)).nodes 0).commitIndex = 2 := by decide +kernel
  refine ⟨h, ?_⟩
  exact (@state_machine_safety _ (ofSize 3) (fun _ => rfl) applyOnce
    (fun i => by simp [applyOnce]) 8 9 0 0).2.2.2 (by decide) 2 (by rw [h])

/-! ## Leaders and votes -/

/-- Replica `i` after the first `k` actions. -/
abbrev after (S : Setup σ) (as : List Action) (k : ℕ) (i : ReplicaId) : Node σ :=
  (S.run (as.take k)).nodes i

/-- Without compaction a replica has the entries of its record. -/
lemma entryAt_eq {g : Record} {i : ReplicaId} {n : Node σ} (h : NodeOk S plainRules g i n.view)
    (idx : ℕ) : n.entryAt idx = if idx = 0 then none else (g.log i)[idx - 1]? := by
  have hbase : n.view.store.baseIndex = 0 := h.log.unsaved (h.log.uncompacted nofun)
  unfold Node.entryAt
  split_ifs with hle hzero hzero
  · rfl
  · exact absurd (hle.trans hbase.le) (by omega)
  · exact absurd hzero.le (by omega)
  · exact h.log.store.entry (by omega)

section Elected

variable (hcfg : S.Uncompacting) {as : List Action} (has : ∀ i, .compact i ∉ as) {k m : ℕ}
  {i j c : ReplicaId} {idx : ℕ} {e : Entry}

include hcfg has

/-- **Leader completeness.** What a replica has committed is in the log of every leader of a later
term, while memberships change too. -/
theorem leader_completeness (hj : (S.after as m j).role = .leader)
    (hterm : (S.after as k i).currentTerm < (S.after as m j).currentTerm)
    (hidx : idx ≤ (S.after as k i).commitIndex) :
    (S.after as m j).entryAt idx = (S.after as k i).entryAt idx := by
  obtain ⟨G, hmono, hG⟩ := uncompacted_run hcfg has
  have hl := ((hG m).2 j).leader hj
  have hle := (hmono m _ (le_max_right k m)).1
  obtain ⟨hlen, hcommit⟩ := ((hG k).2 i).step.settled.mono (hmono k _ (le_max_left k m)).1 le_rfl
  -- the leader was elected with what is committed, and only appended since
  have hpre : ((G k).log i).take (S.after as k i).view.commitIndex <+: (G m).log j := by
    obtain ⟨l, hcamp, hlog, -⟩ := (hG m).1.sound.elected hl.leader
    obtain hzero | ⟨t, n, _, ht, hcom, hn, hcpre⟩ := hcommit
    · rw [hzero]
      exact List.nil_prefix
    · rw [← take_eq_of_take hcpre hlen, ← hl.llog]
      exact (take_prefix_of_le hn ((hG _).1.sound.complete_campaign _ _ l (hle.leader hl.leader)
        (hle.campaign hcamp) t n _ (ht.trans_lt hterm) hcom)).trans hlog
  rw [entryAt_eq ((hG m).2 j), entryAt_eq ((hG k).2 i)]
  split_ifs
  · rfl
  · exact getElem?_eq_of_take_eq (take_eq_of_take hpre hlen)
      (show idx - 1 < (S.after as k i).commitIndex by omega)

/-- **A leader only appends**: while it leads in a term, its entries stay. -/
theorem leader_append_only (hkm : k ≤ m) (hi : (S.after as k i).role = .leader)
    (hi' : (S.after as m i).role = .leader)
    (hterm : (S.after as k i).currentTerm = (S.after as m i).currentTerm)
    (he : (S.after as k i).entryAt idx = some e) : (S.after as m i).entryAt idx = some e := by
  obtain ⟨G, hmono, hG⟩ := uncompacted_run hcfg has
  have hpre : (G k).log i <+: (G m).log i := by
    rw [← (((hG k).2 i).leader hi).llog, ← (((hG m).2 i).leader hi').llog,
      show (S.after as m i).view.term = _ from hterm.symm]
    exact (hmono k m hkm).1.llog _
  rw [entryAt_eq ((hG k).2 i)] at he
  rw [entryAt_eq ((hG m).2 i)]
  split_ifs at he ⊢
  obtain ⟨l, hl⟩ := hpre
  rw [← hl, List.getElem?_append_left (List.getElem?_eq_some_iff.mp he).1, he]

/-- **A vote is cast once**: a replica stays with its vote as long as its term lasts, crashes and
restarts included. -/
theorem vote_stays (hkm : k ≤ m)
    (hterm : (S.after as k i).currentTerm = (S.after as m i).currentTerm)
    (hc : (S.after as k i).votedFor = some c) : (S.after as m i).votedFor = some c := by
  obtain ⟨G, hmono, hG⟩ := uncompacted_run hcfg has
  obtain ⟨b, hb, rfl⟩ := Option.map_eq_some_iff.mp (((hG k).2 i).vote.trans hc)
  refine ((hG m).2 i).vote.symm.trans (Option.map_eq_some_iff.mpr ⟨b, ?_, rfl⟩)
  rw [show (S.after as m i).view.term = _ from hterm.symm]
  exact (hmono k m hkm).1.ballot hb

end Elected

/-- Replica 0 is elected and commits its first entry, then replica 1 is elected. -/
def handOver : List Action :=
  [.tick 0, .deliver 0, .deliver 2, .deliver 3, .deliver 5, .tick 1, .deliver 7, .deliver 8]

/-- Replica 1 leads with what replica 0 has committed. -/
theorem leader_completeness_handOver :
    ((ofSize 3).after handOver 8 1).entryAt 1 = ((ofSize 3).after handOver 5 0).entryAt 1 :=
  leader_completeness (fun _ => rfl) (by simp [handOver]) (by decide +kernel) (by decide +kernel)
    (by decide +kernel)

/-- Replica 0 still leads in its term, and has its first entry. -/
theorem leader_append_only_handOver :
    ((ofSize 3).after handOver 8 0).entryAt 1 = some ⟨1, 1, .noop⟩ :=
  leader_append_only (fun _ => rfl) (by simp [handOver]) (show 3 ≤ 8 by decide) (by decide +kernel)
    (by decide +kernel) (by decide +kernel) (by decide +kernel)

/-- Replica 2 stays with its vote for replica 1. -/
theorem vote_stays_handOver : ((ofSize 3).after handOver 8 2).votedFor = some 1 :=
  vote_stays (fun _ => rfl) (by simp [handOver]) (show 7 ≤ 8 by decide) (by decide +kernel)
    (by decide +kernel)

end Setup

end CrabScheme.Raft
