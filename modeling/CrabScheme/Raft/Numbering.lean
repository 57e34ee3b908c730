import CrabScheme.Raft.Runs

/-!
# What every replica keeps by itself

Some facts about a replica need no argument about the other replicas: its live entries are numbered
in order, the entries it sends are, its effective membership is the one its store gives, and what
its snapshot covers is applied. They hold in every run, whatever snapshots and messages it has.

## Main results

* `MemLogStore.Numbered.splices` — entries of a leader keep a log numbered.
* `MemLogStore.Numbered.effective_saveSnapshot` — a snapshot of the store keeps the
  membership in effect.
* `Setup.kept_run` — the facts hold in every run.
-/

namespace CrabScheme.Raft

variable {σ : Type}

/-! ## The last membership of a list of entries -/

/-- **The last entry that sets a membership.** -/
def lastConfig (l : List Entry) : Option Entry :=
  l.reverse.find? fun e => e.payload.config?.isSome

@[simp] lemma lastConfig_append (l1 l2 : List Entry) :
    lastConfig (l1 ++ l2) = (lastConfig l2).or (lastConfig l1) := by
  unfold lastConfig
  rw [List.reverse_append, List.find?_append]

lemma lastConfig_singleton (e : Entry) :
    lastConfig [e] = if e.payload.config?.isSome then some e else none := by
  simp [lastConfig]

variable {e : Entry}

lemma lastConfig_eq_some {l : List Entry} (h : lastConfig l = some e) :
    e ∈ l ∧ ∃ c, e.payload.config? = some c :=
  ⟨List.mem_reverse.mp (List.mem_of_find?_eq_some h),
    Option.isSome_iff_exists.mp (List.find?_some h :)⟩

private lemma findSome?_config (l : List Entry) :
    l.findSome? (fun e => e.payload.config?) =
      (l.find? fun e => e.payload.config?.isSome).bind fun e => e.payload.config? := by
  induction l with
  | nil => rfl
  | cons e l ih =>
    rw [List.findSome?_cons, List.find?_cons]
    cases hc : e.payload.config? with
    | none => exact ih
    | some c => exact hc.symm

namespace MemLogStore.Numbered

variable {s : MemLogStore}

/-! ## Entries and terms -/

lemma entries_eq (h : s.Numbered) {lo : ℕ} (hlo : s.baseIndex < lo) :
    s.entries lo s.lastIndex = s.log.drop (lo - s.baseIndex - 1) := by
  have hgt : s.entries lo s.lastIndex = s.log.filter fun e => decide (lo - 1 < e.index) := by
    refine List.filter_congr fun e he => ?_
    have hb := h.bounds he
    rw [decide_eq_true hb.1, decide_eq_true hb.2, Bool.and_true, Bool.and_true]
    exact decide_eq_decide.mpr (by omega)
  rw [hgt, filter_gt_of_numbered h (show s.baseIndex ≤ lo - 1 by omega)]
  congr 1
  omega

lemma liveEntries_eq (h : s.Numbered) : s.liveEntries = s.log := by
  rw [MemLogStore.liveEntries, h.entries_eq (Nat.lt_succ_self _),
    show s.baseIndex + 1 - s.baseIndex - 1 = 0 by omega, List.drop_zero]

lemma base_le (h : s.Numbered) : s.baseIndex ≤ s.lastIndex := by
  rw [h.lastIndex_eq]
  exact Nat.le_add_right _ _

variable {i m : ℕ}

lemma termAt_of_lt (hi : s.baseIndex < i) : s.termAt i = (s.entry i).map Entry.term := by
  unfold MemLogStore.termAt
  rw [if_neg (by omega), if_neg (by omega), if_neg (by omega)]
  rfl

variable (h : s.Numbered)

include h

lemma le_of_termAt {t : ℕ} (ht : s.termAt i = some t) : i ≤ s.lastIndex := by
  rcases Nat.lt_or_ge s.baseIndex i with hi | hi
  · rw [termAt_of_lt hi] at ht
    obtain ⟨e, he, -⟩ := Option.map_eq_some_iff.mp ht
    obtain ⟨hmem, rfl⟩ := h.entry_eq_some_iff.mp he
    exact (h.bounds hmem).2
  · exact hi.trans h.base_le

lemma exists_entry (hi : s.baseIndex < i) (hlast : i ≤ s.lastIndex) : ∃ e, s.entry i = some e := by
  rw [h.lastIndex_eq] at hlast
  unfold MemLogStore.entry
  rw [if_neg (by omega)]
  exact ⟨_, List.getElem?_eq_getElem (show i - s.baseIndex - 1 < s.log.length by omega)⟩

lemma termAt_append (e : Entry) (hi : i ≤ s.lastIndex) : (s.append [e]).termAt i = s.termAt i := by
  rcases Nat.lt_or_ge s.baseIndex i with hlt | hge
  · rw [termAt_of_lt (s := s.append [e]) hlt, termAt_of_lt hlt]
    unfold MemLogStore.entry
    rw [append_baseIndex, if_neg (by omega), if_neg (by omega)]
    rw [h.lastIndex_eq] at hi
    exact congrArg _ (List.getElem?_append_left (by omega))
  · unfold MemLogStore.termAt
    rw [append_baseIndex]
    split_ifs
    · rfl
    · rfl
    · rfl
    · omega

/-! ## Entries of a leader -/

omit h in
lemma lastIndex_append (e : Entry) : (s.append [e]).lastIndex = e.index := by
  simp [MemLogStore.lastIndex, MemLogStore.append]

lemma lastIndex_truncateSuffix (hi : s.baseIndex < i) (hlast : i ≤ s.lastIndex)
    : (s.truncateSuffix i).lastIndex = i - 1 := by
  rw [(h.truncateSuffix i).lastIndex_eq, MemLogStore.truncateSuffix, if_neg (by omega)]
  rw [h.lastIndex_eq] at hlast
  show s.baseIndex + (s.log.take _).length = _
  rw [List.length_take]
  omega

/-- **One entry of a leader** keeps the log numbered, and is in the log afterwards. -/
lemma splice (he : e.index ≤ s.lastIndex + 1) :
    (s.splice e).Numbered ∧ e.index ≤ (s.splice e).lastIndex := by
  have hone : ∀ {s' : MemLogStore}, e.index = s'.lastIndex + 1 → ∀ q x, [e][q]? = some x →
      x.index = s'.lastIndex + q + 1 := by
    intro s' hs' q x hx
    obtain ⟨rfl, rfl⟩ : q = 0 ∧ x = e := by
      rcases q with _ | q
      · exact ⟨rfl, (Option.some.inj hx).symm⟩
      · simp at hx
    exact hs'
  unfold MemLogStore.splice
  split_ifs with hb
  · exact ⟨h, hb.trans h.base_le⟩
  · cases ht : s.termAt e.index with
    | none =>
      have hend : e.index = s.lastIndex + 1 := by
        by_contra hne
        obtain ⟨x, hx⟩ := h.exists_entry (i := e.index) (by omega) (by omega)
        rw [termAt_of_lt (by omega), hx] at ht
        cases ht
      exact ⟨h.append (hone hend), (lastIndex_append e).ge⟩
    | some t =>
      have hle := h.le_of_termAt ht
      dsimp only
      split_ifs
      · exact ⟨h, hle⟩
      · have hcut := h.lastIndex_truncateSuffix (by omega) hle
        exact ⟨(h.truncateSuffix _).append (hone (by omega)), (lastIndex_append e).ge⟩

/-- **The entries of a leader** keep the log numbered, when the entry before them is known. -/
lemma splices {es : List Entry} {prev : ℕ} (hprev : prev ≤ s.lastIndex)
    (hes : ∀ q e, es[q]? = some e → e.index = prev + q + 1) :
    (es.foldl MemLogStore.splice s).Numbered ∧
      prev + es.length ≤ (es.foldl MemLogStore.splice s).lastIndex := by
  induction es generalizing s prev with
  | nil => exact ⟨h, hprev⟩
  | cons e es ih =>
    have he : e.index = prev + 1 := hes 0 e rfl
    obtain ⟨hnum, hlast⟩ := h.splice (e := e) (by omega)
    have hrest := ih hnum (he ▸ hlast) fun q x hx => by
      have := hes (q + 1) x hx
      omega
    rw [List.foldl_cons, List.length_cons]
    exact ⟨hrest.1, by omega⟩

omit h in
lemma termAt_eq_of_take {s' : MemLogStore} (hbase : s'.baseIndex = s.baseIndex)
    (htake : s'.log.take m = s.log.take m) (hi : s.baseIndex < i) (hm : i ≤ s.baseIndex + m)
    : s'.termAt i = s.termAt i := by
  have hget : s'.log[i - s.baseIndex - 1]? = s.log[i - s.baseIndex - 1]? := by
    rw [← List.getElem?_take_of_lt (show i - s.baseIndex - 1 < m by omega), htake,
      List.getElem?_take_of_lt (by omega)]
  rw [termAt_of_lt (hbase ▸ hi), termAt_of_lt hi]
  unfold MemLogStore.entry
  rw [hbase, hget]

omit h in
lemma splice_take (hm : m ≤ s.log.length)
    (hok : s.baseIndex < e.index → e.index ≤ s.baseIndex + m → s.termAt e.index = some e.term) :
    (s.splice e).log.take m = s.log.take m ∧ m ≤ (s.splice e).log.length := by
  unfold MemLogStore.splice
  split_ifs with hb
  · exact ⟨rfl, hm⟩
  · cases ht : s.termAt e.index with
    | none =>
      show (s.log ++ [e]).take m = _ ∧ m ≤ (s.log ++ [e]).length
      rw [List.take_append_of_le_length hm, List.length_append]
      exact ⟨rfl, by omega⟩
    | some t =>
      dsimp only
      split_ifs with hterm
      · exact ⟨rfl, hm⟩
      · -- a conflict is past the entries that are kept
        have hpast : s.baseIndex + m < e.index := by
          by_contra hle
          rw [ht] at hok
          exact hterm (Option.some.inj (hok (by omega) (by omega)))
        unfold MemLogStore.truncateSuffix
        rw [if_neg hb]
        show (s.log.take _ ++ [e]).take m = _ ∧ m ≤ (s.log.take _ ++ [e]).length
        rw [List.take_append_of_le_length (by rw [List.length_take]; omega), List.take_take,
          List.length_append, List.length_take]
        exact ⟨by rw [Nat.min_eq_left (by omega)], by omega⟩

/-- **Entries of a leader that do not conflict with the first live entries keep them.** -/
lemma splices_take {es : List Entry} {prev : ℕ} (hprev : prev ≤ s.lastIndex)
    (hes : ∀ q e, es[q]? = some e → e.index = prev + q + 1) (hm : m ≤ s.log.length)
    (hok : ∀ e ∈ es, s.baseIndex < e.index → e.index ≤ s.baseIndex + m → s.termAt e.index = some e.term)
    : (es.foldl MemLogStore.splice s).log.take m = s.log.take m ∧
      m ≤ (es.foldl MemLogStore.splice s).log.length := by
  induction es generalizing s prev with
  | nil => exact ⟨rfl, hm⟩
  | cons e es ih =>
    have he : e.index = prev + 1 := hes 0 e rfl
    obtain ⟨hnum, hlast⟩ := h.splice (e := e) (by omega)
    obtain ⟨htake, hlen⟩ := splice_take hm (hok e List.mem_cons_self)
    have hbase : (s.splice e).baseIndex = s.baseIndex := splice_baseIndex s e
    have hrest := ih hnum (he ▸ hlast)
      (fun q x hx => by
        have := hes (q + 1) x hx
        omega) hlen
      (fun x hx hlt hle => by
        rw [hbase] at hlt hle
        rw [termAt_eq_of_take hbase htake hlt hle]
        exact hok x (List.mem_cons_of_mem e hx) hlt hle)
    rw [← htake]
    exact hrest

/-! ## Memberships -/

lemma effective_eq (base : ConfState) :
    s.effective base = ((lastConfig s.log).bind fun e => e.payload.config?).getD base := by
  rw [MemLogStore.effective, h.liveEntries_eq, findSome?_config]
  rfl

lemma lastConfigIndex_eq : s.lastConfigIndex = (lastConfig s.log).map Entry.index := by
  rw [MemLogStore.lastConfigIndex, h.liveEntries_eq]
  rfl

lemma configAt_eq (base : ConfState) (idx : ℕ) : s.configAt base idx =
      ((lastConfig (s.log.take (idx - s.baseIndex))).bind fun e => e.payload.config?).getD base := by
  have hfind : (s.log.reverse.find? fun e => decide (e.index ≤ idx) && e.payload.config?.isSome) =
      lastConfig (s.log.filter fun e => decide (e.index ≤ idx)) := by
    unfold lastConfig
    rw [← List.filter_reverse, List.find?_filter]
    simp only [Bool.decide_and, Bool.decide_eq_true]
  rw [MemLogStore.configAt, h.liveEntries_eq, hfind, filter_le_of_numbered h]

lemma effective_of_none (hnone : s.lastConfigIndex = none) (base : ConfState) :
    s.effective base = base := by
  rw [h.lastConfigIndex_eq, Option.map_eq_none_iff] at hnone
  rw [h.effective_eq, hnone]
  rfl

lemma effective_of_some {j : ℕ} (hj : s.lastConfigIndex = some j) :
    ∃ c, ∀ base, s.effective base = c := by
  rw [h.lastConfigIndex_eq] at hj
  obtain ⟨e, he, -⟩ := Option.map_eq_some_iff.mp hj
  obtain ⟨-, c, hc⟩ := lastConfig_eq_some he
  refine ⟨c, fun base => ?_⟩
  rw [h.effective_eq, he, Option.bind_some, hc]
  rfl

lemma concat (t : ℕ) (p : EntryPayload) : (s.append [⟨t, s.lastIndex + 1, p⟩]).Numbered := by
  refine h.append fun q x hx => ?_
  rcases q with _ | q
  · rw [← Option.some.inj hx]
  · simp at hx

lemma effective_append (t : ℕ) (p : EntryPayload) (base : ConfState) :
    (s.append [⟨t, s.lastIndex + 1, p⟩]).effective base = p.config?.getD (s.effective base) := by
  rw [(h.concat t p).effective_eq, h.effective_eq, MemLogStore.append, lastConfig_append,
    lastConfig_singleton]
  cases hp : p.config? <;> simp [hp]

lemma lastConfigIndex_append (t : ℕ) (p : EntryPayload) :
    (s.append [⟨t, s.lastIndex + 1, p⟩]).lastConfigIndex =
      if p.config?.isSome then some (s.lastIndex + 1) else s.lastConfigIndex := by
  rw [(h.concat t p).lastConfigIndex_eq, h.lastConfigIndex_eq, MemLogStore.append,
    lastConfig_append, lastConfig_singleton]
  split_ifs <;> rfl

/-- **A snapshot of the store keeps the membership in effect.** -/
lemma effective_saveSnapshot {m : SnapshotMeta} (hm : s.baseIndex ≤ m.lastIncludedIndex)
    (base : ConfState) :
    (s.saveSnapshot m).effective (s.configAt base m.lastIncludedIndex) = s.effective base := by
  rw [(h.saveSnapshot hm).effective_eq, h.saveSnapshot_log hm, h.configAt_eq, h.effective_eq]
  nth_rewrite 3 [← List.take_append_drop (m.lastIncludedIndex - s.baseIndex) s.log]
  rw [lastConfig_append]
  cases hlast : lastConfig (s.log.drop (m.lastIncludedIndex - s.baseIndex)) with
  | none => rfl
  | some e =>
    obtain ⟨-, c, hc⟩ := lastConfig_eq_some hlast
    simp [hc]

lemma lastConfigIndex_saveSnapshot {m : SnapshotMeta} (hm : s.baseIndex ≤ m.lastIncludedIndex)
    {j : ℕ} (hj : s.lastConfigIndex = some j) (hlt : m.lastIncludedIndex < j)
    : (s.saveSnapshot m).lastConfigIndex = some j := by
  rw [(h.saveSnapshot hm).lastConfigIndex_eq, h.saveSnapshot_log hm]
  rw [h.lastConfigIndex_eq] at hj
  obtain ⟨e, he, rfl⟩ := Option.map_eq_some_iff.mp hj
  rw [← List.take_append_drop (m.lastIncludedIndex - s.baseIndex) s.log, lastConfig_append] at he
  cases hlast : lastConfig (s.log.drop (m.lastIncludedIndex - s.baseIndex)) with
  | some x =>
    rw [hlast] at he
    rw [← Option.some.inj he]
    rfl
  | none =>
    -- an entry the snapshot covers has a smaller index
    rw [hlast] at he
    obtain ⟨q, hq⟩ := List.mem_iff_getElem?.mp (lastConfig_eq_some he).1
    rw [List.getElem?_take] at hq
    split_ifs at hq with hlen
    have := h q e hq
    omega

lemma install {m : SnapshotMeta} (hm : s.baseIndex ≤ m.lastIncludedIndex) :
    ((if s.termAt m.lastIncludedIndex ≠ some m.lastIncludedTerm then
      s.truncateSuffix (s.baseIndex + 1) else s).saveSnapshot m).Numbered := by
  split_ifs
  · refine (h.truncateSuffix _).saveSnapshot ?_
    rwa [truncateSuffix_baseIndex]
  · exact h.saveSnapshot hm

end MemLogStore.Numbered

/-! ## Every run -/

/-- The entries of a message are numbered after the entry before them. -/
def Message.Numbered : Message → Prop
  | .appendEntries _ _ prev _ es _ _ => ∀ q e, es[q]? = some e → e.index = prev + q + 1
  | _ => True

/-- **What a replica keeps by itself.** -/
structure View.Kept (v : View σ) : Prop where
  numbered : v.store.Numbered
  config : v.config = v.store.effective v.baseConfig
  base_le : v.store.baseIndex ≤ v.lastApplied

namespace View.Kept

variable {v : View σ}

lemma append (h : v.Kept) (p : EntryPayload) : (v.append p).Kept := by
  refine ⟨h.numbered.concat _ _, ?_, h.base_le⟩
  show (if _ then _ else v.config) = _
  split_ifs with hp
  · rfl
  · have heff := h.numbered.effective_append v.term p v.baseConfig
    rw [Option.not_isSome_iff_eq_none.mp hp] at heff
    exact h.config.trans heff.symm

lemma appendFor (h : v.Kept) (p : ReplicaId) : (v.appendFor p).Numbered := by
  unfold View.appendFor
  dsimp only
  split_ifs with hnext
  · trivial
  · intro q e hq
    rw [h.numbered.entries_eq (by omega), List.getElem?_drop] at hq
    have := h.numbered _ e hq
    omega

/-- **One move** keeps a replica in order, and sends numbered entries only. -/
lemma move {M : StateMachine σ} {R : Rules} {inbox : ReplicaId → Message → Prop} {v' : View σ}
    {o : List Out} (h : v.Kept) (hin : ∀ s m, inbox s m → m.Numbered)
    (hm : Move M R inbox v v' o) : v'.Kept ∧ ∀ x ∈ o, x.2.Numbered := by
  cases hm with
  | append => exact ⟨h.append _, nofun⟩
  | begin => exact ⟨h.append _, nofun⟩
  | finalize => exact ⟨h.append _, nofun⟩
  | send ps =>
    refine ⟨h, fun x hx => ?_⟩
    obtain ⟨p, -, rfl⟩ := List.mem_map.mp hx
    exact h.appendFor p
  | solicit ps =>
    refine ⟨h, fun x hx => ?_⟩
    obtain ⟨p, -, rfl⟩ := List.mem_map.mp hx
    trivial
  | apply =>
    refine ⟨?_, nofun⟩
    unfold View.applyNext
    split <;> exact ⟨h.numbered, h.config, h.base_le.trans (Nat.le_succ _)⟩
  | compact _ hlt _ => exact ⟨⟨h.numbered.saveSnapshot hlt.le, rfl, le_rfl⟩, nofun⟩
  | accept _ hmsg hprev =>
    have hnum := (h.numbered.splices (h.numbered.le_of_termAt hprev) (hin _ _ hmsg)).1
    refine ⟨⟨hnum, rfl, ?_⟩, by simp [Message.Numbered]⟩
    exact (MemLogStore.splices_baseIndex _ _).trans_le h.base_le
  | install _ _ hlt =>
    exact ⟨⟨h.numbered.install hlt.le, rfl, le_max_right _ _⟩, by simp [Message.Numbered]⟩
  | _ => exact ⟨⟨h.numbered, h.config, h.base_le⟩, by simp [Message.Numbered]⟩

end View.Kept

/-- **In every run** every replica is in order, and so is every message. -/
theorem Setup.kept_run (S : Setup σ) (as : List Action) :
    (∀ i, ((S.run as).nodes i).view.Kept) ∧ ∀ p ∈ (S.run as).sent, p.msg.Numbered :=
  S.every_run (fun _ => ⟨nofun, rfl, le_rfl⟩) (fun h hin hm => h.move hin hm)
    (fun _ h => ⟨h.numbered, rfl, le_rfl⟩) as

end CrabScheme.Raft
