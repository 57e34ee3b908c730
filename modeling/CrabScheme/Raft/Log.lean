import CrabScheme.Lib.Replica
import CrabScheme.Raft.Election

/-!
# The log behind a store

A store that has taken snapshots keeps the end of a log. This file relates it to the whole log,
as it would be had no entry been folded away, and says what each operation of the store does to
that log.

## Main results

* `MemLogStore.Represents.splices` — the entries of a leader are taken over.
* `MemLogStore.Represents.effective`,
  `MemLogStore.Represents.configAt` — the memberships a store finds.
-/

namespace Replication.Scheme

variable {ι ε : Type*} (P : Scheme ι ε)

lemma conf_append (l1 l2 : List ε) :
    P.conf (l1 ++ l2) = (l2.filterMap P.change).getLast?.getD (P.conf l1) := by
  unfold conf
  rw [List.filterMap_append, List.getLast?_append]
  cases (l2.filterMap P.change).getLast? <;> simp

lemma lastTerm_concat (l : List ε) (e : ε) : P.lastTerm (l ++ [e]) = P.term e := by
  simp [lastTerm]

end Replication.Scheme

namespace CrabScheme.Raft

open Replication

/-- **Entries as replication sees them.** -/
def scheme (voters : List ReplicaId) : Scheme ReplicaId Entry where
  term := Entry.term
  change e := e.payload.config?.map ConfState.membership
  base := voters

/-- Entries are numbered from one. -/
def Indexed (l : List Entry) : Prop := ∀ i e, l[i]? = some e → e.index = i + 1

variable {e : Entry} {m : ℕ}

namespace Indexed

variable {l : List Entry} {n : ℕ}

lemma concat (h : Indexed l) (he : e.index = l.length + 1) : Indexed (l ++ [e]) := by
  intro i x hx
  rcases Nat.lt_trichotomy i l.length with hi | hi | hi
  · exact h i x (by rwa [List.getElem?_append_left hi] at hx)
  · rw [hi, List.getElem?_concat_length, Option.some.injEq] at hx
    rw [← hx, he, hi]
  · rw [List.getElem?_eq_none (by simp; omega)] at hx
    cases hx

lemma take (h : Indexed l) (n : ℕ) : Indexed (l.take n) := fun i e he => by
  refine h i e ?_
  obtain ⟨hi, -⟩ := List.getElem?_eq_some_iff.mp he
  rw [List.length_take] at hi
  rwa [List.getElem?_take_of_lt (by omega)] at he

lemma filter_gt (h : Indexed l) {b : ℕ} (hb : b ≤ m) :
    (l.drop b).filter (fun e => decide (m < e.index)) = l.drop m := by
  rw [filter_gt_of_numbered (fun i e he => ?_) hb, List.drop_drop, Nat.add_sub_cancel' hb]
  rw [List.getElem?_drop] at he
  exact h _ e he

lemma filter_le (h : Indexed l) {b : ℕ} (hb : b ≤ m) :
    (l.drop b).filter (fun e => decide (e.index ≤ m)) = (l.take m).drop b := by
  rw [filter_le_of_numbered fun i e he => ?_, List.drop_take]
  rw [List.getElem?_drop] at he
  exact h _ e he

end Indexed

namespace MemLogStore

/-- **The store keeps the end of a log.** -/
structure Represents (s : MemLogStore) (l : List Entry) : Prop where
  indexed : Indexed l
  base_le : s.baseIndex ≤ l.length
  log : s.log = l.drop s.baseIndex
  baseTerm : s.baseTerm = (scheme []).lastTerm (l.take s.baseIndex)

namespace Represents

variable {s : MemLogStore} {l : List Entry} (h : s.Represents l)

include h

lemma getLast?_log (hlt : s.baseIndex < l.length) : s.log.getLast? = l.getLast? := by
  rw [h.log, List.getLast?_drop, if_neg (by omega)]

lemma lastIndex : s.lastIndex = l.length := by
  unfold MemLogStore.lastIndex
  rcases h.base_le.lt_or_eq with hlt | heq
  · have hlast : l.getLast? = l[l.length - 1]? := List.getLast?_eq_getElem?
    have hget : l[l.length - 1]? = some l[l.length - 1] := List.getElem?_eq_getElem (by omega)
    rw [h.getLast?_log hlt, hlast, hget, Option.map_some, Option.getD_some, h.indexed _ _ hget]
    omega
  · rw [h.log, heq, List.drop_length]
    rfl

lemma lastTerm (vs : List ReplicaId) : s.lastTerm = (scheme vs).lastTerm l := by
  unfold MemLogStore.lastTerm
  rcases h.base_le.lt_or_eq with hlt | heq
  · rw [h.getLast?_log hlt]
    cases hl : l.getLast? with
    | none =>
      rw [List.getLast?_eq_none_iff.mp hl] at hlt
      cases hlt
    | some e => simp [Scheme.lastTerm, scheme, hl]
  · rw [h.baseTerm, h.log, heq, List.drop_length, List.take_length]
    rfl

variable {idx : ℕ} {vs : List ReplicaId} {base : ConfState}

lemma entry (hidx : s.baseIndex < idx) : s.entry idx = l[idx - 1]? := by
  unfold MemLogStore.entry
  rw [if_neg (by omega), h.log, List.getElem?_drop]
  congr 1
  omega

lemma termAt_of_le (vs : List ReplicaId) (hidx : s.baseIndex ≤ idx) (hlen : idx ≤ l.length)
    : s.termAt idx = some ((scheme vs).lastTerm (l.take idx)) := by
  unfold MemLogStore.termAt
  split
  · rename_i h0
    rw [h0]
    rfl
  · split
    · rename_i hb
      rw [hb, h.baseTerm]
      rfl
    · rw [if_neg (by omega), entryTerm, h.entry (by omega)]
      have hget : l[idx - 1]? = some l[idx - 1] := List.getElem?_eq_getElem (by omega)
      have htake := Scheme.take_concat hget
      rw [show idx - 1 + 1 = idx by omega] at htake
      rw [hget, htake, Scheme.lastTerm_concat]
      rfl

lemma termAt_eq_none (hidx : l.length < idx) : s.termAt idx = none := by
  have hbase := h.base_le
  unfold MemLogStore.termAt
  rw [if_neg (by omega), if_neg (by omega), if_neg (by omega), entryTerm, h.entry (by omega),
    List.getElem?_eq_none (by omega)]
  rfl

lemma of_termAt (vs : List ReplicaId) {t : ℕ} (ht : s.termAt idx = some t) :
    idx ≤ l.length ∧ (idx = 0 ∨ s.baseIndex ≤ idx) ∧ (scheme vs).lastTerm (l.take idx) = t := by
  rcases Nat.lt_or_ge l.length idx with hlen | hlen
  · rw [h.termAt_eq_none hlen] at ht
    cases ht
  · refine ⟨hlen, ?_⟩
    rcases Nat.lt_or_ge idx s.baseIndex with hb | hb
    · have h0 : idx = 0 := by
        by_contra hne
        unfold MemLogStore.termAt at ht
        rw [if_neg hne, if_neg (by omega), if_pos hb] at ht
        cases ht
      refine ⟨.inl h0, ?_⟩
      rw [h0] at ht ⊢
      exact Option.some.inj ht
    · rw [h.termAt_of_le vs hb hlen] at ht
      exact ⟨.inr hb, Option.some.inj ht⟩

lemma entries {lo : ℕ} (hlo : s.baseIndex < lo) : s.entries lo s.lastIndex = l.drop (lo - 1) := by
  unfold MemLogStore.entries
  rw [h.lastIndex, ← h.indexed.filter_gt (show s.baseIndex ≤ lo - 1 by omega), h.log]
  refine List.filter_congr fun e he => ?_
  obtain ⟨i, hi⟩ := List.getElem?_of_mem he
  rw [List.getElem?_drop] at hi
  have hidx := h.indexed _ e hi
  have hlen := (List.getElem?_eq_some_iff.mp hi).1
  rw [← Bool.decide_and, ← Bool.decide_and, decide_eq_decide]
  omega

lemma liveEntries : s.liveEntries = s.log := by
  unfold MemLogStore.liveEntries
  rw [h.entries (Nat.lt_succ_self _), h.log, Nat.succ_sub_one]

/-! ### Memberships -/

section

variable (hbase : base.membership = (scheme vs).conf (l.take s.baseIndex))

include hbase

omit h in
lemma membership_of_live (hm : s.baseIndex ≤ m) :
    ((((l.take m).drop s.baseIndex).reverse.findSome? fun e => e.payload.config?).getD
      base).membership = (scheme vs).conf (l.take m) := by
  have htake : (l.take m).take s.baseIndex = l.take s.baseIndex := by
    rw [List.take_take, Nat.min_eq_left hm]
  set live := (l.take m).drop s.baseIndex with hlive
  have hfind : live.reverse.findSome? (fun e => e.payload.config?) =
      (live.filterMap fun e => e.payload.config?).getLast? := by
    rw [← List.head?_filterMap, List.filterMap_reverse, List.head?_reverse]
  have hchange : live.filterMap (scheme vs).change =
      (live.filterMap fun e => e.payload.config?).map ConfState.membership := by
    rw [List.map_filterMap]
    rfl
  rw [← List.take_append_drop s.baseIndex (l.take m), htake, Scheme.conf_append, hchange,
    List.getLast?_map, hfind, ← hbase]
  cases (live.filterMap fun e => e.payload.config?).getLast? <;> rfl

/-- **The membership in effect** is the last one of the log. -/
lemma effective : (s.effective base).membership = (scheme vs).conf l := by
  have hlive := membership_of_live hbase h.base_le
  rw [List.take_length] at hlive
  unfold MemLogStore.effective
  rw [h.liveEntries, h.log, hlive]

/-- **The membership at an index** is the last one of the log up to it. -/
lemma configAt (hm : s.baseIndex ≤ m)
    : (s.configAt base m).membership = (scheme vs).conf (l.take m) := by
  have hfind : ∀ r : List Entry, (r.find? fun e => decide (e.index ≤ m) && e.payload.config?.isSome).bind
      (fun e => e.payload.config?) =
        (r.filter fun e => decide (e.index ≤ m)).findSome? fun e => e.payload.config? := by
    intro r
    induction r with
    | nil => rfl
    | cons e r ih =>
      by_cases hle : e.index ≤ m
      · cases hc : e.payload.config? with
        | none => simp [hle, hc, ih]
        | some c => simp [hle, hc]
      · simp [hle, ih]
  unfold MemLogStore.configAt
  rw [hfind, h.liveEntries, List.filter_reverse, h.log, h.indexed.filter_le hm,
    membership_of_live hbase hm]

end

lemma le_lastConfigIndex (hidx : s.lastConfigIndex = some idx) {p : ℕ} (hp : s.baseIndex ≤ p)
    (he : l[p]? = some e) (hc : e.payload.config? ≠ none) : p + 1 ≤ idx := by
  unfold MemLogStore.lastConfigIndex at hidx
  rw [h.liveEntries] at hidx
  obtain ⟨e0, hfind, hidx0⟩ := Option.map_eq_some_iff.mp hidx
  obtain ⟨-, as, bs, hrev, hnone⟩ := List.find?_eq_some_iff_append.mp hfind
  have hlog : l.drop s.baseIndex = bs.reverse ++ e0 :: as.reverse := by
    rw [← h.log, ← List.reverse_reverse s.log, hrev]
    simp
  -- the entry that is found is at the end of the first part
  have hget : (l.drop s.baseIndex)[bs.length]? = some e0 := by
    rw [hlog]
    simp
  rw [List.getElem?_drop] at hget
  have hpos := h.indexed _ _ hget
  by_contra hlt
  -- an entry after it sets no membership
  have hafter : (l.drop s.baseIndex)[p - s.baseIndex]? = some e := by
    rw [List.getElem?_drop, Nat.add_sub_cancel' hp, he]
  rw [hlog, List.getElem?_append_right (by simp; omega), List.length_reverse,
    show p - s.baseIndex - bs.length = p - s.baseIndex - bs.length - 1 + 1 by omega] at hafter
  have hmem := List.mem_reverse.mp (List.mem_of_getElem? hafter)
  have := hnone e hmem
  cases hce : e.payload.config? with
  | none => exact hc hce
  | some c => simp [hce] at this

/-! ### Operations -/

omit h in
lemma new : MemLogStore.new.Represents [] := ⟨nofun, le_rfl, rfl, rfl⟩

lemma append (he : e.index = l.length + 1) : (s.append [e]).Represents (l ++ [e]) where
  indexed := h.indexed.concat he
  base_le := h.base_le.trans (by simp)
  log := by
    rw [append_baseIndex, List.drop_append_of_le_length h.base_le, ← h.log]
    rfl
  baseTerm := by
    rw [append_baseIndex, List.take_append_of_le_length h.base_le]
    exact h.baseTerm

lemma truncateSuffix (hidx : s.baseIndex < idx) :
    (s.truncateSuffix idx).Represents (l.take (idx - 1)) := by
  have hlog : (s.truncateSuffix idx).log = (l.take (idx - 1)).drop s.baseIndex := by
    unfold MemLogStore.truncateSuffix
    rw [if_neg (by omega), h.log, List.drop_take,
      show idx - s.baseIndex - 1 = idx - 1 - s.baseIndex by omega]
  have hterm : (s.truncateSuffix idx).baseTerm = s.baseTerm := by
    unfold MemLogStore.truncateSuffix
    split <;> rfl
  refine ⟨h.indexed.take _, ?_, ?_, ?_⟩
  · rw [truncateSuffix_baseIndex, List.length_take]
    have := h.base_le
    omega
  · rw [truncateSuffix_baseIndex, hlog]
  · rw [truncateSuffix_baseIndex, hterm, List.take_take, Nat.min_eq_left (by omega), h.baseTerm]

lemma saveSnapshot {m : SnapshotMeta} (hidx : s.baseIndex ≤ m.lastIncludedIndex)
    (hlen : m.lastIncludedIndex ≤ l.length)
    (hterm : m.lastIncludedTerm = (scheme []).lastTerm (l.take m.lastIncludedIndex)) :
    (s.saveSnapshot m).Represents l where
  indexed := h.indexed
  base_le := hlen
  log := by
    show s.log.filter _ = _
    rw [h.log, h.indexed.filter_gt hidx]
    rfl
  baseTerm := hterm

/-- **One entry of a leader** is skipped, replaces a conflicting end, or extends the log. -/
lemma splice {l0 L : List Entry} {q : ℕ} {e0 : Entry} (hl : l = takeOver l0 L q)
    (he0 : L[q]? = some e0) (hL : Indexed L) (hbase : L.take s.baseIndex <+: l0)
    (hmatch : ∀ e, l0[q]? = some e → e.term = e0.term → L.take (q + 1) <+: l0) :
    (s.splice e0).Represents (takeOver l0 L (q + 1)) := by
  have hidx := hL q e0 he0
  have hqL : q < L.length := (List.getElem?_eq_some_iff.mp he0).1
  have hnext := Scheme.take_concat he0
  have hpre : L.take q <+: l := hl ▸ take_le_takeOver
  have hqlen : (L.take q).length = q := List.length_take_of_le hqL.le
  have hql : q ≤ l.length := hqlen ▸ hpre.length_le
  have hless : L.take (q + 1) <+: l0 → L.take q <+: l0 := take_prefix_of_le (Nat.le_succ q)
  -- a log that is replaced ends at the entry
  have hend : (L.take q ++ [e0]).length = q + 1 := by rw [List.length_append, hqlen]; rfl
  unfold MemLogStore.splice
  rw [hidx]
  split
  · -- behind the snapshot
    rename_i hb
    have hin : L.take (q + 1) <+: l0 := take_prefix_of_le hb hbase
    rw [takeOver_eq_self hin, ← takeOver_eq_self (hless hin), ← hl]
    exact h
  · cases ht : s.termAt (q + 1) with
    | none =>
      have hlen : l.length = q := by
        by_contra hne
        rw [h.termAt_of_le [] (by omega) (by omega)] at ht
        cases ht
      have hlq : l = L.take q := (hpre.eq_of_length (by rw [hqlen, hlen])).symm
      have hnot : ¬L.take (q + 1) <+: l0 := by
        intro hin
        have := hin.length_le
        rw [hnext, ← takeOver_eq_self (hless hin), ← hl] at this
        omega
      rw [takeOver_eq_take hnot, hnext, ← hlq]
      exact h.append (by rw [hidx, hlen])
    | some t =>
      obtain ⟨hlen, -, hterm⟩ := h.of_termAt [] ht
      -- the log is longer than what was taken over, so it is still the old one
      have hin : L.take q <+: l0 := by
        by_contra hnot
        rw [takeOver_eq_take hnot] at hl
        rw [hl] at hlen
        omega
      rw [takeOver_eq_self hin] at hl
      subst hl
      obtain ⟨e, he⟩ : ∃ e, l[q]? = some e := ⟨_, List.getElem?_eq_getElem hlen⟩
      rw [Scheme.take_concat he, Scheme.lastTerm_concat] at hterm
      dsimp only
      split
      · rename_i heq
        rw [takeOver_eq_self (hmatch e he (hterm.trans heq))]
        exact h
      · rename_i hne
        have hnot : ¬L.take (q + 1) <+: l := by
          intro hin'
          have heq := take_eq_of_take hin' hqL
          have := getElem?_eq_of_take_eq heq (Nat.lt_succ_self q)
          rw [he, he0, Option.some.injEq] at this
          exact hne (by rw [← hterm, this]; rfl)
        have htake : l.take q = L.take q := take_eq_of_take hin hqL.le
        have h1 := h.truncateSuffix (show s.baseIndex < q + 1 by omega)
        rw [Nat.add_sub_cancel, htake] at h1
        rw [takeOver_eq_take hnot, hnext]
        exact h1.append (by rw [hidx, hqlen])

/-- **The entries of a leader are taken over**: from an index up to which the logs agree, the log
becomes the leader's, unless it has all of them already. -/
lemma splices {L : List Entry} (hL : Indexed L) (hbase : L.take s.baseIndex <+: l)
    (hmatch : ∀ q e e', l[q]? = some e → L[q]? = some e' → e.term = e'.term →
      L.take (q + 1) <+: l) {prev j : ℕ} (hprev : prev ≤ j) (hj : j ≤ L.length)
    (hpre : L.take prev <+: l) :
    (((L.take j).drop prev).foldl MemLogStore.splice s).Represents (takeOver l L j) := by
  induction j, hprev using Nat.le_induction with
  | base =>
    rw [List.drop_eq_nil_of_le (by rw [List.length_take]; omega), takeOver_eq_self hpre]
    exact h
  | succ q hq ih =>
    obtain ⟨e0, he0⟩ : ∃ e, L[q]? = some e := ⟨_, List.getElem?_eq_getElem hj⟩
    have hsplit : (L.take (q + 1)).drop prev = (L.take q).drop prev ++ [e0] := by
      rw [Scheme.take_concat he0, List.drop_append_of_le_length]
      rw [List.length_take]
      omega
    rw [hsplit, List.foldl_append]
    refine (ih (by omega)).splice rfl he0 hL ?_ fun e he hterm => hmatch q e e0 he he0 hterm
    rwa [splices_baseIndex]

end Represents

end MemLogStore

lemma MemLogStore.Represents.getElem?_of_mem {s : MemLogStore} {l : List Entry} (h : s.Represents l)
    (he : e ∈ s.log) : l[e.index - 1]? = some e := by
  rw [h.log] at he
  obtain ⟨k, hk⟩ := List.getElem?_of_mem he
  rw [List.getElem?_drop] at hk
  rw [h.indexed _ _ hk, Nat.add_sub_cancel, hk]

end CrabScheme.Raft
