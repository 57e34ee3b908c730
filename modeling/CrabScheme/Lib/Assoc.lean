import Mathlib

/-!
# Association lists with an index

A map from keys to values, where keys are compared by a relation that is symmetric and transitive,
is stored as a list of entries. An index from hashes to positions speeds up the search. The rules
below say what writing, adding and removing an entry do to the map, and what a search finds.

## Main results

* `Assoc.Represents.set`, `Assoc.Represents.push`, `Assoc.Represents.swapRemove`.
* `Assoc.Mirrors.push`, `Assoc.probe_spec`.
-/

namespace Assoc

variable {K V H : Type*}

/-- A relation that is symmetric and transitive. A key may be unlike itself. -/
structure Partial (same : K → K → Prop) : Prop where
  symm : ∀ a b, same a b → same b a
  trans : ∀ a b c, same a b → same b c → same a c

/-! ### Maps -/

section Map

variable (same : K → K → Prop)

open Classical in
/-- A map after a value was stored under a key. -/
noncomputable def insert (m : K → Option V) (k : K) (v : V) : K → Option V :=
  fun k' => if same k k' then some v else m k'

open Classical in
/-- A map after a key was removed. -/
noncomputable def erase (m : K → Option V) (k : K) : K → Option V :=
  fun k' => if same k k' then none else m k'

/-- **A list of entries represents a map**: no two keys are alike, and the value of a key is that of
the entry with a key like it. -/
structure Represents (l : List (K × V)) (m : K → Option V) : Prop where
  distinct : l.Pairwise fun a b => ¬ same a.1 b.1
  lookup : ∀ k v, m k = some v ↔ ∃ kv ∈ l, same kv.1 k ∧ kv.2 = v

variable {same} {l l' : List (K × V)} {m : K → Option V} {k k₀ : K} {v v₀ : V} {i : ℕ}

lemma represents_nil : Represents same ([] : List (K × V)) fun _ => none :=
  ⟨.nil, by simp⟩

namespace Represents

lemma get_of_mem (h : Represents same l m) (hi : l[i]? = some (k₀, v)) (hk : same k₀ k) :
    m k = some v :=
  (h.lookup k v).2 ⟨(k₀, v), List.mem_of_getElem? hi, hk, rfl⟩

lemma get_of_absent (h : Represents same l m) (hk : ∀ kv ∈ l, ¬ same kv.1 k) : m k = none := by
  rw [Option.eq_none_iff_forall_ne_some]
  intro v hv
  obtain ⟨kv, hmem, hsame, -⟩ := (h.lookup k v).1 hv
  exact hk kv hmem hsame

section

variable (hs : Partial same) (h : Represents same l m)

include hs h

lemma perm (hl : l.Perm l') : Represents same l' m := by
  refine ⟨?_, fun k v => ?_⟩
  · exact (hl.pairwise_iff fun hab hba => hab (hs.symm _ _ hba)).1 h.distinct
  · rw [h.lookup]
    simp only [hl.mem_iff]

lemma eq_of_same {j : ℕ} {kv kv' : K × V} (hi : l[i]? = some kv) (hj : l[j]? = some kv')
    (hk : same kv.1 k) (hk' : same kv'.1 k) : i = j := by
  have hboth : same kv.1 kv'.1 := hs.trans _ _ _ hk (hs.symm _ _ hk')
  obtain ⟨hi', rfl⟩ := List.getElem?_eq_some_iff.1 hi
  obtain ⟨hj', rfl⟩ := List.getElem?_eq_some_iff.1 hj
  rcases Nat.lt_trichotomy i j with hlt | heq | hlt
  · exact absurd hboth (List.pairwise_iff_getElem.1 h.distinct i j hi' hj' hlt)
  · exact heq
  · exact absurd (hs.symm _ _ hboth) (List.pairwise_iff_getElem.1 h.distinct j i hj' hi' hlt)

/-- **A value is overwritten.** -/
lemma set (hi : l[i]? = some (k₀, v₀)) (hk : same k₀ k) (v : V)
    : Represents same (l.set i (k₀, v)) (insert same m k v) := by
  have hlen : i < l.length := (List.getElem?_eq_some_iff.1 hi).1
  have hkeys : (l.set i (k₀, v)).map Prod.fst = l.map Prod.fst := by
    refine List.ext_getElem? fun j => ?_
    rw [List.getElem?_map, List.getElem?_map, List.getElem?_set]
    split
    · rename_i hij
      subst hij
      rw [hi]
      rfl
    · rfl
  refine ⟨?_, fun k' v' => ?_⟩
  · have hd := h.distinct
    rw [← List.pairwise_map (R := fun a b => ¬ same a b)] at hd ⊢
    rwa [hkeys]
  · rw [insert]
    split
    · -- the key is the one that was written
      rename_i hkk'
      rw [Option.some.injEq]
      constructor
      · rintro rfl
        exact ⟨(k₀, v), List.mem_of_getElem? (List.getElem?_set_self hlen),
          hs.trans _ _ _ hk hkk', rfl⟩
      · rintro ⟨kv, hkv, hsame, rfl⟩
        obtain ⟨j, hj⟩ := List.mem_iff_getElem?.1 hkv
        rw [List.getElem?_set] at hj
        split at hj
        · rw [Option.some.injEq] at hj
          rw [← hj]
        · rename_i hij
          exact absurd (h.eq_of_same hs hi hj (hs.trans _ _ _ hk hkk') hsame) hij
    · rename_i hkk'
      rw [h.lookup]
      constructor
      · rintro ⟨kv, hkv, hsame, rfl⟩
        obtain ⟨j, hj⟩ := List.mem_iff_getElem?.1 hkv
        refine ⟨kv, List.mem_of_getElem? (i := j) ?_, hsame, rfl⟩
        rw [List.getElem?_set_ne, hj]
        rintro rfl
        rw [hi, Option.some.injEq] at hj
        subst hj
        exact hkk' (hs.trans _ _ _ (hs.symm _ _ hk) hsame)
      · rintro ⟨kv, hkv, hsame, rfl⟩
        rcases List.mem_or_eq_of_mem_set hkv with hkv | rfl
        · exact ⟨kv, hkv, hsame, rfl⟩
        · exact absurd (hs.trans _ _ _ (hs.symm _ _ hk) hsame) hkk'

/-- **An entry is added.** -/
lemma push (hk : ∀ kv ∈ l, ¬ same kv.1 k) (v : V) :
    Represents same (l ++ [(k, v)]) (insert same m k v) := by
  refine ⟨?_, fun k' v' => ?_⟩
  · rw [List.pairwise_append]
    refine ⟨h.distinct, List.pairwise_singleton _ _, fun kv hkv kv' hkv' => ?_⟩
    rw [List.mem_singleton.1 hkv']
    exact hk kv hkv
  · rw [insert]
    simp only [List.mem_append, List.mem_singleton, or_and_right, exists_or, exists_eq_left]
    split
    · rename_i hkk'
      rw [Option.some.injEq]
      constructor
      · rintro rfl
        exact .inr ⟨hkk', rfl⟩
      · rintro (⟨kv, hkv, hsame, -⟩ | ⟨-, rfl⟩)
        · exact absurd (hs.trans _ _ _ hsame (hs.symm _ _ hkk')) (hk kv hkv)
        · rfl
    · rename_i hkk'
      rw [h.lookup]
      exact ⟨.inl, fun hor => hor.resolve_right fun hnew => hkk' hnew.1⟩

/-- **An entry is removed.** -/
lemma eraseIdx (hi : l[i]? = some (k₀, v₀)) (hk : same k₀ k)
    : Represents same (l.eraseIdx i) (erase same m k) := by
  refine ⟨h.distinct.sublist (List.eraseIdx_sublist l i), fun k' v' => ?_⟩
  rw [erase]
  split
  · rename_i hkk'
    refine iff_of_false nofun ?_
    rintro ⟨kv, hkv, hsame, -⟩
    obtain ⟨j, hji, hj⟩ := List.mem_eraseIdx_iff_getElem?.1 hkv
    exact hji (h.eq_of_same hs hj hi hsame (hs.trans _ _ _ hk hkk'))
  · rename_i hkk'
    rw [h.lookup]
    constructor
    · rintro ⟨kv, hkv, hsame, rfl⟩
      obtain ⟨j, hj⟩ := List.mem_iff_getElem?.1 hkv
      refine ⟨kv, List.mem_eraseIdx_iff_getElem?.2 ⟨j, ?_, hj⟩, hsame, rfl⟩
      rintro rfl
      rw [hi, Option.some.injEq] at hj
      subst hj
      exact hkk' (hs.trans _ _ _ (hs.symm _ _ hk) hsame)
    · rintro ⟨kv, hkv, hsame, rfl⟩
      exact ⟨kv, List.mem_of_mem_eraseIdx hkv, hsame, rfl⟩

lemma erase_of_absent (hk : ∀ kv ∈ l, ¬ same kv.1 k) : Represents same l (erase same m k) := by
  refine ⟨h.distinct, fun k' v' => ?_⟩
  rw [erase]
  split
  · rename_i hkk'
    refine iff_of_false nofun ?_
    rintro ⟨kv, hkv, hsame, -⟩
    exact hk kv hkv (hs.trans _ _ _ hsame (hs.symm _ _ hkk'))
  · exact h.lookup k' v'

end

end Represents

end Map

/-! ### Removing by moving -/

/-- The element at a position is removed, and the last one takes its place. -/
def swapRemove {α : Type*} (l : List α) (i : ℕ) : List α :=
  match l.getLast? with
  | some x => (l.set i x).dropLast
  | none => l

lemma getElem?_swapRemove {α : Type*} {l : List α} {i : ℕ} (hi : i < l.length) (j : ℕ) :
    (swapRemove l i)[j]? =
      if j < l.length - 1 then (if j = i then l[l.length - 1]? else l[j]?) else none := by
  have hne : l ≠ [] := List.ne_nil_of_length_pos (by omega)
  rw [swapRemove, List.getLast?_eq_some_getLast hne, List.getElem?_dropLast, List.length_set]
  split
  · rw [List.getElem?_set]
    split
    · rename_i hij
      subst hij
      rw [if_pos rfl, List.getLast_eq_getElem, List.getElem?_eq_getElem]
    · rename_i hij
      rw [if_neg (Ne.symm hij)]
  · rfl

lemma swapRemove_perm {α : Type*} {l : List α} {i : ℕ} (hi : i < l.length) :
    (swapRemove l i).Perm (l.eraseIdx i) := by
  obtain ⟨front, x, rfl⟩ := (List.eq_nil_or_concat l).resolve_left
    (List.ne_nil_of_length_pos (by omega))
  rw [List.concat_eq_append] at hi ⊢
  rw [swapRemove, List.getLast?_concat]
  dsimp only
  rw [List.length_append, List.length_singleton] at hi
  rcases Nat.lt_or_ge i front.length with hlt | hge
  · rw [List.set_append_left _ _ hlt, List.dropLast_concat, List.eraseIdx_append_of_lt_length hlt]
    exact (List.set_perm_cons_eraseIdx hlt x).trans (List.perm_append_singleton x _).symm
  · obtain rfl : i = front.length := by omega
    rw [List.eraseIdx_append_of_length_le (Nat.le_refl _)]
    simp

/-! ### The index -/

section Index

variable [DecidableEq H] (hash : K → H)

/-- **The index mirrors the keys**: under every hash it has the positions of the keys with that
hash, in their order. -/
def Mirrors (keys : List K) (index : H → List ℕ) : Prop :=
  ∀ w, index w = (List.range keys.length).filter fun i => keys[i]?.map hash = some w

/-- A position is added to the index. -/
def indexInsert (index : H → List ℕ) (w : H) (i : ℕ) : H → List ℕ :=
  Function.update index w (index w ++ [i])

/-- The index is built anew. -/
def rebuild (keys : List K) : H → List ℕ :=
  keys.zipIdx.foldl (fun index k => indexInsert index (hash k.1) k.2) fun _ => []

variable {hash} {keys : List K} {index : H → List ℕ}

lemma mirrors_nil : Mirrors hash [] fun _ => [] := fun _ => rfl

lemma Mirrors.mem_iff (h : Mirrors hash keys index) {w : H} {i : ℕ} :
    i ∈ index w ↔ ∃ k, keys[i]? = some k ∧ hash k = w := by
  rw [h w, List.mem_filter, List.mem_range, decide_eq_true_eq, Option.map_eq_some_iff]
  refine ⟨fun hi => hi.2, fun hi => ⟨?_, hi⟩⟩
  obtain ⟨k, hk, -⟩ := hi
  exact (List.getElem?_eq_some_iff.1 hk).1

end Index

/-! ### Searching -/

/-- **A search through some positions** for the first key that a comparison accepts. It fails when
a position is out of range or a comparison does not return. -/
def probe (cmp : K → Option Bool) (keys : List K) : List ℕ → Option (Option ℕ)
  | [] => some none
  | i :: is =>
    match keys[i]?.bind cmp with
    | some true => some (some i)
    | some false => probe cmp keys is
    | none => none

/-- What a search finds. -/
theorem probe_spec {cmp : K → Option Bool} {keys : List K} {is : List ℕ}
    (h : ∀ i ∈ is, ∃ k, keys[i]? = some k ∧ (cmp k).isSome = true) :
    (∃ i ∈ is, ∃ k, keys[i]? = some k ∧ cmp k = some true ∧
        probe cmp keys is = some (some i)) ∨
      (probe cmp keys is = some none ∧
        ∀ i ∈ is, ∀ k, keys[i]? = some k → cmp k = some false) := by
  induction is with
  | nil => exact .inr ⟨rfl, by simp⟩
  | cons i is ih =>
    obtain ⟨k, hk, hcmp⟩ := h i List.mem_cons_self
    obtain ⟨b, hb⟩ := Option.isSome_iff_exists.1 hcmp
    cases b with
    | true => exact .inl ⟨i, List.mem_cons_self, k, hk, hb, by simp [probe, hk, hb]⟩
    | false =>
      have hstep : probe cmp keys (i :: is) = probe cmp keys is := by simp [probe, hk, hb]
      rw [hstep]
      rcases ih fun j hj => h j (List.mem_cons_of_mem i hj) with ⟨j, hj, hfound⟩ | ⟨hnone, hall⟩
      · exact .inl ⟨j, List.mem_cons_of_mem i hj, hfound⟩
      · refine .inr ⟨hnone, List.forall_mem_cons.2 ⟨fun k' hk' => ?_, hall⟩⟩
        rw [hk, Option.some.injEq] at hk'
        rw [← hk', hb]

end Assoc
