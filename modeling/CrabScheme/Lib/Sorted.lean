import Mathlib

/-!
# Finite maps and sets over ordered keys

A finite map is the list of its bindings in the order of the keys, each key once; the order is a
field of the structure, so that a map has one representation and two maps with the same bindings are
equal. Sets are maps to the one-point type. All operations are structural recursions, and evaluate.

## Main results

* `SortedSet.ext_mem` — extensionality.
* `SortedMap.get?_insert` — lookups after an update.
* `SortedSet.foldl_insert_elems` — a set is rebuilt by inserting its elements in order.
-/

universe u v

/-! ## Maps -/

/-- **A finite map with ordered keys**: its bindings in the strict order of the keys. -/
structure SortedMap (κ : Type u) (ν : Type v) [LinearOrder κ] where
  entries : List (κ × ν)
  sorted : entries.Pairwise fun a b => a.1 < b.1

namespace SortedMap

variable {κ : Type u} {ν : Type v} [LinearOrder κ]

/-- No binding. -/
def empty : SortedMap κ ν := ⟨[], .nil⟩

/-- The keys, in order. -/
def keys (m : SortedMap κ ν) : List κ := m.entries.map Prod.fst

/-- Lookup in a list of bindings. -/
def find (k : κ) : List (κ × ν) → Option ν
  | [] => none
  | b :: l => if k = b.1 then some b.2 else find k l

/-- The value bound to a key. -/
def get? (m : SortedMap κ ν) (k : κ) : Option ν := find k m.entries

/-- Insertion into a list of bindings; a binding of the same key is replaced. -/
def insertList (k : κ) (v : ν) : List (κ × ν) → List (κ × ν)
  | [] => [(k, v)]
  | b :: l =>
    if k < b.1 then (k, v) :: b :: l
    else if k = b.1 then (k, v) :: l
    else b :: insertList k v l

lemma mem_of_mem_insertList {k : κ} {v : ν} {b : κ × ν} {l : List (κ × ν)}
    (h : b ∈ insertList k v l) : b = (k, v) ∨ b ∈ l := by
  induction l with
  | nil => simpa [insertList] using h
  | cons c l ih =>
    unfold insertList at h
    split_ifs at h <;> grind

lemma insertList_sorted (k : κ) (v : ν) {l : List (κ × ν)}
    (h : l.Pairwise fun a b => a.1 < b.1) :
    (insertList k v l).Pairwise fun a b => a.1 < b.1 := by
  induction l with
  | nil => simp [insertList]
  | cons c l ih =>
    obtain ⟨hc, hl⟩ := List.pairwise_cons.mp h
    unfold insertList
    split_ifs with hlt heq
    · refine List.pairwise_cons.mpr ⟨fun b hb => ?_, h⟩
      rcases List.mem_cons.mp hb with rfl | hb
      · exact hlt
      · exact hlt.trans (hc b hb)
    · refine List.pairwise_cons.mpr ⟨fun b hb => ?_, hl⟩
      rw [heq]
      exact hc b hb
    · refine List.pairwise_cons.mpr ⟨fun b hb => ?_, ih hl⟩
      rcases mem_of_mem_insertList hb with rfl | hb
      · exact lt_of_le_of_ne (not_lt.mp hlt) (Ne.symm heq)
      · exact hc b hb

/-- Binds a key, in place of what it was bound to. -/
def insert (m : SortedMap κ ν) (k : κ) (v : ν) : SortedMap κ ν :=
  ⟨insertList k v m.entries, insertList_sorted k v m.sorted⟩

/-- Keeps the bindings whose key passes a test. -/
def filterKeys (m : SortedMap κ ν) (p : κ → Bool) : SortedMap κ ν :=
  ⟨m.entries.filter fun b => p b.1, m.sorted.filter _⟩

/-- Takes the first binding away. -/
def tail (m : SortedMap κ ν) : SortedMap κ ν := ⟨m.entries.tail, m.sorted.tail⟩

section Filter

variable {k : κ} {v : ν} {l : List (κ × ν)} {p : κ × ν → Bool}

lemma filter_insertList_of_neg (hk : ∀ b ∈ l, b.1 ≠ k) (hp : p (k, v) = false) :
    (insertList k v l).filter p = l.filter p := by
  induction l with
  | nil => simp [insertList, hp]
  | cons c l ih =>
    obtain ⟨hc, hl⟩ := List.forall_mem_cons.mp hk
    unfold insertList
    split_ifs with hlt heq
    · rw [List.filter_cons_of_neg (by simp [hp])]
    · exact absurd heq.symm hc
    · rw [List.filter_cons, List.filter_cons, ih hl]

lemma filter_insertList_of_pos (h : l.Pairwise fun a b => a.1 < b.1) (hk : ∀ b ∈ l, b.1 ≠ k)
    (hp : p (k, v) = true) (hlast : ∀ b ∈ l, p b = true → b.1 < k) :
    (insertList k v l).filter p = l.filter p ++ [(k, v)] := by
  induction l with
  | nil => simp [insertList, hp]
  | cons c l ih =>
    obtain ⟨hc, hl⟩ := List.forall_mem_cons.mp hk
    obtain ⟨hcl, hsorted⟩ := List.pairwise_cons.mp h
    obtain ⟨hlast', hrest⟩ := List.forall_mem_cons.mp hlast
    unfold insertList
    split_ifs with hlt heq
    · -- what is left comes after the new key, so none of it passes
      have hnone : (c :: l).filter p = [] := List.filter_eq_nil_iff.mpr fun b hb hpb => by
        have hbk := hlast b hb hpb
        rcases List.mem_cons.mp hb with rfl | hb
        · exact lt_asymm hlt hbk
        · exact lt_asymm (hlt.trans (hcl b hb)) hbk
      rw [List.filter_cons_of_pos hp, hnone, List.nil_append]
    · exact absurd heq.symm hc
    · rw [List.filter_cons, List.filter_cons, ih hsorted hl hrest]
      split_ifs <;> rfl

end Filter

section Lookup

variable {m : SortedMap κ ν} {k j : κ} {v w : ν}

@[simp] lemma get?_empty : (empty : SortedMap κ ν).get? k = none := rfl

lemma find_insertList (l : List (κ × ν)) :
    find j (insertList k v l) = if j = k then some v else find j l := by
  induction l with
  | nil => simp [insertList, find]
  | cons c l ih =>
    unfold insertList
    split_ifs with hlt heq hjk hjk hjk <;> grind [find]

/-- **Lookup after an insertion.** -/
lemma get?_insert : (m.insert k v).get? j = if j = k then some v else m.get? j :=
  find_insertList m.entries

lemma find_filter (l : List (κ × ν)) (p : κ → Bool) :
    find k (l.filter fun b => p b.1) = if p k then find k l else none := by
  induction l with
  | nil => simp [find]
  | cons c l ih => grind [find]

@[simp] lemma get?_filterKeys (p : κ → Bool) :
    (m.filterKeys p).get? k = if p k then m.get? k else none :=
  find_filter m.entries p

lemma find_eq_some_iff {l : List (κ × ν)} (h : l.Pairwise fun a b => a.1 < b.1) :
    find k l = some v ↔ (k, v) ∈ l := by
  induction l with
  | nil => simp [find]
  | cons c l ih =>
    obtain ⟨hc, hl⟩ := List.pairwise_cons.mp h
    unfold find
    split_ifs with hk
    · subst hk
      have hnot : (c.1, v) ∉ l := fun hv => lt_irrefl _ (hc (c.1, v) hv)
      simp [hnot, Prod.ext_iff, eq_comm]
    · rw [ih hl, List.mem_cons]
      exact ⟨.inr, fun hv => hv.resolve_left fun he => hk (by rw [← he])⟩

lemma mem_entries_iff : (k, v) ∈ m.entries ↔ m.get? k = some v :=
  (find_eq_some_iff m.sorted).symm

lemma mem_keys_iff : k ∈ m.keys ↔ ∃ v, m.get? k = some v := by
  simp [keys, mem_entries_iff]

lemma le_of_getLast? {b : κ × ν} (h : m.entries.getLast? = some b) (hk : k ∈ m.keys) :
    k ≤ b.1 := by
  obtain ⟨l, hl⟩ := List.getLast?_eq_some_iff.mp h
  obtain ⟨c, hc, rfl⟩ := List.mem_map.mp hk
  have hsorted := m.sorted
  rw [hl] at hc hsorted
  rcases List.mem_append.mp hc with hc | hc
  · exact ((List.pairwise_append.mp hsorted).2.2 c hc b (by simp)).le
  · exact (List.mem_singleton.mp hc ▸ le_rfl)

lemma getLast?_of_greatest (hk : m.get? k = some v) (hmax : ∀ j ∈ m.keys, j ≤ k) :
    m.entries.getLast? = some (k, v) := by
  have hmem := mem_entries_iff.mpr hk
  cases hlast : m.entries.getLast? with
  | none =>
    rw [List.getLast?_eq_none_iff.mp hlast] at hmem
    cases hmem
  | some b =>
    obtain ⟨j, w⟩ := b
    have hj := mem_entries_iff.mp (List.mem_of_getLast? hlast)
    obtain rfl : j = k :=
      le_antisymm (hmax j (mem_keys_iff.mpr ⟨w, hj⟩)) (le_of_getLast? hlast (mem_keys_iff.mpr ⟨v, hk⟩))
    rw [hk] at hj
    rw [Option.some.inj hj]

end Lookup

lemma entries_ext {l l' : List (κ × ν)} (h : l.Pairwise fun a b => a.1 < b.1)
    (h' : l'.Pairwise fun a b => a.1 < b.1) (hfind : ∀ b, b ∈ l ↔ b ∈ l') : l = l' := by
  refine List.Perm.eq_of_pairwise (fun a b _ _ hab hba => absurd hab (not_lt.mpr hba.le)) h h' ?_
  refine (List.perm_ext_iff_of_nodup ?_ ?_).mpr hfind
  · exact h.imp fun hlt heq => (heq ▸ hlt).false
  · exact h'.imp fun hlt heq => (heq ▸ hlt).false

end SortedMap

/-! ## Sets -/

/-- **A finite set of ordered elements.** -/
structure SortedSet (α : Type u) [LinearOrder α] where
  elems : List α
  sorted : elems.Pairwise (· < ·)

namespace SortedSet

variable {α : Type u} [LinearOrder α]

instance : DecidableEq (SortedSet α) := fun a b =>
  decidable_of_iff (a.elems = b.elems) (by cases a; cases b; simp)

instance : Membership α (SortedSet α) := ⟨fun s a => a ∈ s.elems⟩

/-- No element. -/
def empty : SortedSet α := ⟨[], .nil⟩

/-- Insertion into an increasing list. -/
def insertList (a : α) : List α → List α
  | [] => [a]
  | b :: l =>
    if a < b then a :: b :: l
    else if a = b then b :: l
    else b :: insertList a l

lemma mem_insertList {a b : α} {l : List α} : b ∈ insertList a l ↔ b = a ∨ b ∈ l := by
  induction l with
  | nil => simp [insertList]
  | cons c l ih =>
    unfold insertList
    split_ifs <;> grind

lemma insertList_sorted (a : α) {l : List α} (h : l.Pairwise (· < ·)) :
    (insertList a l).Pairwise (· < ·) := by
  induction l with
  | nil => simp [insertList]
  | cons c l ih =>
    obtain ⟨hc, hl⟩ := List.pairwise_cons.mp h
    unfold insertList
    split_ifs with hlt heq
    · refine List.pairwise_cons.mpr ⟨fun b hb => ?_, h⟩
      rcases List.mem_cons.mp hb with rfl | hb
      · exact hlt
      · exact hlt.trans (hc b hb)
    · exact h
    · refine List.pairwise_cons.mpr ⟨fun b hb => ?_, ih hl⟩
      rcases mem_insertList.mp hb with rfl | hb
      · exact lt_of_le_of_ne (not_lt.mp hlt) (Ne.symm heq)
      · exact hc b hb

/-- Adds an element. -/
def insert (s : SortedSet α) (a : α) : SortedSet α :=
  ⟨insertList a s.elems, insertList_sorted a s.sorted⟩

/-- Adds the elements of a list, one after the other. -/
def extend (s : SortedSet α) (l : List α) : SortedSet α := l.foldl insert s

section Membership

variable {s t : SortedSet α} {a b : α}

lemma mem_elems : a ∈ s.elems ↔ a ∈ s := Iff.rfl

@[simp] lemma not_mem_empty : a ∉ (empty : SortedSet α) := List.not_mem_nil

@[simp] lemma mem_insert : b ∈ s.insert a ↔ b = a ∨ b ∈ s := mem_insertList

@[simp] lemma mem_extend {l : List α} : b ∈ s.extend l ↔ b ∈ s ∨ b ∈ l := by
  induction l generalizing s with
  | nil => simp [extend]
  | cons c l ih =>
    have hstep : s.extend (c :: l) = (s.insert c).extend l := rfl
    rw [hstep, ih, mem_insert, List.mem_cons]
    tauto

lemma elems_nodup : s.elems.Nodup := s.sorted.imp fun h => h.ne

end Membership

/-- **Sets with the same elements are equal.** -/
lemma ext_mem {s t : SortedSet α} (h : ∀ a, a ∈ s ↔ a ∈ t) : s = t := by
  have helems : s.elems = t.elems :=
    List.Perm.eq_of_pairwise (fun a b _ _ hab hba => absurd hab (not_lt.mpr hba.le)) s.sorted
      t.sorted ((List.perm_ext_iff_of_nodup s.elems_nodup t.elems_nodup).mpr h)
  cases s
  cases t
  simpa using helems

/-- **A set is rebuilt by inserting its elements in order.** -/
lemma foldl_insert_elems (s : SortedSet α) : s.elems.foldl insert empty = s :=
  ext_mem fun a => by
    have h : a ∈ (empty : SortedSet α).extend s.elems ↔ _ := mem_extend
    simpa [mem_elems, extend] using h

end SortedSet
