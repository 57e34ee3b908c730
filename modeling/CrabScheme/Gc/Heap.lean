import CrabScheme.Data.Equivalence

/-!
# The reference-counted heap

Objects hold values, and a value that is a heap value is a strong reference to its object. A slot
of a pair, a vector or a hashtable can be *demoted*: it then holds a weak reference, through which
the value is still read as long as the object lives. An object is freed when its last strong
reference goes, and with it go the references it held; the heap of this file is freed as a whole,
until every object that lives has a strong reference.

## Main results

* `reclaim_tidy` — what lives after it has a strong reference.
* `getElem?_reclaim` — what is reachable stays as it is.
-/

namespace CrabScheme.Data.Value

/-- `Value::heap_addr`. -/
def heapAddr : Value → Option ℕ
  | .string a | .pair a | .vector a | .byteVector a | .procedure a | .hashtable a | .port a
  | .promise a => some a
  | _ => none

end CrabScheme.Data.Value

namespace CrabScheme.Gc

open Relation

/-- A slot with its weak tombstone, if it has one: then the slot itself is unspecified. -/
inductive Slot
  | strong (v : Data.Value)
  | demoted (v : Data.Value)
deriving DecidableEq

/-- What the slot itself holds. -/
def Slot.raw : Slot → Data.Value
  | strong v => v
  | demoted _ => .unspecified

/-- Heap objects with the values they hold. Strings, bytevectors and ports hold none; of a
procedure only the values of its environment matter. -/
inductive Object
  | leaf
  | pair (car cdr : Slot)
  | vector (items : List Slot)
  | hashtable (items : List (Data.Value × Slot)) (custom : List Data.Value)
  | promise (v : Data.Value)
  | procedure (captured : List Data.Value)
deriving DecidableEq

/-- The values an object holds, in the order in which the walks visit them. -/
def Object.slots : Object → List Data.Value
  | leaf => []
  | pair car cdr => [car.raw, cdr.raw]
  | vector items => items.map Slot.raw
  | hashtable items custom => items.flatMap (fun kv => [kv.1, kv.2.raw]) ++ custom
  | promise v => [v]
  | procedure captured => captured

/-- The strong references of an object. -/
def Object.refs (o : Object) : List ℕ := o.slots.filterMap Data.Value.heapAddr

/-- The heap; an address is an index, and nothing is there once the object was freed. -/
abbrev Heap := List (Option Object)

/-- The strong references of what is at a place of the heap. -/
def cellRefs : Option Object → List ℕ
  | some o => o.refs
  | none => []

variable {a b : ℕ}

namespace Heap

/-- The values held by the object at an address. -/
def slots (h : Heap) (a : ℕ) : List Data.Value :=
  match h[a]? with
  | some (some o) => o.slots
  | _ => []

/-- The strong references of the object at an address. -/
def refs (h : Heap) (a : ℕ) : List ℕ := cellRefs (h[a]?.getD none)

/-- The object at an address lives. -/
def live (h : Heap) (a : ℕ) : Bool := (h[a]?.getD none).isSome

/-- There is a strong reference from one object to another. -/
def Edge (h : Heap) (a b : ℕ) : Prop := b ∈ h.refs a

lemma refs_eq_slots (h : Heap) (a : ℕ) : h.refs a = (h.slots a).filterMap Data.Value.heapAddr := by
  unfold refs slots
  cases h[a]? with
  | none => rfl
  | some o =>
    cases o with
    | none => rfl
    | some o => rfl

lemma live_iff {h : Heap} : h.live a = true ↔ ∃ o, h[a]? = some (some o) := by
  unfold live
  rcases h[a]? with _ | _ | o <;> simp

lemma live_of_mem_refs {h : Heap} (hb : b ∈ h.refs a) : h.live a = true := by
  unfold refs at hb
  unfold live
  cases hc : h[a]?.getD none with
  | none => rw [hc] at hb; cases hb
  | some o => rfl

end Heap

/-- The references held outside the heap. -/
def rootRefs (roots : List Data.Value) : List ℕ := roots.filterMap Data.Value.heapAddr

/-- The strong count of an object. -/
def strongCount (h : Heap) (roots : List Data.Value) (a : ℕ) : ℕ :=
  (h.flatMap cellRefs ++ rootRefs roots).count a

lemma mem_flatMap_cellRefs {h : Heap} : a ∈ h.flatMap cellRefs ↔ ∃ x, a ∈ h.refs x := by
  rw [List.mem_flatMap]
  constructor
  · rintro ⟨o, ho, ha⟩
    obtain ⟨x, hx⟩ := List.mem_iff_getElem?.1 ho
    exact ⟨x, by rwa [Heap.refs, hx]⟩
  · rintro ⟨x, hx⟩
    unfold Heap.refs at hx
    cases hc : h[x]? with
    | none => rw [hc] at hx; cases hx
    | some o =>
      rw [hc] at hx
      exact ⟨o, List.mem_of_getElem? hc, hx⟩

lemma strongCount_pos {h : Heap} {roots : List Data.Value} :
    0 < strongCount h roots a ↔ a ∈ rootRefs roots ∨ ∃ x, a ∈ h.refs x := by
  rw [strongCount, List.count_pos_iff, List.mem_append, mem_flatMap_cellRefs, or_comm]

/-- The strong references to an object are those of a set of objects, those of the others and
those from outside the heap. -/
lemma strongCount_eq_add (h : Heap) (roots : List Data.Value) (M : Finset ℕ) (a : ℕ) :
    strongCount h roots a = ∑ x ∈ M, (h.refs x).count a +
      (∑ x ∈ Finset.range h.length \ M, (h.refs x).count a + (rootRefs roots).count a) := by
  have hrange : (h.flatMap cellRefs).count a = ∑ x ∈ Finset.range h.length, (h.refs x).count a := by
    rw [List.count_flatMap]
    induction h with
    | nil => rfl
    | cons o h ih =>
      rw [List.map_cons, List.sum_cons, ih, List.length_cons, Finset.sum_range_succ', add_comm]
      rfl
  -- outside the heap there are no references
  have hunion : ∑ x ∈ Finset.range h.length, (h.refs x).count a =
      ∑ x ∈ Finset.range h.length ∪ M, (h.refs x).count a := by
    refine Finset.sum_subset Finset.subset_union_left fun x _ hx => ?_
    have hnone : h[x]? = none := by simpa using hx
    rw [Heap.refs, hnone]
    rfl
  rw [strongCount, List.count_append, hrange, hunion,
    ← Finset.sum_sdiff (Finset.subset_union_right : M ⊆ Finset.range h.length ∪ M),
    Finset.union_sdiff_right]
  omega

/-- An object is reachable from the references outside the heap. -/
def Reachable (h : Heap) (roots : List Data.Value) (a : ℕ) : Prop :=
  ∃ r ∈ rootRefs roots, ReflTransGen h.Edge r a

lemma Reachable.tail {h : Heap} {roots : List Data.Value} (ha : Reachable h roots a)
    (hab : h.Edge a b) : Reachable h roots b := by
  obtain ⟨r, hr, hra⟩ := ha
  exact ⟨r, hr, hra.tail hab⟩

lemma Reachable.strongCount_pos {h : Heap} {roots : List Data.Value} (ha : Reachable h roots a)
    : 0 < strongCount h roots a := by
  obtain ⟨r, hr, hra⟩ := ha
  rw [Gc.strongCount_pos]
  rcases hra.cases_tail with rfl | ⟨x, -, hxa⟩
  · exact .inl hr
  · exact .inr ⟨x, hxa⟩

/-! ### Freeing -/

/-- The objects without a strong reference are freed. -/
def freeDead (roots : List Data.Value) (h : Heap) : Heap :=
  h.mapIdx fun a o => if strongCount h roots a = 0 then none else o

/-- **Everything without a strong reference is freed**, and then what has lost its last
reference by it, and so on. -/
def reclaim (roots : List Data.Value) (h : Heap) : Heap := (freeDead roots)^[h.length] h

/-- Every object that lives has a strong reference. -/
def Tidy (roots : List Data.Value) (h : Heap) : Prop :=
  ∀ a, h.live a = true → 0 < strongCount h roots a

/-- **What is left of a heap**: some objects were freed, the others are as before. -/
structure Remains (h' h : Heap) : Prop where
  length_eq : h'.length = h.length
  get : ∀ a : ℕ, h'[a]? = h[a]? ∨ h'[a]? = some none

section Free

variable {h h' h'' : Heap} {roots : List Data.Value}

lemma Remains.refl (h : Heap) : Remains h h := ⟨rfl, fun _ => .inl rfl⟩

lemma Remains.trans (h1 : Remains h'' h') (h2 : Remains h' h) : Remains h'' h := by
  refine ⟨h1.length_eq.trans h2.length_eq, fun a => ?_⟩
  rcases h1.get a with ha | ha
  · rw [ha]
    exact h2.get a
  · exact .inr ha

lemma Remains.live (hr : Remains h' h) (ha : h'.live a = true) : h'[a]? = h[a]? := by
  rcases hr.get a with heq | hnone
  · exact heq
  · rw [Heap.live, hnone] at ha
    cases ha

lemma Remains.refs_subset (hr : Remains h' h) (hb : b ∈ h'.refs a) : b ∈ h.refs a := by
  have heq := hr.live (Heap.live_of_mem_refs hb)
  rwa [Heap.refs, heq] at hb

lemma getElem?_freeDead (a : ℕ) : (freeDead roots h)[a]? =
    h[a]?.map fun o => if strongCount h roots a = 0 then none else o := by
  rw [freeDead, List.getElem?_mapIdx]

lemma remains_freeDead (roots : List Data.Value) (h : Heap) : Remains (freeDead roots h) h := by
  refine ⟨List.length_mapIdx, fun a => ?_⟩
  rw [getElem?_freeDead]
  cases h[a]? with
  | none => exact .inl rfl
  | some o =>
    split
    · exact .inr rfl
    · exact .inl rfl

lemma remains_iterate (roots : List Data.Value) (n : ℕ) (h : Heap) :
    Remains ((freeDead roots)^[n] h) h := by
  induction n generalizing h with
  | zero => exact .refl h
  | succ n ih =>
    exact (ih _).trans (remains_freeDead roots h)

lemma remains_reclaim (roots : List Data.Value) (h : Heap) : Remains (reclaim roots h) h :=
  remains_iterate roots _ h

lemma freeDead_eq_self (ht : Tidy roots h) : freeDead roots h = h := by
  refine List.ext_getElem? fun a => ?_
  rw [getElem?_freeDead]
  rcases hc : h[a]? with _ | _ | o
  · rfl
  · simp
  · have hpos := ht a (Heap.live_iff.2 ⟨o, hc⟩)
    rw [Option.map_some, if_neg (by omega)]

/-- The addresses of the objects that live. -/
def liveSet (h : Heap) : Finset ℕ := (Finset.range h.length).filter fun a => h.live a = true

lemma mem_liveSet : a ∈ liveSet h ↔ h.live a = true := by
  rw [liveSet, Finset.mem_filter, Finset.mem_range]
  refine ⟨fun ha => ha.2, fun ha => ⟨?_, ha⟩⟩
  obtain ⟨o, ho⟩ := Heap.live_iff.1 ha
  exact (List.getElem?_eq_some_iff.1 ho).1

lemma card_liveSet_freeDead (ht : ¬ Tidy roots h) :
    (liveSet (freeDead roots h)).card < (liveSet h).card := by
  simp only [Tidy, not_forall, Nat.pos_iff_ne_zero] at ht
  obtain ⟨a, ha, hzero⟩ := ht
  refine Finset.card_lt_card (Finset.ssubset_iff_of_subset ?_ |>.2 ⟨a, mem_liveSet.2 ha, ?_⟩)
  · intro b hb
    rw [mem_liveSet] at hb ⊢
    rwa [Heap.live, (remains_freeDead roots h).live hb] at hb
  · rw [mem_liveSet, Heap.live, getElem?_freeDead]
    cases h[a]? <;> simp [hzero]

/-- **What lives after the freeing has a strong reference.** -/
theorem reclaim_tidy (roots : List Data.Value) (h : Heap) : Tidy roots (reclaim roots h) := by
  have hiter : ∀ (n : ℕ) (h : Heap), (liveSet h).card ≤ n →
      Tidy roots ((freeDead roots)^[n] h) := by
    intro n
    induction n with
    | zero =>
      intro h hn a ha
      rw [Nat.le_zero, Finset.card_eq_zero] at hn
      exact absurd (mem_liveSet.2 ha) (hn ▸ Finset.notMem_empty a)
    | succ n ih =>
      intro h hn
      by_cases ht : Tidy roots h
      · rwa [Function.iterate_fixed (freeDead_eq_self ht)]
      · have := card_liveSet_freeDead ht
        exact ih _ (by omega)
  refine hiter _ h ((Finset.card_filter_le _ _).trans ?_)
  rw [Finset.card_range]

lemma getElem?_freeDead_of_reachable (ha : Reachable h roots a) :
    (freeDead roots h)[a]? = h[a]? := by
  have hpos := ha.strongCount_pos
  rw [getElem?_freeDead]
  simp [hpos.ne']

lemma Reachable.freeDead (ha : Reachable h roots a) : Reachable (Gc.freeDead roots h) roots a := by
  obtain ⟨r, hr, hra⟩ := ha
  refine ⟨r, hr, ?_⟩
  induction hra with
  | refl => exact .refl
  | @tail b c hrb hbc ih =>
    refine ih.tail ?_
    have hb := getElem?_freeDead_of_reachable ⟨r, hr, hrb⟩
    unfold Heap.Edge Heap.refs at *
    rwa [hb]

/-- **What is reachable stays as it is.** -/
theorem getElem?_reclaim (ha : Reachable h roots a) : (reclaim roots h)[a]? = h[a]? := by
  have hiter : ∀ (n : ℕ) (h : Heap), Reachable h roots a →
      ((freeDead roots)^[n] h)[a]? = h[a]? := by
    intro n
    induction n with
    | zero => exact fun _ _ => rfl
    | succ n ih =>
      intro h ha
      rw [Function.iterate_succ_apply, ih _ ha.freeDead, getElem?_freeDead_of_reachable ha]
  exact hiter _ h ha

end Free

end CrabScheme.Gc
