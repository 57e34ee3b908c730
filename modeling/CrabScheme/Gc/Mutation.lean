import CrabScheme.Gc.Detector
import CrabScheme.Lib.Actions

/-!
# Mutation and the breaking of cycles

`set-car!`, `set-cdr!`, `vector-set!` and `hashtable-set!` store a value and then look for a cycle
through the container. If there is one, and the value has more strong references than the call
itself accounts for, the slot is demoted to a weak reference. The value is then read through the
weak reference, and that only works as long as something else keeps it alive.

The file runs programs on this heap and on an ideal one, where nothing is ever demoted or freed.
A slot that refers to its own container can be demoted without harm: whoever reads the slot
holds the container. As long as no other slot is demoted, the two heaps agree on everything a
program can reach. One slot of another kind is enough to lose a value.

## Main results

* `Sim.step`, `Sim.run` — the heaps agree.
* `reads_last_stored` — reads return what was stored last.
-/

namespace CrabScheme.Gc

open Object

open Relation

/-! ### Slots -/

/-- The places of an object that can be read and written. -/
inductive Place
  | car
  | cdr
  | item (k : ℕ)
  | entry (k : ℕ)
deriving DecidableEq

namespace Object

/-- The slot at a place. -/
def slot? : Object → Place → Option Slot
  | pair car _, .car => some car
  | pair _ cdr, .cdr => some cdr
  | vector items, .item k => items[k]?
  | hashtable items _, .entry k => items[k]?.map Prod.snd
  | _, _ => none

/-- A slot is overwritten. -/
def setSlot : Object → Place → Slot → Object
  | pair _ cdr, .car, s => pair s cdr
  | pair car _, .cdr, s => pair car s
  | vector items, .item k, s => vector (items.modify k fun _ => s)
  | hashtable items custom, .entry k, s =>
    hashtable (items.modify k fun kv => (kv.1, s)) custom
  | o, _, _ => o

end Object

namespace Heap

/-- A slot of the object at an address is overwritten. -/
def setSlot (h : Heap) (c : ℕ) (p : Place) (s : Slot) : Heap :=
  h.modify c fun o => o.map fun o => o.setSlot p s

/-- The value read from a slot: a demoted one is read through the weak reference, and is
unspecified once its object was freed. -/
def readSlot (h : Heap) : Slot → Data.Value
  | .strong v => v
  | .demoted v => if v.heapAddr.any h.live then v else .unspecified

/-- **Reading a slot of an object**: `car`, `cdr`, `vector-ref` and `hashtable-ref`. -/
def readAt (h : Heap) (a : ℕ) (p : Place) : Option Data.Value :=
  ((h[a]?.getD none).bind (·.slot? p)).map h.readSlot

end Heap

/-! ### Programs -/

/-- The heap and the references the program holds: variables, temporaries and the arguments of
a call. -/
structure Memory where
  heap : Heap
  roots : List Data.Value

/-- What a program does. The arguments of a call are among the references of the program, given by
their index. Where `hashtable-set!` finds its key is left open. -/
inductive Action
  | immediate (v : Data.Value)
  | dup (i : ℕ)
  | drop (i : ℕ)
  | cons (i j : ℕ)
  | makeVector (n i : ℕ)
  | makeHashtable
  | get (i : ℕ) (p : Place)
  | setCar (i j : ℕ)
  | setCdr (i j : ℕ)
  | vectorSet (i k j : ℕ)
  | hashtableSet (i key : ℕ) (found : Option ℕ) (j : ℕ)

/-- A store made by a builtin: the container, the place and the value, and how many references to
the value the builtin itself holds when it looks at the strong count. For `hashtable-set!` the heap
has a new entry, if the key is new. -/
structure Store where
  heap : Heap
  container : ℕ
  place : Place
  value : Data.Value
  transient : ℕ

/-- How a heap reclaims objects, and what happens to it after a slot was written. -/
structure Policy where
  free : List Data.Value → Heap → Heap
  written : List Data.Value → Store → Heap

namespace Memory

/-- The program gets a reference. -/
def push (m : Memory) (v : Data.Value) : Memory := { m with roots := m.roots ++ [v] }

/-- A new object, and the reference to it. -/
def alloc (m : Memory) (o : Object) (ref : ℕ → Data.Value) : Memory :=
  { heap := m.heap ++ [some o], roots := m.roots ++ [ref m.heap.length] }

/-- **The store of an action**: `set-car!`, `set-cdr!`, `vector-set!` and `hashtable-set!`. A call
with wrong arguments stores nothing. -/
def storeOf (m : Memory) : Action → Option Store
  | .setCar i j =>
    match m.roots[i]?, m.roots[j]? with
    | some (.pair a), some v => some ⟨m.heap, a, .car, v, 0⟩
    | _, _ => none
  | .setCdr i j =>
    match m.roots[i]?, m.roots[j]? with
    | some (.pair a), some v => some ⟨m.heap, a, .cdr, v, 0⟩
    | _, _ => none
  | .vectorSet i k j =>
    match m.roots[i]?, m.roots[j]? with
    | some (.vector a), some v =>
      -- the value is cloned to be looked at
      if (m.heap.readAt a (.item k)).isSome then some ⟨m.heap, a, .item k, v, 1⟩ else none
    | _, _ => none
  | .hashtableSet i key found j =>
    match m.roots[i]?, m.roots[key]?, m.roots[j]? with
    | some (.hashtable a), some k, some v =>
      match m.heap[a]?.getD none with
      | some (.hashtable items custom) =>
        let idx := (found.filter (· < items.length)).getD items.length
        let items' := if idx = items.length then items ++ [(k, .strong v)] else items
        -- the table is cloned as well
        some ⟨m.heap.set a (some (.hashtable items' custom)), a, .entry idx, v,
          if v.heapAddr = some a then 2 else 1⟩
      | _ => none
    | _, _, _ => none
  | _ => none

end Memory

/-- A value is stored in a slot, and what was there before is released. -/
def Policy.store (π : Policy) (roots : List Data.Value) (s : Store) : Memory :=
  let heap := π.free roots (s.heap.setSlot s.container s.place (.strong s.value))
  { heap := π.written roots { s with heap := heap }, roots := roots }

/-- **The steps of a program.** A call with wrong arguments is an error and changes nothing. -/
def step (π : Policy) (act : Action) (m : Memory) : Memory :=
  match act with
  | .immediate v => if v.heapAddr = none then m.push v else m
  | .dup i => (m.roots[i]?.map m.push).getD m
  | .drop i => { heap := π.free (m.roots.eraseIdx i) m.heap, roots := m.roots.eraseIdx i }
  | .cons i j =>
    match m.roots[i]?, m.roots[j]? with
    | some car, some cdr => m.alloc (.pair (.strong car) (.strong cdr)) .pair
    | _, _ => m
  | .makeVector n i =>
    match m.roots[i]? with
    | some fill => m.alloc (.vector (List.replicate n (.strong fill))) .vector
    | none => m
  | .makeHashtable => m.alloc (.hashtable [] []) .hashtable
  | .get i p =>
    match m.roots[i]?.bind Data.Value.heapAddr with
    | some a => ((m.heap.readAt a p).map m.push).getD m
    | none => m
  | act =>
    match m.storeOf act with
    | some s => π.store m.roots s
    | none => m

/-! ### The two heaps -/

/-- `value_is_acyclic_leaf`. -/
def valueIsAcyclicLeaf : Data.Value → Bool
  | .pair _ | .vector _ | .hashtable _ | .promise _ | .procedure _ => false
  | _ => true

/-- **When a store demotes the slot it has written**: `check_and_break` finds a cycle, the value
has more than three strong references, and it leads back to the container. -/
def breaks (limit : ℕ) (roots : List Data.Value) (s : Store) : Bool :=
  !valueIsAcyclicLeaf s.value && cycleCheck s.heap s.container limit &&
    s.value.heapAddr.any (fun a => 3 < strongCount s.heap roots a + s.transient) &&
    valueReachesContainer s.heap s.container limit s.value

/-- The heap of the runtime. -/
def Policy.counted (limit : ℕ) : Policy where
  free := reclaim
  written roots s :=
    if breaks limit roots s then
      reclaim roots (s.heap.setSlot s.container s.place (.demoted s.value))
    else s.heap

/-- The ideal heap: nothing is demoted or freed. -/
def Policy.ideal : Policy where
  free _ h := h
  written _ s := s.heap

/-- A store whose slot was written, and what the slot held before released. -/
def Store.after (roots : List Data.Value) (s : Store) : Store :=
  { s with heap := reclaim roots (s.heap.setSlot s.container s.place (.strong s.value)) }

/-- **No step demotes a slot, unless it stores a container in itself.** -/
def Keeps (limit : ℕ) (m : Memory) (act : Action) : Prop :=
  ∀ s ∈ m.storeOf act, breaks limit m.roots (s.after m.roots) = true →
    s.value.heapAddr = some s.container

instance (limit : ℕ) (m : Memory) (act : Action) : Decidable (Keeps limit m act) :=
  inferInstanceAs (Decidable (∀ s ∈ m.storeOf act, _))

/-! ### Undoing demotions -/

/-- The value stored in a slot. -/
def Slot.value : Slot → Data.Value
  | strong v => v
  | demoted v => v

/-- The slot as it was stored. -/
def Slot.restore (s : Slot) : Slot := .strong s.value

variable {b : ℕ} {o : Object} {p : Place}

namespace Object

/-- The object as the program has stored it. -/
def restore : Object → Object
  | pair car cdr => pair car.restore cdr.restore
  | vector items => vector (items.map Slot.restore)
  | hashtable items custom => hashtable (items.map fun kv => (kv.1, kv.2.restore)) custom
  | o => o

/-- Only slots that refer to the object itself are demoted. -/
def Harmless (c : ℕ) (o : Object) : Prop :=
  ∀ p v, o.slot? p = some (.demoted v) → v.heapAddr = some c

lemma slot?_restore (o : Object) (p : Place) : o.restore.slot? p = (o.slot? p).map Slot.restore := by
  cases o <;> cases p <;> simp [restore, slot?, Function.comp_def]

variable {α : Type} {f : α → α}

lemma getElem?_modify_map {β : Type} {g : α → β} {b : β} (hf : ∀ x, g (f x) = b) (l : List α)
    (k j : ℕ) : (l.modify k f)[j]?.map g = if j = k then l[k]?.map fun _ => b else l[j]?.map g := by
  by_cases hj : j = k
  · subst hj
    simp [hf, Function.comp_def]
  · have hj' : ¬ k = j := fun heq => hj heq.symm
    simp [hj, hj']

lemma slot?_setSlot (o : Object) (p q : Place) (s : Slot) :
    (o.setSlot p s).slot? q = if q = p then (o.slot? p).map fun _ => s else o.slot? q := by
  cases o with
  | vector items =>
    cases p with
    | item k =>
      cases q with
      | item j =>
        have := getElem?_modify_map (fun _ : Slot => rfl : ∀ x, id ((fun _ => s) x) = s)
          items k j
        simpa [setSlot, slot?] using this
      | _ => simp [setSlot, slot?]
    | _ => cases q <;> simp [setSlot, slot?]
  | hashtable items custom =>
    cases p with
    | entry k =>
      cases q with
      | entry j =>
        have := getElem?_modify_map (f := fun kv : Data.Value × Slot => (kv.1, s)) (g := Prod.snd)
          (fun _ => rfl) items k j
        simpa [setSlot, slot?, Function.comp_def] using this
      | _ => simp [setSlot, slot?]
    | _ => cases q <;> simp [setSlot, slot?]
  | _ => cases p <;> cases q <;> simp [setSlot, slot?]

lemma map_modify_comm {β : Type} {g : α → β} (f' : β → β) (hf : ∀ x, g (f x) = f' (g x))
    (l : List α) (k : ℕ) : (l.modify k f).map g = (l.map g).modify k f' := by
  refine List.ext_getElem? fun j => ?_
  rw [List.getElem?_map, List.getElem?_modify, List.getElem?_modify, List.getElem?_map]
  cases l[j]? with
  | none => rfl
  | some x => by_cases hj : k = j <;> simp [hj, hf]

lemma restore_setSlot (o : Object) (p : Place) (s : Slot) :
    (o.setSlot p s).restore = o.restore.setSlot p s.restore := by
  cases o with
  | vector items =>
    cases p with
    | item k =>
      simp only [setSlot, restore]
      rw [map_modify_comm (fun _ => s.restore) fun _ => rfl]
    | _ => simp [setSlot, restore]
  | hashtable items custom =>
    cases p with
    | entry k =>
      simp only [setSlot, restore]
      rw [map_modify_comm (fun kv => (kv.1, s.restore)) fun _ => rfl]
    | _ => simp [setSlot, restore]
  | _ => cases p <;> simp [setSlot, restore]

lemma modify_eq_self {l : List α} {k : ℕ} (hf : ∀ x, l[k]? = some x → f x = x)
    : l.modify k f = l := by
  refine List.ext_getElem? fun j => ?_
  rw [List.getElem?_modify]
  cases hx : l[j]? with
  | none => rfl
  | some x =>
    by_cases hj : k = j
    · subst hj
      simp [hf x hx]
    · simp [hj]

lemma setSlot_slot (o : Object) (p : Place) (s : Slot) (hs : ∀ s', o.slot? p = some s' → s' = s) :
    o.setSlot p s = o := by
  cases o with
  | vector items =>
    cases p with
    | item k => simp only [setSlot, modify_eq_self fun x hx => (hs x hx).symm]
    | _ => rfl
  | hashtable items custom =>
    cases p with
    | entry k =>
      have : items.modify k (fun kv => (kv.1, s)) = items := by
        refine modify_eq_self fun x hx => ?_
        rw [← hs x.2 (by simp [slot?, hx])]
      simp only [setSlot, this]
    | _ => rfl
  | pair car cdr => cases p <;> simp_all [setSlot, slot?]
  | _ => cases p <;> rfl

lemma mem_refs : b ∈ o.refs ↔ ∃ v ∈ o.slots, v.heapAddr = some b := by
  rw [refs, List.mem_filterMap]

lemma raw_mem_slots {s : Slot} (hs : o.slot? p = some s) : s.raw ∈ o.slots := by
  cases o with
  | pair car cdr => cases p <;> simp_all [slot?, slots]
  | vector items =>
    cases p with
    | item k => exact List.mem_map_of_mem (List.mem_of_getElem? hs)
    | _ => cases hs
  | hashtable items custom =>
    cases p with
    | entry k =>
      obtain ⟨kv, hkv, rfl⟩ := Option.map_eq_some_iff.1 hs
      simp only [slots, List.mem_append, List.mem_flatMap]
      exact .inl ⟨kv, List.mem_of_getElem? hkv, by simp⟩
    | _ => cases hs
  | _ => cases p <;> cases hs

lemma mem_refs_restore (hb : b ∈ o.restore.refs) :
    b ∈ o.refs ∨ ∃ p v, o.slot? p = some (.demoted v) ∧ v.heapAddr = some b := by
  rw [mem_refs] at hb ⊢
  obtain ⟨v, hv, hb⟩ := hb
  have hslot : ∀ (p : Place) (s : Slot), o.slot? p = some s → s.raw ∈ o.slots → v = s.value →
      (∃ v ∈ o.slots, v.heapAddr = some b) ∨
        ∃ p v, o.slot? p = some (.demoted v) ∧ v.heapAddr = some b := by
    intro p s hs hraw hv
    subst hv
    cases s with
    | strong w => exact .inl ⟨w, hraw, hb⟩
    | demoted w => exact .inr ⟨p, w, hs, hb⟩
  cases o with
  | pair car cdr =>
    simp only [restore, slots, List.mem_cons, List.not_mem_nil,
      or_false] at hv
    rcases hv with hv | hv
    · exact hslot .car car rfl (by simp [slots]) hv
    · exact hslot .cdr cdr rfl (by simp [slots]) hv
  | vector items =>
    simp only [restore, slots, List.map_map, List.mem_map] at hv
    obtain ⟨s, hs, rfl⟩ := hv
    obtain ⟨k, hk⟩ := List.mem_iff_getElem?.1 hs
    exact hslot (.item k) s hk (List.mem_map_of_mem hs) rfl
  | hashtable items custom =>
    simp only [restore, slots, List.flatMap_map, List.mem_append, List.mem_flatMap,
      List.mem_cons, List.not_mem_nil, or_false] at hv
    rcases hv with ⟨⟨key, s⟩, hs, hv | hv⟩ | hv
    · exact .inl ⟨v, by simp only [slots, List.mem_append, List.mem_flatMap]
                        exact .inl ⟨_, hs, by simp [hv]⟩, hb⟩
    · obtain ⟨k, hk⟩ := List.mem_iff_getElem?.1 hs
      refine hslot (.entry k) s (by simp [slot?, hk]) ?_ hv
      simp only [slots, List.mem_append, List.mem_flatMap]
      exact .inl ⟨_, hs, by simp⟩
    · exact .inl ⟨v, by simp [slots, hv], hb⟩
  | _ => exact .inl ⟨v, hv, hb⟩

lemma mem_modify {l : List α} {k : ℕ} {x : α} (hx : x ∈ l.modify k f) :
    x ∈ l ∨ ∃ y ∈ l, x = f y := by
  obtain ⟨j, hj⟩ := List.mem_iff_getElem?.1 hx
  rw [List.getElem?_modify] at hj
  cases hy : l[j]? with
  | none => simp [hy] at hj
  | some y =>
    have hmem := List.mem_of_getElem? hy
    rw [hy, Option.map_eq_map, Option.map_some, Option.some.injEq] at hj
    split at hj
    · exact .inr ⟨y, hmem, hj.symm⟩
    · exact .inl (hj ▸ hmem)

lemma mem_refs_setSlot {s : Slot} (hb : b ∈ (o.setSlot p s).refs)
    : b ∈ o.refs ∨ s.raw.heapAddr = some b := by
  rw [mem_refs] at hb ⊢
  obtain ⟨w, hw, hb⟩ := hb
  suffices hmem : w ∈ o.slots ∨ w = s.raw by
    rcases hmem with hmem | rfl
    · exact .inl ⟨w, hmem, hb⟩
    · exact .inr hb
  cases o with
  | pair car cdr =>
    cases p <;> simp_all [setSlot, slots] <;> tauto
  | vector items =>
    cases p with
    | item k =>
      simp only [setSlot, slots, List.mem_map] at hw ⊢
      obtain ⟨s', hs, rfl⟩ := hw
      rcases mem_modify hs with hs | ⟨_, _, rfl⟩
      · exact .inl ⟨s', hs, rfl⟩
      · exact .inr rfl
    | _ => exact .inl hw
  | hashtable items custom =>
    cases p with
    | entry k =>
      simp only [setSlot, slots, List.mem_append, List.mem_flatMap] at hw ⊢
      rcases hw with ⟨kv, hkv, hw⟩ | hw
      · rcases mem_modify hkv with hkv | ⟨kv', hkv', rfl⟩
        · exact .inl (.inl ⟨kv, hkv, hw⟩)
        · simp only [List.mem_cons, List.not_mem_nil, or_false] at hw
          rcases hw with rfl | rfl
          · exact .inl (.inl ⟨kv', hkv', by simp⟩)
          · exact .inr rfl
      · exact .inl (.inr hw)
    | _ => exact .inl hw
  | _ => cases p <;> exact .inl hw

end Object

/-! ### The heaps agree -/

/-- **The heap of the runtime and the ideal heap agree**: what lives is what was stored, only
slots that refer to their own object are demoted, and what the program can reach lives. -/
structure Sim (m id : Memory) : Prop where
  roots : m.roots = id.roots
  length : m.heap.length = id.heap.length
  agree : ∀ (a : ℕ) (o : Object), m.heap[a]? = some (some o) →
    id.heap[a]? = some (some o.restore) ∧ o.Harmless a
  live : ∀ a, Reachable id.heap id.roots a → m.heap.live a = true

section Simulation

variable {m id : Memory}
variable {h : Heap} {a c limit : ℕ} {roots : List Data.Value} {v : Data.Value}

lemma Heap.refs_of_getElem? (ha : h[a]? = some (some o)) : h.refs a = o.refs := by
  rw [Heap.refs, ha]
  rfl

lemma Sim.reachable (hs : Sim m id) (ha : Reachable id.heap id.roots a) :
    Reachable m.heap m.roots a := by
  obtain ⟨r, hr, hra⟩ := ha
  refine ⟨r, hs.roots ▸ hr, ?_⟩
  induction hra with
  | refl => exact .refl
  | @tail b c hrb hbc ih =>
    obtain ⟨o, ho⟩ := Heap.live_iff.1 (hs.live b ⟨r, hr, hrb⟩)
    obtain ⟨ho', hharm⟩ := hs.agree b o ho
    rw [Heap.Edge, Heap.refs_of_getElem? ho'] at hbc
    rcases mem_refs_restore hbc with hc | ⟨p, v, hslot, hv⟩
    · exact ih.tail (by rwa [Heap.Edge, Heap.refs_of_getElem? ho])
    · rw [hharm p v hslot, Option.some.injEq] at hv
      exact hv ▸ ih

lemma Sim.free (hs : Sim m id) : Sim { m with heap := reclaim m.roots m.heap } id where
  roots := hs.roots
  length := (remains_reclaim _ _).length_eq.trans hs.length
  agree := by
    intro a o ho
    have hlive : (reclaim m.roots m.heap).live a = true := Heap.live_iff.2 ⟨o, ho⟩
    exact hs.agree a o ((remains_reclaim m.roots m.heap).live hlive ▸ ho)
  live := by
    intro a ha
    rw [Heap.live, getElem?_reclaim (hs.reachable ha)]
    exact hs.live a ha

lemma Sim.shrink (hs : Sim m id) (hsub : roots ⊆ id.roots) :
    Sim { m with roots := roots } { id with roots := roots } where
  roots := rfl
  length := hs.length
  agree := hs.agree
  live := by
    rintro a ⟨r, hr, hra⟩
    obtain ⟨v, hv, hvr⟩ := List.mem_filterMap.1 hr
    exact hs.live a ⟨r, List.mem_filterMap.2 ⟨v, hsub hv, hvr⟩, hra⟩

lemma Sim.push (hs : Sim m id) (hv : ∀ a, v.heapAddr = some a → Reachable id.heap id.roots a) :
    Sim (m.push v) (id.push v) where
  roots := by simp [Memory.push, hs.roots]
  length := hs.length
  agree := hs.agree
  live := by
    rintro a ⟨r, hr, hra⟩
    obtain ⟨w, hw, hwr⟩ := List.mem_filterMap.1 hr
    rcases List.mem_append.1 hw with hw | hw
    · exact hs.live a ⟨r, List.mem_filterMap.2 ⟨w, hw, hwr⟩, hra⟩
    · obtain rfl := List.mem_singleton.1 hw
      obtain ⟨r', hr', hr'r⟩ := hv r hwr
      exact hs.live a ⟨r', hr', hr'r.trans hra⟩

lemma Sim.alloc (hs : Sim m id) {ref : ℕ → Data.Value} (href : ∀ a, (ref a).heapAddr = some a)
    (hrestore : o.restore = o) (hharm : ∀ c, o.Harmless c)
    (hrefs : ∀ b ∈ o.refs, Reachable id.heap id.roots b) :
    Sim (m.alloc o ref) (id.alloc o ref) := by
  have hlen := hs.length
  refine ⟨by simp [Memory.alloc, hs.roots, hlen], by simp [Memory.alloc, hlen], fun a o' ho' => ?_,
    fun a ha => ?_⟩
  · rcases Nat.lt_trichotomy a m.heap.length with hlt | heq | hgt
    · simp only [Memory.alloc, List.getElem?_append_left hlt,
        List.getElem?_append_left (hlen ▸ hlt)] at ho' ⊢
      exact hs.agree a o' ho'
    · subst heq
      simp only [Memory.alloc, List.getElem?_concat_length, Option.some.injEq] at ho'
      subst ho'
      simp only [Memory.alloc]
      rw [hlen, List.getElem?_concat_length, hrestore]
      exact ⟨rfl, hharm _⟩
    · rw [Memory.alloc, List.getElem?_eq_none (by simp; omega)] at ho'
      cases ho'
  · -- the new heap reaches the new object and what was reachable before
    have hreach : a = id.heap.length ∨ Reachable id.heap id.roots a := by
      obtain ⟨r, hr, hra⟩ := ha
      induction hra with
      | refl =>
        obtain ⟨w, hw, hwr⟩ := List.mem_filterMap.1 hr
        rcases List.mem_append.1 hw with hw | hw
        · exact .inr ⟨r, List.mem_filterMap.2 ⟨w, hw, hwr⟩, .refl⟩
        · obtain rfl := List.mem_singleton.1 hw
          rw [href, Option.some.injEq] at hwr
          exact .inl hwr.symm
      | @tail b c _ hbc ih =>
        by_cases hb : b = id.heap.length
        · subst hb
          refine .inr (hrefs c ?_)
          rwa [Heap.Edge, Heap.refs_of_getElem? (o := o) (by simp [Memory.alloc])] at hbc
        · refine .inr ((ih.resolve_left hb).tail ?_)
          obtain ⟨o', ho'⟩ := Heap.live_iff.1 (Heap.live_of_mem_refs hbc)
          have hlt : b < id.heap.length := by
            have := (List.getElem?_eq_some_iff.1 ho').1
            simp [Memory.alloc] at this
            omega
          rw [Memory.alloc, List.getElem?_append_left hlt] at ho'
          rw [Heap.Edge, Heap.refs_of_getElem?
            (by rw [Memory.alloc, List.getElem?_append_left hlt, ho'])] at hbc
          rwa [Heap.Edge, Heap.refs_of_getElem? ho']
    rw [Heap.live_iff]
    rcases hreach with rfl | hreach
    · exact ⟨o, by simp [Memory.alloc, ← hlen]⟩
    · obtain ⟨o', ho'⟩ := Heap.live_iff.1 (hs.live a hreach)
      have hlt := (List.getElem?_eq_some_iff.1 ho').1
      exact ⟨o', by rw [Memory.alloc, List.getElem?_append_left hlt, ho']⟩

lemma Sim.update (hs : Sim m id) (o' : Object) (ho : m.heap[c]? = some (some o))
    (hharm : o'.Harmless c)
    (hrefs : ∀ b ∈ o'.restore.refs, b ∈ o.restore.refs ∨ Reachable id.heap id.roots b) :
    Sim { m with heap := m.heap.set c (some o') }
      { id with heap := id.heap.set c (some o'.restore) } := by
  have hc : c < m.heap.length := (List.getElem?_eq_some_iff.1 ho).1
  have hc' : c < id.heap.length := hs.length ▸ hc
  have hid := (hs.agree c o ho).1
  refine ⟨hs.roots, by simp [hs.length], fun a o1 ho1 => ?_, fun a ha => ?_⟩
  · by_cases hac : a = c
    · subst hac
      rw [List.getElem?_set_self hc, Option.some.injEq, Option.some.injEq] at ho1
      subst ho1
      exact ⟨List.getElem?_set_self hc', hharm⟩
    · rw [List.getElem?_set_ne (Ne.symm hac)] at ho1 ⊢
      exact hs.agree a o1 ho1
  · -- nothing new is reachable
    have hreach : Reachable id.heap id.roots a := by
      obtain ⟨r, hr, hra⟩ := ha
      induction hra with
      | refl => exact ⟨r, hr, .refl⟩
      | @tail b d _ hbd ih =>
        by_cases hb : b = c
        · subst hb
          rw [Heap.Edge, Heap.refs_of_getElem? (List.getElem?_set_self hc')] at hbd
          rcases hrefs d hbd with hd | hd
          · exact ih.tail (by rwa [Heap.Edge, Heap.refs_of_getElem? hid])
          · exact hd
        · refine ih.tail ?_
          rwa [Heap.Edge, Heap.refs, List.getElem?_set_ne (Ne.symm hb)] at hbd
    have hlive := hs.live a hreach
    by_cases hac : a = c
    · subst hac
      exact Heap.live_iff.2 ⟨o', List.getElem?_set_self hc⟩
    · rwa [Heap.live, List.getElem?_set_ne (Ne.symm hac)]

lemma Heap.setSlot_eq (ho : h[c]? = some (some o)) (p : Place) (s : Slot)
    : h.setSlot c p s = h.set c (some (o.setSlot p s)) := by
  refine List.ext_getElem? fun j => ?_
  have hc := (List.getElem?_eq_some_iff.1 ho).1
  rw [Heap.setSlot, List.getElem?_modify, List.getElem?_set]
  by_cases hj : c = j
  · subst hj
    rw [ho, if_pos hc]
    simp
  · simp [hj]

lemma Sim.write (hs : Sim m id) (hc : Reachable id.heap id.roots c)
    (hv : ∀ a, v.heapAddr = some a → Reachable id.heap id.roots a) (p : Place) :
    Sim { m with heap := m.heap.setSlot c p (.strong v) }
      { id with heap := id.heap.setSlot c p (.strong v) } := by
  obtain ⟨o, ho⟩ := Heap.live_iff.1 (hs.live c hc)
  obtain ⟨hid, hharm⟩ := hs.agree c o ho
  have hrestore := restore_setSlot o p (.strong v)
  rw [Heap.setSlot_eq ho, Heap.setSlot_eq hid, show Slot.strong v = Slot.restore (.strong v) from rfl,
    ← hrestore]
  refine hs.update _ ho (fun q w hq => ?_) fun b hb => ?_
  · rw [slot?_setSlot] at hq
    split at hq
    · cases ho' : o.slot? p <;> simp [Slot.restore] at hq
    · exact hharm q w hq
  · rw [show Slot.restore (.strong v) = .strong v from rfl, hrestore] at hb
    exact (mem_refs_setSlot hb).imp_right (hv b)

lemma Sim.demote (hs : Sim m id) (hc : Reachable id.heap id.roots c) (hv : v.heapAddr = some c)
    (hslot : ∀ o s, m.heap[c]? = some (some o) → o.slot? p = some s → s = .strong v) :
    Sim { m with heap := m.heap.setSlot c p (.demoted v) } id := by
  obtain ⟨o, ho⟩ := Heap.live_iff.1 (hs.live c hc)
  obtain ⟨hid, hharm⟩ := hs.agree c o ho
  have hrestore : (o.setSlot p (.demoted v)).restore = o.restore := by
    rw [restore_setSlot]
    refine setSlot_slot _ _ _ fun s hs' => ?_
    rw [slot?_restore] at hs'
    obtain ⟨s', hs'', rfl⟩ := Option.map_eq_some_iff.1 hs'
    rw [hslot o s' ho hs'']
    rfl
  have hsim := hs.update (o.setSlot p (.demoted v)) ho (fun q w hq => ?_) fun b hb => ?_
  · rw [hrestore] at hsim
    rw [Heap.setSlot_eq ho]
    have hself : id.heap.set c (some o.restore) = id.heap := by
      refine List.ext_getElem? fun j => ?_
      rw [List.getElem?_set]
      split
      · rename_i hj
        subst hj
        rw [if_pos (List.getElem?_eq_some_iff.1 hid).1, hid]
      · rfl
    rwa [hself] at hsim
  · rw [slot?_setSlot] at hq
    split at hq
    · obtain ⟨_, _, heq⟩ := Option.map_eq_some_iff.1 hq
      cases heq
      exact hv
    · exact hharm q w hq
  · rw [hrestore] at hb
    exact .inl hb

lemma Sim.readAt (hs : Sim m id) (ha : Reachable id.heap id.roots a) (p : Place) :
    m.heap.readAt a p = id.heap.readAt a p := by
  have hlive := hs.live a ha
  obtain ⟨o, ho⟩ := Heap.live_iff.1 hlive
  obtain ⟨hid, hharm⟩ := hs.agree a o ho
  rw [Heap.readAt, Heap.readAt, ho, hid]
  simp only [Option.getD_some, Option.bind_some, slot?_restore]
  cases hslot : o.slot? p with
  | none => rfl
  | some s =>
    cases s with
    | strong v => rfl
    | demoted v =>
      simp [Heap.readSlot, Slot.restore, Slot.value, hharm p v hslot, hlive]

lemma Sim.reachable_readAt (hs : Sim m id) (ha : Reachable id.heap id.roots a)
    (hv : id.heap.readAt a p = some v) (hb : v.heapAddr = some b)
    : Reachable id.heap id.roots b := by
  obtain ⟨o, ho⟩ := Heap.live_iff.1 (hs.live a ha)
  obtain ⟨hid, -⟩ := hs.agree a o ho
  rw [Heap.readAt, hid, Option.getD_some, Option.bind_some, Option.map_eq_some_iff] at hv
  obtain ⟨s, hslot, hv⟩ := hv
  have hmem := raw_mem_slots hslot
  rw [slot?_restore, Option.map_eq_some_iff] at hslot
  obtain ⟨s', -, rfl⟩ := hslot
  refine ha.tail ?_
  rw [Heap.Edge, Heap.refs_of_getElem? hid, mem_refs]
  exact ⟨v, hv ▸ hmem, hb⟩

lemma mem_rootRefs_of_getElem? {i : ℕ} (hi : roots[i]? = some v) (ha : v.heapAddr = some a)
    : a ∈ rootRefs roots :=
  List.mem_filterMap.2 ⟨v, List.mem_of_getElem? hi, ha⟩

lemma Reachable.of_root {i : ℕ} (hi : roots[i]? = some v) (ha : v.heapAddr = some a) :
    Reachable h roots a := ⟨a, mem_rootRefs_of_getElem? hi ha, .refl⟩

lemma counted_store (limit : ℕ) (roots : List Data.Value) (s : Store) :
    (Policy.counted limit).store roots s = ⟨if breaks limit roots (s.after roots) then
      reclaim roots ((s.after roots).heap.setSlot s.container s.place (.demoted s.value))
      else (s.after roots).heap, roots⟩ := rfl

lemma Heap.getElem?_setSlot_self (h : Heap) (c : ℕ) (p : Place) (s : Slot) :
    (h.setSlot c p s)[c]? = h[c]?.map fun o => o.map fun o => o.setSlot p s := by
  rw [Heap.setSlot]
  simp

/-- **The same store on both heaps**, of a value the program holds in a container it holds. -/
structure SameStore (roots : List Data.Value) (st st' : Store) : Prop where
  sim : Sim ⟨st.heap, roots⟩ ⟨st'.heap, roots⟩
  container : st'.container = st.container
  place : st'.place = st.place
  value : st'.value = st.value
  held : st.container ∈ rootRefs roots
  value_held : ∀ a, st.value.heapAddr = some a → a ∈ rootRefs roots

lemma SameStore.store {st st' : Store} (hs : SameStore roots st st')
    (hkeep : breaks limit roots (st.after roots) = true → st.value.heapAddr = some st.container) :
    Sim ((Policy.counted limit).store roots st) (Policy.ideal.store roots st') := by
  have hwritten := (hs.sim.write ⟨_, hs.held, .refl⟩
    (fun a ha => ⟨a, hs.value_held a ha, .refl⟩) st.place).free
  have hid : Policy.ideal.store roots st' =
      ⟨st'.heap.setSlot st.container st.place (.strong st.value), roots⟩ := by
    rw [← hs.container, ← hs.place, ← hs.value]
    rfl
  rw [hid, counted_store]
  split
  · rename_i hb
    refine (Sim.demote (m := ⟨(st.after roots).heap, roots⟩) hwritten ⟨_, hs.held, .refl⟩
      (hkeep hb) fun o s ho hslot => ?_).free
    -- the slot holds what was just stored
    have hlive := (remains_reclaim roots _).live (Heap.live_iff.2 ⟨o, ho⟩)
    rw [show (st.after roots).heap = reclaim roots _ from rfl, hlive,
      Heap.getElem?_setSlot_self] at ho
    obtain ⟨o', -, ho'⟩ := Option.map_eq_some_iff.1 ho
    obtain ⟨o'', -, rfl⟩ := Option.map_eq_some_iff.1 ho'
    rw [slot?_setSlot, if_pos rfl] at hslot
    obtain ⟨_, -, rfl⟩ := Option.map_eq_some_iff.1 hslot
    rfl
  · exact hwritten

lemma Sim.entry (hs : Sim m id) {items : List (Data.Value × Slot)} {custom : List Data.Value}
    (ho : m.heap[a]? = some (some (.hashtable items custom))) {k : Data.Value}
    (hk : ∀ b, k.heapAddr = some b → Reachable id.heap id.roots b)
    (hv : ∀ b, v.heapAddr = some b → Reachable id.heap id.roots b) :
    Sim ⟨m.heap.set a (some (.hashtable (items ++ [(k, .strong v)]) custom)), m.roots⟩
      ⟨id.heap.set a (some (restore (.hashtable (items ++ [(k, .strong v)]) custom))),
        id.roots⟩ := by
  refine hs.update _ ho (fun p w hp => ?_) fun b hb => ?_
  · refine (hs.agree a _ ho).2 p w ?_
    cases p with
    | entry j =>
      rcases Nat.lt_trichotomy j items.length with hj | rfl | hj
      · rwa [slot?, List.getElem?_append_left hj] at hp
      · simp [slot?] at hp
      · simp [slot?, List.getElem?_eq_none (show (items ++ [(k, Slot.strong v)]).length ≤ j by
          simpa using hj)] at hp
    | _ => cases hp
  · rw [mem_refs] at hb ⊢
    obtain ⟨w, hw, hb⟩ := hb
    simp only [restore, slots, List.map_append, List.flatMap_append, List.map_cons,
      List.map_nil, List.flatMap_cons, List.flatMap_nil, List.mem_append, List.mem_cons,
      List.not_mem_nil, or_false] at hw ⊢
    rcases hw with (hw | rfl | rfl) | hw
    · exact .inl ⟨w, .inl hw, hb⟩
    · exact .inr (hk b hb)
    · exact .inr (hv b hb)
    · exact .inl ⟨w, .inr hw, hb⟩

lemma Sim.storeOf {h' : Heap} (hs : Sim ⟨h, roots⟩ ⟨h', roots⟩) (act : Action) :
    (Memory.storeOf ⟨h, roots⟩ act = none ∧ Memory.storeOf ⟨h', roots⟩ act = none) ∨
      ∃ st st', Memory.storeOf ⟨h, roots⟩ act = some st ∧
        Memory.storeOf ⟨h', roots⟩ act = some st' ∧ SameStore roots st st' := by
  -- the container and the value are arguments of the call
  have hsame : ∀ {i j a k : ℕ} {c v : Data.Value} (p : Place), roots[i]? = some c →
      c.heapAddr = some a → roots[j]? = some v → SameStore roots ⟨h, a, p, v, k⟩ ⟨h', a, p, v, k⟩ :=
    fun p hi ha hj => ⟨hs, rfl, rfl, rfl, mem_rootRefs_of_getElem? hi ha,
      fun _ => mem_rootRefs_of_getElem? hj⟩
  cases act with
  | setCar i j =>
    simp only [Memory.storeOf]
    split
    · next hi hj => exact .inr ⟨_, _, rfl, rfl, hsame .car hi rfl hj⟩
    · exact .inl ⟨rfl, rfl⟩
  | setCdr i j =>
    simp only [Memory.storeOf]
    split
    · next hi hj => exact .inr ⟨_, _, rfl, rfl, hsame .cdr hi rfl hj⟩
    · exact .inl ⟨rfl, rfl⟩
  | vectorSet i k j =>
    simp only [Memory.storeOf]
    split
    · next hi hj =>
      have hread := hs.readAt (.of_root hi rfl) (.item k)
      simp only [show h.readAt _ _ = _ from hread]
      split
      · exact .inr ⟨_, _, rfl, rfl, hsame (.item k) hi rfl hj⟩
      · exact .inl ⟨rfl, rfl⟩
    · exact .inl ⟨rfl, rfl⟩
  | hashtableSet i key found j =>
    simp only [Memory.storeOf]
    split
    · next a k v hi hk hj =>
      have ha := mem_rootRefs_of_getElem? hi rfl
      obtain ⟨o, ho⟩ := Heap.live_iff.1 (hs.live a ⟨a, ha, .refl⟩)
      obtain ⟨ho', hharm⟩ := hs.agree a o ho
      simp only [ho, ho', Option.getD_some]
      cases o with
      | hashtable items custom =>
        simp only [restore, List.length_map]
        refine .inr ⟨_, _, rfl, rfl, ?_, rfl, rfl, rfl, ha, fun _ => mem_rootRefs_of_getElem? hj⟩
        by_cases hidx : (found.filter (· < items.length)).getD items.length = items.length
        · simp only [hidx, if_true]
          simpa [restore, Slot.restore, Slot.value] using hs.entry ho
            (fun _ => .of_root hk) fun _ => .of_root hj
        · simp only [hidx]
          exact hs.update _ ho hharm fun b hb => .inl hb
      | _ => exact .inl ⟨rfl, rfl⟩
    · exact .inl ⟨rfl, rfl⟩
  | _ => exact .inl ⟨rfl, rfl⟩

/-- **One step.** -/
lemma Sim.step (hs : Sim m id) {act : Action} (hkeep : Keeps limit m act) :
    Sim (Gc.step (Policy.counted limit) act m) (Gc.step Policy.ideal act id) := by
  obtain ⟨h, roots⟩ := m
  obtain ⟨h', roots'⟩ := id
  obtain rfl : roots = roots' := hs.roots
  have hstore : Sim
      (match Memory.storeOf ⟨h, roots⟩ act with
        | some s => (Policy.counted limit).store roots s
        | none => ⟨h, roots⟩)
      (match Memory.storeOf ⟨h', roots⟩ act with
        | some s => Policy.ideal.store roots s
        | none => ⟨h', roots⟩) := by
    rcases hs.storeOf act with ⟨hnone, hnone'⟩ | ⟨st, st', hst, hst', hsame⟩
    · rw [hnone, hnone']
      exact hs
    · rw [hst, hst']
      exact hsame.store (hkeep st hst)
  cases act with
  | immediate v =>
    simp only [Gc.step]
    split
    · rename_i hv
      exact hs.push fun a ha => by rw [hv] at ha; cases ha
    · exact hs
  | dup i =>
    simp only [Gc.step]
    cases hi : roots[i]? with
    | none => exact hs
    | some v => exact hs.push fun _ => .of_root hi
  | drop i =>
    simp only [Gc.step]
    exact (hs.shrink (List.eraseIdx_subset)).free
  | cons i j =>
    simp only [Gc.step]
    split
    · next hi hj =>
      refine hs.alloc (fun _ => rfl) rfl (fun c p v hp => ?_) fun b hb => ?_
      · cases p <;> simp [slot?] at hp
      · obtain ⟨v, hv, hvb⟩ := mem_refs.1 hb
        simp only [slots, List.mem_cons, List.not_mem_nil, or_false] at hv
        rcases hv with rfl | rfl
        · exact .of_root hi hvb
        · exact .of_root hj hvb
    · exact hs
  | makeVector n i =>
    simp only [Gc.step]
    cases hi : roots[i]? with
    | none => exact hs
    | some fill =>
      refine hs.alloc (fun _ => rfl) (by simp [restore, Slot.restore, Slot.value])
        (fun c p v hp => ?_) fun b hb => ?_
      · cases p with
        | item k =>
          have := List.mem_of_getElem? hp
          simp at this
        | _ => simp [slot?] at hp
      · obtain ⟨v, hv, hvb⟩ := mem_refs.1 hb
        simp only [slots, List.map_replicate, Slot.raw, List.mem_replicate] at hv
        exact .of_root hi (hv.2 ▸ hvb)
  | makeHashtable =>
    refine hs.alloc (fun _ => rfl) rfl (fun c p v hp => ?_) (by rintro _ ⟨⟩)
    cases p <;> simp [slot?] at hp
  | get i p =>
    simp only [Gc.step]
    cases hi : roots[i]?.bind Data.Value.heapAddr with
    | none => exact hs
    | some a =>
      obtain ⟨c, hc, hca⟩ := Option.bind_eq_some_iff.1 hi
      have ha : Reachable h' roots a := .of_root hc hca
      simp only [show h.readAt a p = _ from hs.readAt ha p]
      cases hread : h'.readAt a p with
      | none => exact hs
      | some v => exact hs.push fun b hb => hs.reachable_readAt ha hread hb
  | setCar i j => exact hstore
  | setCdr i j => exact hstore
  | vectorSet i k j => exact hstore
  | hashtableSet i key found j => exact hstore

/-- **A run.** -/
lemma Sim.run {as : List Action} (hs : Sim m id)
    (has : Actions.Allowed (Gc.step (.counted limit)) (Keeps limit) m as) :
    Sim (Actions.run (Gc.step (.counted limit)) as m) (Actions.run (Gc.step .ideal) as id) := by
  induction as generalizing m id with
  | nil => exact hs
  | cons act as ih => exact ih (hs.step has.1) has.2

end Simulation

/-- A program that has done nothing. -/
def Memory.empty : Memory := ⟨[], []⟩

lemma Sim.empty : Sim .empty .empty where
  roots := rfl
  length := rfl
  agree := fun _ _ ho => by simp [Memory.empty] at ho
  live := by
    rintro a ⟨r, hr, -⟩
    cases hr

/-- **Cycle breaking is not observed** in a run that demotes no slot, or only slots that store a
container in itself: every slot of a container the program can reach reads as the value last stored
in it, as on a heap where nothing is demoted or freed. -/
theorem reads_last_stored (limit : ℕ) (as : List Action)
    (has : Actions.Allowed (step (.counted limit)) (Keeps limit) .empty as) (a : ℕ)
    (ha : Reachable (Actions.run (step .ideal) as .empty).heap
      (Actions.run (step .ideal) as .empty).roots a) (p : Place) :
    (Actions.run (step (.counted limit)) as .empty).heap.readAt a p =
      (Actions.run (step .ideal) as .empty).heap.readAt a p :=
  (Sim.empty.run has).readAt ha p

/-- A pair that is its own cdr, with the other references to it dropped. -/
theorem reads_last_stored_self :
    (Actions.run (step (.counted 10000))
      [.immediate (.boolean true), .cons 0 0, .dup 1, .dup 1, .setCdr 1 1, .drop 3, .drop 2]
      .empty).heap.readAt 0 .cdr = some (.pair 0) := by
  refine (reads_last_stored 10000 _ ?_ 0 ⟨0, by decide +kernel, .refl⟩ .cdr).trans
    (by decide +kernel)
  decide +kernel

/-- **A value is lost.** The second pair has two variables when it becomes the `cdr` of the first,
so the slot is demoted; when both variables are gone, the first pair has lost its `cdr`. -/
theorem cdr_unspecified :
    let as : List Action :=
      [.immediate (.boolean true), .immediate .null, .cons 0 1, .cons 0 2, .dup 3,
        .dup 2, .dup 3, .setCdr 5 6, .drop 6, .drop 5, .drop 4, .drop 3]
    let m := Actions.run (step (.counted 10000)) as .empty
    Reachable m.heap m.roots 0 ∧ m.heap.readAt 0 .cdr = some .unspecified ∧
      (Actions.run (step .ideal) as .empty).heap.readAt 0 .cdr = some (.pair 1) :=
  ⟨⟨0, by decide +kernel, .refl⟩, by decide +kernel, by decide +kernel⟩

end CrabScheme.Gc
