import CrabScheme.Gc.Collector
import CrabScheme.Gc.Mutation
import CrabScheme.Lib.Graph

/-!
# Sweeps

The third phase of a sweep goes over the white nodes and lets every one of them cut a slot that
leads back to it: a pair its `cdr` or, if that does not lead back, its `car`; a hashtable the first
of its values that is a heap value; other objects cut nothing. What has lost its last strong
reference by it is freed.

A structure nothing outside refers to is white as a whole, if a walk from the purple candidates
comes to all of it. When all its nodes had their turn, the references that are left on a cycle are
those that no cut removes; where these do not make a cycle, nothing of the structure lives.

## Main results

* `collect_total` — the third phase comes to an end, with its invariant.
* `sweep_reclaims` — a sweep reclaims a structure that has no uncut cycle.
-/

namespace CrabScheme.Gc

open Relation

/-! ### Cutting a slot -/

section Break

variable (limit : ℕ) (roots : List Data.Value) (h : Heap) (a : ℕ)

/-- `break_cdr_cycle(0)`, `break_car_cycle(0)` and `break_value_cycle_unchecked(i, 0)`: a slot
whose value leads back to its object is demoted, and what has lost its last reference is freed. -/
def breakSlot (p : Place) : Option Heap :=
  match (h[a]?.getD none).bind (·.slot? p) with
  | some (.strong v) =>
    if v.heapAddr.any (fun b => 0 < strongCount h roots b) && valueReachesContainer h a limit v then
      some (reclaim roots (h.setSlot a p (.demoted v)))
    else none
  | _ => none

/-- The values for which `Hashtable::try_break_cycle` looks. -/
def heapBearing : Data.Value → Bool
  | .pair _ | .vector _ | .hashtable _ | .promise _ | .string _ | .byteVector _ => true
  | _ => false

/-- The entry of a hashtable that `try_break_cycle` tries. -/
def breakIndex (items : List (Data.Value × Slot)) : Option ℕ :=
  items.findIdx? fun kv => heapBearing kv.2.raw

/-- **`BreakCycle::try_break_cycle`**, with the heap after a successful break. Vectors and promises
have the default, which does nothing. -/
def tryBreakCycle : Option Heap :=
  match h[a]?.getD none with
  | some (.pair _ _) => (breakSlot limit roots h a .cdr).or (breakSlot limit roots h a .car)
  | some (.hashtable items _) =>
    (breakIndex items).bind fun i => breakSlot limit roots h a (.entry i)
  | _ => none

end Break

/-! ### The third phase -/

/-- The registry, the heap and the number of successful breaks. -/
structure Collect where
  reg : Registry
  heap : Heap
  broken : ℕ

section Collect

variable (limit : ℕ) (roots : List Data.Value)

/-- One round of `collect_white`. -/
def collectWhiteStep (s : Collect) (a : ℕ) : Option (Collect × List ℕ) :=
  if s.reg.candidateColor a ≠ .white then some (s, [])
  else
    let reg := s.reg.setCandidateColor a .black
    let kids := walkCandidateChildren s.heap reg a
    let pushed := (kids.filter fun k => reg.candidateColor k = .white).reverse
    match tryBreakCycle limit roots s.heap a with
    | some h => some (⟨reg, h, s.broken + 1⟩, pushed)
    | none => some (⟨reg, s.heap, s.broken⟩, pushed)

/-- `collect_white`. -/
def collectWhite (s : Collect) (root : ℕ) : Option Collect :=
  Worklist.run (collectWhiteStep limit roots) (rounds s.heap s.reg) s [root]

/-- **The third phase of `run`.** -/
def collect (s : Collect) (order : List ℕ) : Option Collect :=
  order.foldlM (fun s a =>
    if s.reg.candidateColor a = .white then collectWhite limit roots s a else some s) s

end Collect

/-- The candidates that live. -/
def Registry.retain (r : Registry) (h : Heap) : Registry :=
  { r with addrs := r.addrs.filter h.live }

/-- A program and the registry of its thread. -/
structure World where
  memory : Memory
  reg : Registry

/-- **`run_sweep`**, with the order in which the hash map lists the candidates. -/
def runSweep (limit : ℕ) (order : List ℕ) (w : World) : Option World := do
  let t ← classify w.memory.heap w.memory.roots (w.reg.retain w.memory.heap) order
  let s ← collect limit w.memory.roots ⟨t.reg, w.memory.heap, 0⟩ order
  return ⟨{ w.memory with heap := s.heap }, s.reg⟩

/-- What happens between and at sweeps. -/
inductive Event
  | program (act : Action)
  | register (a : ℕ)
  | sweep (order : List ℕ)

/-- The candidates are visited in the order of the hash map. -/
def Lists (w : World) : Event → Prop
  | .sweep order => order.Perm (w.reg.retain w.memory.heap).addrs
  | _ => True

/-- One event. -/
def World.step (limit : ℕ) (ev : Event) (w : World) : World :=
  match ev with
  | .program act => { w with memory := Gc.step (.counted limit) act w.memory }
  | .register a => { w with reg := w.reg.register a }
  | .sweep order => (runSweep limit order w).getD w

/-- Nothing has happened yet. -/
def World.start : World := ⟨.empty, ⟨[], fun _ => .black⟩⟩

/-! ### What a cut leaves -/

/-- **A reference no cut removes**: the `car` of a pair whose `cdr` leads back to it, what a
hashtable holds besides the value its break tries, and everything in objects of other types. -/
def Uncut (h : Heap) (x y : ℕ) : Prop :=
  match h[x]?.getD none with
  | some (.pair car cdr) => car.raw.heapAddr = some y ∧
      ∃ b, cdr.raw.heapAddr = some b ∧ ReflTransGen h.Edge b x
  | some (.hashtable items custom) => ∃ v, v.heapAddr = some y ∧
      (v ∈ items.map Prod.fst ∨ v ∈ custom ∨
        ∃ (i : ℕ) (kv : Data.Value × Slot), items[i]? = some kv ∧ breakIndex items ≠ some i ∧
          kv.2.raw = v)
  | some o => y ∈ o.refs
  | none => False

/-- **A heap after the turn of a node**: its own slots may have been demoted, other objects are as
before or freed, and everything that lives has a strong reference. -/
structure Turn (roots : List Data.Value) (a : ℕ) (h h' : Heap) : Prop where
  other : ∀ x, x ≠ a → h'[x]? = h[x]? ∨ h'.refs x = [] ∧ h'.live x = false
  refs : ∀ x y, y ∈ h'.refs x → y ∈ h.refs x
  live : ∀ x, h'.live x = true → h.live x = true
  tidy : Tidy roots h → Tidy roots h'

section Turns

variable {limit : ℕ} {roots : List Data.Value} {h h' : Heap} {a : ℕ}

lemma Turn.refl : Turn roots a h h :=
  ⟨fun _ _ => .inl rfl, fun _ _ hy => hy, fun _ hx => hx, id⟩

lemma Heap.getElem?_setSlot_of_ne (h : Heap) {c x : ℕ} (hx : x ≠ c) (p : Place) (s : Slot) :
    (h.setSlot c p s)[x]? = h[x]? := by
  rw [Heap.setSlot]
  simp [Ne.symm hx]

lemma turn_demote (p : Place) (v : Data.Value) :
    Turn roots a h (reclaim roots (h.setSlot a p (.demoted v))) := by
  have hrem := remains_reclaim roots (h.setSlot a p (.demoted v))
  have hrefs : ∀ x y, y ∈ (h.setSlot a p (.demoted v)).refs x → y ∈ h.refs x := by
    intro x y hy
    by_cases hx : x = a
    · subst hx
      rw [Heap.refs, Heap.getElem?_setSlot_self] at hy
      unfold Heap.refs
      rcases hx : h[x]? with _ | _ | o
      · simp [hx, cellRefs] at hy
      · simp [hx, cellRefs] at hy
      · simp only [hx] at hy ⊢
        exact (Object.mem_refs_setSlot hy).resolve_right (by simp [Slot.raw, Data.Value.heapAddr])
    · rwa [Heap.refs, Heap.getElem?_setSlot_of_ne h hx] at hy
  refine ⟨fun x hx => ?_, fun x y hy => hrefs x y (hrem.refs_subset hy), fun x hx => ?_,
    fun _ => reclaim_tidy roots _⟩
  · rcases hrem.get x with heq | hnone
    · exact .inl (heq.trans (Heap.getElem?_setSlot_of_ne h hx p _))
    · refine .inr ⟨?_, ?_⟩
      · rw [Heap.refs, hnone]
        rfl
      · rw [Heap.live, hnone]
        rfl
  · have hlive := hrem.live hx
    rw [Heap.live, hlive] at hx
    by_cases hxa : x = a
    · subst hxa
      rw [Heap.getElem?_setSlot_self] at hx
      unfold Heap.live
      rcases hc : h[x]? with _ | _ | o <;> simp [hc] at hx ⊢
    · rwa [Heap.getElem?_setSlot_of_ne h hxa] at hx

lemma breakSlot_eq_some {p : Place} (hb : breakSlot limit roots h a p = some h') :
    ∃ o v b, h[a]? = some (some o) ∧ o.slot? p = some (.strong v) ∧ v.heapAddr = some b ∧
      ReflTransGen h.Edge b a ∧ h' = reclaim roots (h.setSlot a p (.demoted v)) := by
  unfold breakSlot at hb
  split at hb
  · rename_i v hslot
    split at hb
    · rename_i hcond
      rw [Bool.and_eq_true] at hcond
      obtain ⟨b, hvb, hpath⟩ := path_of_valueReachesContainer hcond.2
      obtain ⟨o, ho, hov⟩ := Option.bind_eq_some_iff.1 hslot
      refine ⟨o, v, b, ?_, hov, hvb, hpath, (Option.some.inj hb).symm⟩
      rcases hc : h[a]? with _ | _ | o' <;> simp_all
    · cases hb
  · cases hb

lemma breakSlot_isSome {p : Place} {o : Object} {v : Data.Value} {b : ℕ}
    (ho : h[a]? = some (some o)) (hslot : o.slot? p = some (.strong v)) (hb : v.heapAddr = some b)
    (hpath : ReflTransGen h.Edge b a)
    (hlimit : ∀ l : List ℕ, l.Nodup → (∀ x ∈ l, ReflTransGen h.Edge a x) → l.length ≤ limit) :
    (breakSlot limit roots h a p).isSome = true := by
  have hedge : h.Edge a b := by
    rw [Heap.Edge, Heap.refs_of_getElem? ho, Object.mem_refs]
    exact ⟨v, Object.raw_mem_slots hslot, hb⟩
  have hcount : 0 < strongCount h roots b := strongCount_pos.2 (.inr ⟨a, hedge⟩)
  have hreach : reaches h a limit v = true :=
    reaches_of_path hb hpath fun l hl hx => hlimit l hl fun x hxl => .head hedge (hx x hxl)
  simp [breakSlot, ho, hslot, hb, hcount, valueReachesContainer, hreach]

lemma turn_breakSlot {p : Place} (hb : breakSlot limit roots h a p = some h') :
    Turn roots a h h' := by
  obtain ⟨_, _, _, -, -, -, -, rfl⟩ := breakSlot_eq_some hb
  exact turn_demote _ _

lemma turn_tryBreakCycle (limit : ℕ) (roots : List Data.Value) (h : Heap) (a : ℕ) :
    Turn roots a h ((tryBreakCycle limit roots h a).getD h) := by
  cases hb : tryBreakCycle limit roots h a with
  | none => exact .refl
  | some h' =>
    unfold tryBreakCycle at hb
    split at hb
    · rcases Option.or_eq_some_iff.1 hb with hb | ⟨-, hb⟩ <;> exact turn_breakSlot hb
    · obtain ⟨i, -, hb⟩ := Option.bind_eq_some_iff.1 hb
      exact turn_breakSlot hb
    · cases hb

lemma Object.mem_slots_hashtable {items : List (Data.Value × Slot)} {custom : List Data.Value}
    {v : Data.Value} : v ∈ (Object.hashtable items custom).slots ↔
      v ∈ items.map Prod.fst ∨ v ∈ custom ∨
        ∃ (i : ℕ) (kv : Data.Value × Slot), items[i]? = some kv ∧ kv.2.raw = v := by
  simp only [slots, List.mem_append, List.mem_flatMap, List.mem_cons, List.not_mem_nil, or_false,
    List.mem_map]
  constructor
  · rintro (⟨kv, hkv, rfl | rfl⟩ | hv)
    · exact .inl ⟨kv, hkv, rfl⟩
    · obtain ⟨i, hi⟩ := List.mem_iff_getElem?.1 hkv
      exact .inr (.inr ⟨i, kv, hi, rfl⟩)
    · exact .inr (.inl hv)
  · rintro (⟨kv, hkv, rfl⟩ | hv | ⟨i, kv, hi, rfl⟩)
    · exact .inl ⟨kv, hkv, .inl rfl⟩
    · exact .inr hv
    · exact .inl ⟨kv, List.mem_of_getElem? hi, .inr rfl⟩

lemma mem_refs_breakSlot {p : Place} {o : Object} {y : ℕ} (ho : h[a]? = some (some o))
    (hb : breakSlot limit roots h a p = some h') (hy : y ∈ h'.refs a) :
    ∃ v, o.slot? p = some (.strong v) ∧ y ∈ (o.setSlot p (.demoted v)).refs := by
  obtain ⟨o', v, b, ho', hslot, -, -, rfl⟩ := breakSlot_eq_some hb
  rw [ho, Option.some.injEq, Option.some.injEq] at ho'
  subst ho'
  refine ⟨v, hslot, ?_⟩
  have hy' := (remains_reclaim roots _).refs_subset hy
  rwa [Heap.refs, Heap.getElem?_setSlot_self, ho] at hy'

variable {h₀ : Heap} (hlimit : ∀ l : List ℕ, l.Nodup →
  (∀ x ∈ l, ReflTransGen h.Edge a x) → l.length ≤ limit)

include hlimit in
lemma uncut_pair {car cdr : Slot} (ho : h[a]? = some (some (.pair car cdr))) {y : ℕ}
    (hy : y ∈ ((tryBreakCycle limit roots h a).getD h).refs a)
    (hback : ReflTransGen h.Edge y a) :
    car.raw.heapAddr = some y ∧ ∃ b, cdr.raw.heapAddr = some b ∧ ReflTransGen h.Edge b a := by
  have hbreak : tryBreakCycle limit roots h a =
      (breakSlot limit roots h a .cdr).or (breakSlot limit roots h a .car) := by
    simp [tryBreakCycle, ho]
  have hsome : ∀ {p : Place} {s : Slot} {b : ℕ}, (Object.pair car cdr).slot? p = some s →
      s.raw.heapAddr = some b → ReflTransGen h.Edge b a →
      ∃ h', breakSlot limit roots h a p = some h' := by
    intro p s b hslot hb hpath
    cases s with
    | strong v =>
      exact Option.isSome_iff_exists.1 (breakSlot_isSome ho hslot hb hpath hlimit)
    | demoted v => cases hb
  by_cases hcdr : ∃ b, cdr.raw.heapAddr = some b ∧ ReflTransGen h.Edge b a
  · refine ⟨?_, hcdr⟩
    obtain ⟨b, hb, hpath⟩ := hcdr
    obtain ⟨h', hh'⟩ := hsome (p := .cdr) rfl hb hpath
    rw [hbreak, hh'] at hy
    obtain ⟨v, -, hy⟩ := mem_refs_breakSlot ho hh' hy
    simpa [Object.mem_refs, Object.setSlot, Object.slots, Slot.raw, Data.Value.heapAddr] using hy
  · -- the cdr does not lead back, so the car has been cut
    exfalso
    have hmem := (turn_tryBreakCycle limit roots h a).refs a y hy
    rw [Heap.refs_of_getElem? ho, Object.mem_refs] at hmem
    obtain ⟨v, hv, hvy⟩ := hmem
    simp only [Object.slots, List.mem_cons, List.not_mem_nil, or_false] at hv
    rcases hv with rfl | rfl
    · obtain ⟨h', hh'⟩ := hsome (p := .car) rfl hvy hback
      have hnone : breakSlot limit roots h a .cdr = none := by
        rw [Option.eq_none_iff_forall_ne_some]
        intro h'' hh''
        obtain ⟨o, w, b, ho', hslot, hb, hpath, -⟩ := breakSlot_eq_some hh''
        rw [ho, Option.some.injEq, Option.some.injEq] at ho'
        subst ho'
        refine hcdr ⟨b, ?_, hpath⟩
        rw [Object.slot?, Option.some.injEq] at hslot
        rw [hslot]
        exact hb
      rw [hbreak, hnone, hh'] at hy
      obtain ⟨w, -, hy⟩ := mem_refs_breakSlot ho hh' hy
      refine hcdr ⟨y, ?_, hback⟩
      simpa [Object.mem_refs, Object.setSlot, Object.slots, Slot.raw, Data.Value.heapAddr] using hy
    · exact hcdr ⟨y, hvy, hback⟩

include hlimit in
lemma uncut_hashtable {items : List (Data.Value × Slot)} {custom : List Data.Value}
    (ho : h[a]? = some (some (.hashtable items custom))) {y : ℕ}
    (hy : y ∈ ((tryBreakCycle limit roots h a).getD h).refs a)
    (hback : ReflTransGen h.Edge y a) :
    ∃ v, v.heapAddr = some y ∧ (v ∈ items.map Prod.fst ∨ v ∈ custom ∨
      ∃ (i : ℕ) (kv : Data.Value × Slot), items[i]? = some kv ∧ breakIndex items ≠ some i ∧
        kv.2.raw = v) := by
  have hbreak : tryBreakCycle limit roots h a =
      (breakIndex items).bind fun i => breakSlot limit roots h a (.entry i) := by
    simp [tryBreakCycle, ho]
  cases hb : tryBreakCycle limit roots h a with
  | none =>
    rw [hb, Option.getD_none, Heap.refs_of_getElem? ho, Object.mem_refs] at hy
    obtain ⟨v, hv, hvy⟩ := hy
    refine ⟨v, hvy, ?_⟩
    rcases Object.mem_slots_hashtable.1 hv with hv | hv | ⟨i, kv, hi, rfl⟩
    · exact .inl hv
    · exact .inr (.inl hv)
    · refine .inr (.inr ⟨i, kv, hi, fun hidx => ?_, rfl⟩)
      -- a value that leads back would have been demoted
      rw [hb, hidx, Option.bind_some] at hbreak
      have hslot : (Object.hashtable items custom).slot? (.entry i) = some kv.2 := by
        simp [Object.slot?, hi]
      cases hkv : kv.2 with
      | strong w =>
        rw [hkv] at hslot hvy
        have : (breakSlot limit roots h a (.entry i)).isSome = true :=
          breakSlot_isSome ho hslot hvy hback hlimit
        rw [← hbreak] at this
        cases this
      | demoted w =>
        rw [hkv] at hvy
        cases hvy
  | some h' =>
    rw [hb] at hy
    rw [hb] at hbreak
    obtain ⟨i, hidx, hh'⟩ := Option.bind_eq_some_iff.1 hbreak.symm
    obtain ⟨w, -, hy⟩ := mem_refs_breakSlot ho hh' hy
    obtain ⟨v, hv, hvy⟩ := Object.mem_refs.1 hy
    refine ⟨v, hvy, ?_⟩
    rcases Object.mem_slots_hashtable.1 hv with hv | hv | ⟨j, kv, hj, rfl⟩
    · obtain ⟨kv, hkv, rfl⟩ := List.mem_map.1 hv
      rcases Object.mem_modify hkv with hkv | ⟨kv', hkv', rfl⟩
      · exact .inl (List.mem_map_of_mem hkv)
      · exact .inl (List.mem_map.2 ⟨kv', hkv', rfl⟩)
    · exact .inr (.inl hv)
    · rw [List.getElem?_modify] at hj
      by_cases hij : i = j
      · subst hij
        rcases hi : items[i]? with _ | kv'
        · simp [hi] at hj
        · simp only [hi, Option.map_eq_map, Option.map_some, Option.some.injEq] at hj
          subst hj
          cases hvy
      · refine .inr (.inr ⟨j, kv, by simpa [hij] using hj, ?_, rfl⟩)
        rw [hidx]
        exact fun heq => hij (Option.some.inj heq)

include hlimit in
/-- **After the turn of a node, what leads back to it is uncut.** -/
lemma uncut_of_turn (ho : h[a]? = h₀[a]?) (hsub : ∀ x y, y ∈ h.refs x → y ∈ h₀.refs x) {y : ℕ}
    (hy : y ∈ ((tryBreakCycle limit roots h a).getD h).refs a)
    (hback : ReflTransGen ((tryBreakCycle limit roots h a).getD h).Edge y a) : Uncut h₀ a y := by
  have hturn := turn_tryBreakCycle limit roots h a
  have hback' : ReflTransGen h.Edge y a := .mono hturn.refs _ _ hback
  have hmem := hturn.refs a y hy
  obtain ⟨o, hao⟩ := Heap.live_iff.1 (Heap.live_of_mem_refs hmem)
  have hcell : h₀[a]?.getD none = some o := by rw [← ho, hao]; rfl
  unfold Uncut
  rw [hcell]
  cases o with
  | pair car cdr =>
    obtain ⟨hcar, b, hb, hpath⟩ := uncut_pair hlimit hao hy hback'
    exact ⟨hcar, b, hb, .mono hsub _ _ hpath⟩
  | hashtable items custom => exact uncut_hashtable hlimit hao hy hback'
  | _ => rwa [Heap.refs_of_getElem? hao] at hmem

end Turns

/-! ### The loop -/

/-- **The invariant of the third phase** over a set of nodes: only references go; white nodes are
as they were, or freed; and what leads back to a node that had its turn is uncut. -/
structure Collecting (h : Heap) (roots : List Data.Value) (r : Registry) (S : Set ℕ)
    (s : Collect) : Prop where
  addrs : s.reg.addrs = r.addrs
  color : ∀ a, s.reg.candidateColor a = .black ∨ s.reg.candidateColor a = .white
  refs : ∀ x y, y ∈ s.heap.refs x → y ∈ h.refs x
  live : ∀ x, s.heap.live x = true → h.live x = true
  tidy : Tidy roots s.heap
  waiting : ∀ x, s.reg.candidateColor x = .white → s.heap[x]? = h[x]? ∨ s.heap.refs x = []
  turned : ∀ x ∈ S, s.reg.candidateColor x = .black → ∀ y ∈ s.heap.refs x,
    ReflTransGen s.heap.Edge y x → Uncut h x y

section Loop

variable {limit : ℕ} {h : Heap} {roots : List Data.Value} {r : Registry} {S : Set ℕ} {s : Collect}

lemma collectWhiteStep_eq {a : ℕ} (ha : s.reg.candidateColor a = .white) :
    ∃ s', collectWhiteStep limit roots s a = some (s', ((s.heap.refs a).filter fun k =>
        (s.reg.setCandidateColor a .black).candidateColor k = .white).reverse) ∧
      s'.reg = s.reg.setCandidateColor a .black ∧
      s'.heap = (tryBreakCycle limit roots s.heap a).getD s.heap := by
  have hmem : a ∈ s.reg.addrs := Registry.mem_of_candidateColor (show _ ≠ _ by rw [ha]; nofun)
  have hkids : walkCandidateChildren s.heap (s.reg.setCandidateColor a .black) a =
      s.heap.refs a := by
    simp [walkCandidateChildren, hmem]
  rw [collectWhiteStep, if_neg (not_not.2 ha)]
  simp only [hkids]
  cases tryBreakCycle limit roots s.heap a with
  | none => exact ⟨_, rfl, rfl, rfl⟩
  | some h' => exact ⟨_, rfl, rfl, rfl⟩

/-- **A node has its turn.** -/
lemma Collecting.turn (hs : Collecting h roots r S s)
    (hlimit : ∀ a ∈ S, ∀ l : List ℕ, l.Nodup → (∀ x ∈ l, ReflTransGen h.Edge a x) →
      l.length ≤ limit)
    {a : ℕ} (ha : s.reg.candidateColor a = .white) {s' : Collect}
    (hreg : s'.reg = s.reg.setCandidateColor a .black)
    (hheap : s'.heap = (tryBreakCycle limit roots s.heap a).getD s.heap) :
    Collecting h roots r S s' := by
  have hturn : Turn roots a s.heap s'.heap := hheap ▸ turn_tryBreakCycle limit roots s.heap a
  have hmem : a ∈ s.reg.addrs := Registry.mem_of_candidateColor (show _ ≠ _ by rw [ha]; nofun)
  have hcolor : ∀ b, s'.reg.candidateColor b =
      if b = a then .black else s.reg.candidateColor b := by
    intro b
    rw [hreg, Registry.candidateColor_setCandidateColor]
    simp [hmem]
  refine ⟨by rw [hreg, Registry.addrs_setCandidateColor, hs.addrs], fun b => ?_,
    fun x y hy => hs.refs x y (hturn.refs x y hy), fun x hx => hs.live x (hturn.live x hx),
    hturn.tidy hs.tidy, fun x hx => ?_, fun x hxS hx y hy hback => ?_⟩
  · rw [hcolor]
    split
    · exact .inl rfl
    · exact hs.color b
  · rw [hcolor] at hx
    split at hx
    · cases hx
    · rename_i hne
      rcases hturn.other x hne with heq | hdead
      · rcases hs.waiting x hx with hw | hw
        · exact .inl (heq.trans hw)
        · refine .inr ?_
          rwa [Heap.refs, heq]
      · exact .inr hdead.1
  · rw [hcolor] at hx
    split at hx
    · rename_i heq
      subst heq
      rcases hs.waiting x ha with hw | hw
      · rw [hheap] at hy hback
        exact uncut_of_turn (fun l hl hx => hlimit x hxS l hl fun z hz =>
          .mono hs.refs _ _ (hx z hz)) hw hs.refs hy hback
      · have hnone := hturn.refs x y hy
        rw [hw] at hnone
        cases hnone
    · exact hs.turned x hxS hx y (hturn.refs x y hy) (.mono hturn.refs _ _ hback)

lemma sum_white_add_le {a : ℕ} (ha : s.reg.candidateColor a = .white) {s' : Collect}
    (hreg : s'.reg = s.reg.setCandidateColor a .black)
    (hturn : Turn roots a s.heap s'.heap) (p : ℕ → Bool) :
    ∑ x ∈ nodes ⟨s'.reg, fun _ => none⟩ (· = .white), (s'.heap.refs x).length +
        ((s.heap.refs a).filter p).reverse.length ≤
      ∑ x ∈ nodes ⟨s.reg, fun _ => none⟩ (· = .white), (s.heap.refs x).length := by
  have hmem : a ∈ s.reg.addrs := Registry.mem_of_candidateColor (show _ ≠ _ by rw [ha]; nofun)
  refine le_trans (Nat.add_le_add_right (Finset.sum_le_sum fun x hx => ?_) _)
    (sum_nodes_add_le
      hmem ha (by simp) hreg p)
  have hne : x ≠ a := by
    rintro rfl
    have hwhite := (mem_nodes.1 hx).2
    rw [hreg, Registry.candidateColor_setCandidateColor, if_pos ⟨rfl, hmem⟩] at hwhite
    cases hwhite
  rcases hturn.other x hne with heq | hdead
  · rw [Heap.refs, heq]
    exact le_rfl
  · rw [hdead.1]
    exact Nat.zero_le _

section

variable (hs : Collecting h roots r S s)
  (hlimit : ∀ a ∈ S, ∀ l : List ℕ, l.Nodup → (∀ x ∈ l, ReflTransGen h.Edge a x) → l.length ≤ limit)

include hs hlimit

/-- **`collect_white`** gives its root its turn, and paints nothing white. -/
lemma collectWhite_total {root : ℕ} :
    ∃ s', collectWhite limit roots s root = some s' ∧ Collecting h roots r S s' ∧
      (∀ b, s'.reg.candidateColor b = .white → s.reg.candidateColor b = .white) ∧
      s'.reg.candidateColor root ≠ .white := by
  obtain ⟨s', hs'', hcol, hwhite, hroot⟩ := Worklist.run_total
    (collectWhiteStep limit roots)
    (fun s' stack => Collecting h roots r S s' ∧
      (∀ b, s'.reg.candidateColor b = .white → s.reg.candidateColor b = .white) ∧
      (s'.reg.candidateColor root = .white → root ∈ stack))
    (fun s' => ∑ x ∈ nodes ⟨s'.reg, fun _ => none⟩ (· = .white), (s'.heap.refs x).length)
    (fun s1 a stack ⟨hs1, hwhite, hroot⟩ => by
      by_cases ha : s1.reg.candidateColor a = .white
      · obtain ⟨s2, hstep, hreg, hheap⟩ := collectWhiteStep_eq ha
        have hcolor : ∀ b, s2.reg.candidateColor b = .white →
            b ≠ a ∧ s1.reg.candidateColor b = .white := by
          intro b hb
          rw [hreg, Registry.candidateColor_setCandidateColor] at hb
          split at hb
          · cases hb
          · rename_i hne
            refine ⟨fun hba => hne ⟨hba, ?_⟩, hb⟩
            exact Registry.mem_of_candidateColor (show _ ≠ _ by rw [ha]; nofun)
        refine ⟨s2, _, hstep, ⟨hs1.turn hlimit ha hreg hheap, fun b hb =>
          hwhite b (hcolor b hb).2, fun hr => ?_⟩,
          sum_white_add_le ha hreg (hheap ▸ turn_tryBreakCycle limit roots s1.heap a) _⟩
        obtain ⟨hne, hr'⟩ := hcolor root hr
        exact List.mem_append_right _ ((List.mem_cons.1 (hroot hr')).resolve_left hne)
      · refine ⟨s1, [], if_pos ha, ⟨hs1, hwhite, fun hr => ?_⟩, le_rfl⟩
        refine (List.mem_cons.1 (hroot hr)).resolve_left ?_
        rintro rfl
        exact ha hr)
    (rounds s.heap s.reg) s [root]
    ⟨hs, fun _ hb => hb, fun _ => List.mem_cons_self⟩
    (sum_nodes_lt_rounds _)
  exact ⟨s', hs'', hcol, hwhite, fun hr => List.not_mem_nil (hroot hr)⟩

/-- **The third phase comes to an end**: every white node had its turn. -/
theorem collect_total {order : List ℕ} (horder : order.Perm r.addrs) :
    ∃ s', collect limit roots s order = some s' ∧ Collecting h roots r S s' ∧
      ∀ a, s'.reg.candidateColor a = .black := by
  obtain ⟨s', hcollect, hs', hnone⟩ := Worklist.foldlM_total
    (f := fun (s : Collect) a =>
      if s.reg.candidateColor a = .white then collectWhite limit roots s a else some s)
    (fun s rest => Collecting h roots r S s ∧ ∀ a, s.reg.candidateColor a = .white → a ∈ rest)
    (fun s a rest ⟨hs, hrest⟩ => by
      by_cases ha : s.reg.candidateColor a = .white
      · obtain ⟨s', hs'', hcol, hwhite, ha'⟩ := collectWhite_total hs hlimit
        refine ⟨s', by rw [if_pos ha, hs''], hcol, fun b hb =>
          (List.mem_cons.1 (hrest b (hwhite b hb))).resolve_left ?_⟩
        rintro rfl
        exact ha' hb
      · refine ⟨s, if_neg ha, hs, fun b hb => (List.mem_cons.1 (hrest b hb)).resolve_left ?_⟩
        rintro rfl
        exact ha hb)
    ⟨hs, fun a ha => horder.mem_iff.2
      (hs.addrs ▸ Registry.mem_of_candidateColor (show _ ≠ _ by rw [ha]; nofun))⟩
  exact ⟨s', hcollect, hs', fun a => (hs'.color a).resolve_right
    fun hw => List.not_mem_nil (hnone a hw)⟩

end

end Loop

/-! ### Runs -/

/-- **What holds between two events**: everything that lives has a strong reference, and the
candidates are black or purple. -/
structure Between (w : World) : Prop where
  tidy : Tidy w.memory.roots w.memory.heap
  settled : w.reg.Settled

section Runs

variable {limit : ℕ} {w : World}

lemma Tidy.push {h : Heap} {roots : List Data.Value} (ht : Tidy roots h) (v : Data.Value) :
    Tidy (roots ++ [v]) h := by
  intro a ha
  have hpos := ht a ha
  rw [strongCount_pos] at hpos ⊢
  refine hpos.imp_left fun hroot => ?_
  rw [rootRefs, List.filterMap_append]
  exact List.mem_append_left _ hroot

lemma Tidy.alloc {m : Memory} (ht : Tidy m.roots m.heap) (o : Object) {ref : ℕ → Data.Value}
    (href : ∀ a, (ref a).heapAddr = some a) : Tidy (m.alloc o ref).roots (m.alloc o ref).heap := by
  intro a ha
  obtain ⟨o', ho'⟩ := Heap.live_iff.1 ha
  rw [strongCount_pos]
  simp only [Memory.alloc] at ho' ⊢
  rcases Nat.lt_or_ge a m.heap.length with hlt | hge
  · rw [List.getElem?_append_left hlt] at ho'
    rcases strongCount_pos.1 (ht a (Heap.live_iff.2 ⟨o', ho'⟩)) with hroot | ⟨x, hx⟩
    · refine .inl ?_
      rw [rootRefs, List.filterMap_append]
      exact List.mem_append_left _ hroot
    · refine .inr ⟨x, ?_⟩
      obtain ⟨ox, hox⟩ := Heap.live_iff.1 (Heap.live_of_mem_refs hx)
      rwa [Heap.refs, List.getElem?_append_left (List.getElem?_eq_some_iff.1 hox).1]
  · have hlen := (List.getElem?_eq_some_iff.1 ho').1
    rw [List.length_append, List.length_singleton] at hlen
    obtain rfl : a = m.heap.length := by omega
    refine .inl (List.mem_filterMap.2 ⟨ref m.heap.length, ?_, href _⟩)
    exact List.mem_append_right _ List.mem_cons_self

lemma Tidy.store {m : Memory} (ht : Tidy m.roots m.heap) (st : Option Store) :
    Tidy
      (match st with
        | some s => (Policy.counted limit).store m.roots s
        | none => m).roots
      (match st with
        | some s => (Policy.counted limit).store m.roots s
        | none => m).heap := by
  cases st with
  | none => exact ht
  | some st =>
    dsimp only
    rw [counted_store]
    split <;> exact reclaim_tidy _ _

lemma Tidy.step {m : Memory} (ht : Tidy m.roots m.heap) (act : Action) :
    Tidy (Gc.step (.counted limit) act m).roots (Gc.step (.counted limit) act m).heap := by
  cases act with
  | immediate v =>
    simp only [Gc.step]
    split
    · exact ht.push v
    · exact ht
  | dup i =>
    simp only [Gc.step]
    cases m.roots[i]? with
    | none => exact ht
    | some v => exact ht.push v
  | drop i => exact reclaim_tidy _ _
  | cons i j =>
    simp only [Gc.step]
    split
    · exact ht.alloc _ fun _ => rfl
    · exact ht
  | makeVector n i =>
    simp only [Gc.step]
    split
    · exact ht.alloc _ fun _ => rfl
    · exact ht
  | makeHashtable => exact ht.alloc _ fun _ => rfl
  | get i p =>
    simp only [Gc.step]
    split
    · rename_i a _
      cases m.heap.readAt a p with
      | none => exact ht
      | some v => exact ht.push v
    · exact ht
  | setCar i j => exact ht.store _
  | setCdr i j => exact ht.store _
  | vectorSet i k j => exact ht.store _
  | hashtableSet i key found j => exact ht.store _

lemma Registry.Settled.retain {r : Registry} (hr : r.Settled) (h : Heap) :
    (r.retain h).Settled := by
  intro a
  unfold Registry.candidateColor
  split
  · rename_i ha
    have hcolor := hr a
    rwa [Registry.candidateColor, if_pos (List.mem_filter.1 ha).1] at hcolor
  · exact .inl rfl

lemma Registry.Settled.register {r : Registry} (hr : r.Settled) (a : ℕ) :
    (r.register a).Settled := by
  intro b
  have hb := hr b
  unfold Registry.register
  split
  · exact hb
  · unfold Registry.candidateColor at hb ⊢
    by_cases hba : b = a
    · subst hba
      simp
    · by_cases hmem : b ∈ r.addrs <;> simp_all

variable (limit) in
/-- **A sweep comes to an end**, and gives the nodes their turn that a walk from the purple
candidates comes to and that have no anchor. -/
lemma runSweep_total (hw : Between w) {order : List ℕ} (horder : Lists w (.sweep order))
    {S : Set ℕ} (hlimit : ∀ a ∈ S, ∀ l : List ℕ, l.Nodup →
      (∀ x ∈ l, ReflTransGen w.memory.heap.Edge a x) → l.length ≤ limit)
    (hsub : ∀ a ∈ S, Subgraph w.memory.heap (w.reg.retain w.memory.heap) a)
    (hfree : ∀ M : Finset ℕ,
      (∀ a, a ∈ M ↔ Subgraph w.memory.heap (w.reg.retain w.memory.heap) a) →
        ∀ a ∈ S, ¬ Anchored w.memory.heap w.memory.roots M a) :
    ∃ s, runSweep limit order w = some ⟨{ w.memory with heap := s.heap }, s.reg⟩ ∧
      Collecting w.memory.heap w.memory.roots (w.reg.retain w.memory.heap) S s ∧
      ∀ a, s.reg.candidateColor a = .black := by
  obtain ⟨t, M, ht, hM, hscan, hgray⟩ := classify_total w.memory.heap
    w.memory.roots (hw.settled.retain w.memory.heap) horder
  have hcolor : ∀ a, t.reg.candidateColor a = .black ∨ t.reg.candidateColor a = .white := by
    intro a
    rcases hc : t.reg.candidateColor a with _ | _ | _ | _
    · exact .inl rfl
    · exact absurd hc (hgray a)
    · exact .inr rfl
    · exact absurd hc (hscan.settled a)
  obtain ⟨s, hs, hcol, hblack⟩ := collect_total (s := ⟨t.reg, w.memory.heap, 0⟩)
    ⟨hscan.addrs, hcolor, fun _ _ hy => hy, fun _ hx => hx, hw.tidy, fun _ _ => .inl rfl,
      fun a ha hb => absurd (hscan.anchored a ((hM a).2 (hsub a ha)) hb) (hfree M hM a ha)⟩
    hlimit horder
  refine ⟨s, ?_, hcol, hblack⟩
  simp only [runSweep, ht, Option.bind_eq_bind, Option.bind_some, hs]
  rfl

/-- **One event.** -/
lemma Between.step (hw : Between w) {ev : Event} (hev : Lists w ev) :
    Between (w.step limit ev) := by
  cases ev with
  | program act => exact ⟨hw.tidy.step act, hw.settled⟩
  | register a => exact ⟨hw.tidy, hw.settled.register a⟩
  | sweep order =>
    obtain ⟨s, hs, hcol, hblack⟩ := runSweep_total limit (S := ∅) hw hev
      (fun _ ha => ha.elim) (fun _ ha => ha.elim) (fun _ _ _ ha => ha.elim)
    simp only [World.step, hs]
    exact ⟨hcol.tidy, fun a => .inl (hblack a)⟩

lemma Between.start : Between .start where
  tidy := nofun
  settled := fun a => .inl rfl

/-- **Every run.** -/
lemma Between.run {as : List Event} (has : Actions.Allowed (World.step limit) Lists .start as) :
    Between (Actions.run (World.step limit) as .start) :=
  Actions.run_invariant (fun _ _ hw hev => hw.step hev) .start has

end Runs

/-! ### Completeness -/

/-- **A structure that a sweep reclaims**: all its nodes live and are registered, only they refer
to them, every node can be reached from one that no sweep has examined, every cycle has a reference
that is cut, and the walk from a node stays below the limit. -/
structure Abandoned (limit : ℕ) (w : World) (S : Set ℕ) : Prop where
  registered : ∀ a ∈ S, a ∈ w.reg.addrs
  live : ∀ a ∈ S, w.memory.heap.live a = true
  unrooted : ∀ a ∈ S, a ∉ rootRefs w.memory.roots
  held : ∀ a ∈ S, ∀ x, a ∈ w.memory.heap.refs x → x ∈ S
  purple : ∀ a ∈ S, ∃ p, w.reg.candidateColor p = .purple ∧ ReflTransGen w.memory.heap.Edge p a
  cut : ∀ a ∈ S, ¬ TransGen (Uncut w.memory.heap) a a
  small : ∀ a ∈ S, ∀ l : List ℕ, l.Nodup → (∀ x ∈ l, ReflTransGen w.memory.heap.Edge a x) →
    l.length ≤ limit

section Complete

variable {limit : ℕ} {w : World} {S : Set ℕ}

section

variable (hS : Abandoned limit w S)

include hS

lemma Abandoned.mem_of_path {a x : ℕ} (ha : a ∈ S) (hxa : ReflTransGen w.memory.heap.Edge x a)
    : x ∈ S := by
  induction hxa using ReflTransGen.head_induction_on with
  | refl => exact ha
  | head hxy _ ih => exact hS.held _ ih _ hxy

lemma Abandoned.mem_retain {a : ℕ} (ha : a ∈ S) : a ∈ (w.reg.retain w.memory.heap).addrs :=
  List.mem_filter.2 ⟨hS.registered a ha, hS.live a ha⟩

lemma Abandoned.subgraph {a : ℕ} (ha : a ∈ S) :
    Subgraph w.memory.heap (w.reg.retain w.memory.heap) a := by
  obtain ⟨p, hp, hpa⟩ := hS.purple a ha
  have hpS := hS.mem_of_path ha hpa
  refine ⟨p, ?_, ?_⟩
  · rw [Registry.candidateColor, if_pos (hS.registered p hpS)] at hp
    rw [Registry.candidateColor, if_pos (hS.mem_retain hpS)]
    exact hp
  · clear hpS hp
    induction hpa using ReflTransGen.head_induction_on with
    | refl => exact .refl
    | head hxy hya ih => exact .head ⟨hxy, hS.mem_retain (hS.mem_of_path ha hya)⟩ ih

lemma Abandoned.not_anchored {M : Finset ℕ}
    (hM : ∀ a, a ∈ M ↔ Subgraph w.memory.heap (w.reg.retain w.memory.heap) a) {a : ℕ} (ha : a ∈ S)
    : ¬ Anchored w.memory.heap w.memory.roots M a := by
  rintro ⟨k, hk, hka⟩
  have hkS := hS.mem_of_path ha hka
  rcases hk with hroot | ⟨x, hx, hkx⟩
  · exact hS.unrooted k hkS hroot
  · exact hx ((hM x).2 (hS.subgraph (hS.held k hkS x hkx)))

lemma Abandoned.reclaimed {s : Collect} {r : Registry}
    (hcol : Collecting w.memory.heap w.memory.roots r S s)
    (hblack : ∀ a, s.reg.candidateColor a = .black) {a : ℕ} (ha : a ∈ S) :
    s.heap.live a = false := by
  classical
  by_contra hlive
  rw [Bool.not_eq_false] at hlive
  -- every node that lives has a reference, from a node of the structure that lives
  have hpred : ∀ b ∈ (liveSet s.heap).filter (· ∈ S), ∃ x ∈ (liveSet s.heap).filter (· ∈ S),
      s.heap.Edge x b ∧ x ∈ S := by
    intro b hb
    obtain ⟨hb, hbS⟩ := Finset.mem_filter.1 hb
    rcases strongCount_pos.1 (hcol.tidy b (mem_liveSet.1 hb)) with hroot | ⟨x, hx⟩
    · exact absurd hroot (hS.unrooted b hbS)
    · have hxS := hS.held b hbS x (hcol.refs x b hx)
      exact ⟨x, Finset.mem_filter.2 ⟨mem_liveSet.2 (Heap.live_of_mem_refs hx), hxS⟩, hx, hxS⟩
  obtain ⟨b, hb, hcycle⟩ := Graph.exists_cycle
    ⟨a, Finset.mem_filter.2 ⟨mem_liveSet.2 hlive, ha⟩⟩ hpred
  refine hS.cut b (Finset.mem_filter.1 hb).2 ?_
  -- and what is left on a cycle is uncut
  refine TransGen.mono ?_ _ _ (Graph.cycle_mutual hcycle)
  rintro x y ⟨⟨hxy, hxS⟩, hyx⟩
  exact hcol.turned x hxS (hblack x) y hxy (ReflTransGen.mono (fun _ _ hE => hE.1) _ _ hyx)

end

end Complete

/-- **A sweep reclaims an abandoned structure**, after every sequence of registrations, mutations
and sweeps, and in whatever order the candidates are visited. -/
theorem sweep_reclaims (limit : ℕ) (as : List Event)
    (has : Actions.Allowed (World.step limit) Lists .start as) (order : List ℕ)
    (horder : Lists (Actions.run (World.step limit) as .start) (.sweep order)) (S : Set ℕ)
    (hS : Abandoned limit (Actions.run (World.step limit) as .start) S) :
    ∃ w, runSweep limit order (Actions.run (World.step limit) as .start) = some w ∧
      ∀ a ∈ S, w.memory.heap.live a = false := by
  obtain ⟨s, hs, hcol, hblack⟩ := runSweep_total _ (Between.run has) horder hS.small
    (fun _ ha => hS.subgraph ha) (fun _ hM _ ha => hS.not_anchored hM ha)
  exact ⟨_, hs, fun a ha => hS.reclaimed hcol hblack ha⟩

/-- A pair that is its own `cdr`, registered and then dropped. -/
def selfCdr : List Event :=
  [.program (.immediate (.boolean true)), .program (.cons 0 0), .program (.setCdr 1 1),
    .register 0, .program (.drop 1)]

/-- The pair is reclaimed. -/
theorem sweep_reclaims_selfCdr :
    ∃ w, runSweep 10000 [0] (Actions.run (World.step 10000) selfCdr .start) = some w ∧
      ∀ a ∈ ({0} : Set ℕ), w.memory.heap.live a = false := by
  have hheap : (Actions.run (World.step 10000) selfCdr .start).memory.heap =
      [some (.pair (.strong (.boolean true)) (.strong (.pair 0)))] := by decide +kernel
  have hroots : (Actions.run (World.step 10000) selfCdr .start).memory.roots =
      [.boolean true] := by decide +kernel
  have haddrs : (Actions.run (World.step 10000) selfCdr .start).reg.addrs = [0] := by
    decide +kernel
  have hcolor : (Actions.run (World.step 10000) selfCdr .start).reg.candidateColor 0 =
      .purple := by decide +kernel
  have hrefs : ∀ x y, y ∈ (Actions.run (World.step 10000) selfCdr .start).memory.heap.refs x →
      x = 0 ∧ y = 0 := by
    rw [hheap]
    intro x y hy
    cases x with
    | zero => simpa [Heap.refs, cellRefs, Object.refs, Object.slots, Slot.raw,
        Data.Value.heapAddr, eq_comm] using hy
    | succ x => simp [Heap.refs, cellRefs] at hy
  refine sweep_reclaims 10000 selfCdr ?_ [0] ?_ {0} ⟨?_, ?_, ?_, ?_, ?_, ?_, ?_⟩
  · exact ⟨trivial, trivial, trivial, trivial, trivial, trivial⟩
  · rw [Lists]
    decide +kernel
  · simp [haddrs]
  · simp only [Set.mem_singleton_iff, forall_eq]
    decide +kernel
  · simp only [Set.mem_singleton_iff, forall_eq]
    decide +kernel
  · exact fun a _ x hx => (hrefs x a hx).1
  · rintro a rfl
    exact ⟨0, hcolor, .refl⟩
  · rintro a rfl hcycle
    obtain ⟨b, hb, -⟩ := TransGen.head'_iff.1 hcycle
    simp [hheap, Uncut, Slot.raw, Data.Value.heapAddr] at hb
  · rintro a rfl l hl hreach
    have hzero : ∀ x ∈ l, x = 0 := by
      intro x hx
      rcases (hreach x hx).cases_tail with heq | ⟨y, -, hyx⟩
      · exact heq
      · exact (hrefs y x hyx).2
    have hsub : l ⊆ [0] := fun x hx => by simp [hzero x hx]
    exact (hl.subperm hsub).length_le.trans (by decide)

/-- **Structures a sweep leaves.** A vector that holds itself is not cut, and neither are both slots
of a pair that is its own `car` and `cdr`; a pair that an earlier sweep has examined stays black
when it is registered again. -/
theorem sweep_leaves :
    let vector := Actions.run (World.step 10000)
      [.program (.immediate (.boolean true)), .program (.makeVector 1 0),
        .program (.vectorSet 1 0 1), .register 0, .program (.drop 1)] .start
    let both := Actions.run (World.step 10000)
      [.program (.immediate (.boolean true)), .program (.cons 0 0), .program (.setCar 1 1),
        .program (.setCdr 1 1), .register 0, .program (.drop 1)] .start
    let examined := Actions.run (World.step 10000)
      [.program (.immediate (.boolean true)), .program (.cons 0 0), .program (.setCdr 1 1),
        .register 0, .sweep [0], .program (.drop 1), .register 0] .start
    ∀ w ∈ [vector, both, examined], w.reg.addrs = [0] ∧ rootRefs w.memory.roots = [] ∧
      w.memory.heap.length = 1 ∧ 0 ∈ w.memory.heap.refs 0 ∧
      (runSweep 10000 [0] w).map (fun w => w.memory.heap.live 0) = some true := by
  refine List.forall_mem_cons.2 ⟨?_, List.forall_mem_cons.2 ⟨?_, List.forall_mem_singleton.2 ?_⟩⟩ <;>
    decide +kernel

end CrabScheme.Gc
