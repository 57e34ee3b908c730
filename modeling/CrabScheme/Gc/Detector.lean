import CrabScheme.Gc.Heap

/-!
# The synchronous cycle detector

A mutation that may have closed a cycle starts a depth-first walk along strong references. The walk
stops when it comes back to the mutated container, and it gives up when it has visited more objects
than a limit allows. The walk is one over addresses, whatever the objects are; what it does with the
values of the heap follows from that.

## Main results

* `cycleCheckFrom_exact` — on any graph, the walk finds only what can be reached, and below the
  limit all of it.
* `reaches_of_path`, `path_of_valueReachesContainer` — the same on the heap.
-/

namespace CrabScheme.Gc

open Relation

/-- `CycleVisitor`: the addresses visited and how the walk ended. -/
structure Visitor where
  visited : List ℕ
  found : Bool
  overLimit : Bool

namespace Visitor

/-- `done`. -/
def done (vis : Visitor) : Bool := vis.found || vis.overLimit

/-- A walk begins. -/
def start : Visitor := ⟨[], false, false⟩

end Visitor

/-! ### Walks over a graph -/

section Graph

variable (children : ℕ → List ℕ) (target limit : ℕ)

/-- There is a reference from one address to another. -/
def Child (a b : ℕ) : Prop := b ∈ children a

/-- `CycleVisitor::visit_addr`, with the descent into the children of what is visited for the first
time. Every descent adds a visited address, so `limit + 2` levels are enough. -/
def visitAddr : ℕ → Visitor → ℕ → Visitor
  | 0, vis, _ => vis
  | n + 1, vis, a =>
    if vis.done then vis
    else if a = target then { vis with found := true }
    else if a ∈ vis.visited then vis
    else
      let vis := { vis with visited := a :: vis.visited }
      if limit < vis.visited.length then { vis with overLimit := true }
      else (children a).foldl (visitAddr n) vis

/-- `cycle_check` and `reaches`: a walk from the children of `start` comes to the target, which is
`start` itself in a `cycle_check`. -/
def cycleCheckFrom (start : ℕ) : Bool :=
  ((children start).foldl (visitAddr children target limit (limit + 2)) .start).found

end Graph

/-- **What a walk over some addresses has done**: it has visited new addresses that can be reached
from them; and unless it ended early, all of them and their children. -/
structure Explored (children : ℕ → List ℕ) (target limit : ℕ) (as : List ℕ) (vis vis' : Visitor) :
    Prop where
  subset : vis.visited ⊆ vis'.visited
  length_le : vis.visited.length ≤ vis'.visited.length
  nodup : vis.visited.Nodup → vis'.visited.Nodup
  reach : ∀ x ∈ vis'.visited, x ∈ vis.visited ∨ ∃ a ∈ as, ReflTransGen (Child children) a x
  beyond : (vis.overLimit = true → limit < vis.visited.length) → vis'.overLimit = true →
    limit < vis'.visited.length
  short : (vis.done = false → vis.visited.length ≤ limit) → vis'.done = false →
    vis'.visited.length ≤ limit
  going : vis'.done = false → vis.done = false
  all : vis'.done = false → ∀ a ∈ as, a ∈ vis'.visited ∧ a ≠ target
  closed : vis'.done = false → ∀ x ∈ vis'.visited, x ∉ vis.visited → ∀ y ∈ children x,
    y ∈ vis'.visited ∧ y ≠ target

section Explore

variable {children : ℕ → List ℕ} {target limit a : ℕ} {as bs : List ℕ} {vis vis' vis'' : Visitor}

lemma Explored.same (has : vis.done = false → ∀ a ∈ as, a ∈ vis.visited ∧ a ≠ target) :
    Explored children target limit as vis vis where
  subset := fun _ hx => hx
  length_le := le_rfl
  nodup := id
  reach := fun _ hx => .inl hx
  beyond := id
  short := id
  going := id
  all := has
  closed := fun _ _ hx hnot => absurd hx hnot

lemma Explored.trans (h1 : Explored children target limit as vis vis')
    (h2 : Explored children target limit bs vis' vis'') :
    Explored children target limit (as ++ bs) vis vis'' where
  subset := fun _ hx => h2.subset (h1.subset hx)
  length_le := h1.length_le.trans h2.length_le
  nodup := fun hn => h2.nodup (h1.nodup hn)
  reach := by
    intro x hx
    rcases h2.reach x hx with hx | ⟨b, hb, hreach⟩
    · rcases h1.reach x hx with hx | ⟨a, ha, hreach⟩
      · exact .inl hx
      · exact .inr ⟨a, List.mem_append_left _ ha, hreach⟩
    · exact .inr ⟨b, List.mem_append_right _ hb, hreach⟩
  beyond := fun hov => h2.beyond (h1.beyond hov)
  short := fun hs => h2.short (h1.short hs)
  going := fun hd => h1.going (h2.going hd)
  all := by
    intro hd a ha
    rcases List.mem_append.1 ha with ha | ha
    · obtain ⟨hmem, hne⟩ := h1.all (h2.going hd) a ha
      exact ⟨h2.subset hmem, hne⟩
    · exact h2.all hd a ha
  closed := by
    intro hd x hx hnot y hy
    by_cases hx' : x ∈ vis'.visited
    · obtain ⟨hmem, hne⟩ := h1.closed (h2.going hd) x hx' hnot y hy
      exact ⟨h2.subset hmem, hne⟩
    · exact h2.closed hd x hx hx' y hy

lemma explored_foldl {f : Visitor → ℕ → Visitor}
    (hf : ∀ (vis : Visitor) (a : ℕ), vis'.visited.length ≤ vis.visited.length →
      (vis.done = false → vis.visited.length ≤ limit) →
      Explored children target limit [a] vis (f vis a))
    (as : List ℕ) (hle : vis'.visited.length ≤ vis.visited.length)
    (hshort : vis.done = false → vis.visited.length ≤ limit) :
    Explored children target limit as vis (as.foldl f vis) := by
  induction as generalizing vis with
  | nil => exact .same (by simp)
  | cons a as ih =>
    have ha := hf vis a hle hshort
    exact ha.trans (ih (hle.trans ha.length_le) (ha.short hshort))

lemma Explored.descend (hd : vis.done = false) (ha : a ≠ target) (hnew : a ∉ vis.visited)
    (hlen : vis.visited.length + 1 ≤ limit)
    (he : Explored children target limit (children a) { vis with visited := a :: vis.visited } vis') :
    Explored children target limit [a] vis vis' where
  subset := fun x hx => he.subset (List.mem_cons_of_mem a hx)
  length_le := (Nat.le_succ _).trans he.length_le
  nodup := fun hn => he.nodup (List.nodup_cons.2 ⟨hnew, hn⟩)
  reach := by
    intro x hx
    rcases he.reach x hx with hx | ⟨b, hb, hbx⟩
    · rcases List.mem_cons.1 hx with rfl | hx
      · exact .inr ⟨x, List.mem_cons_self, .refl⟩
      · exact .inl hx
    · exact .inr ⟨a, List.mem_cons_self, .head hb hbx⟩
  beyond := fun hov => he.beyond fun h' => by
    simp only [Visitor.done, Bool.or_eq_false_iff] at hd
    rw [hd.2] at h'
    cases h'
  short := fun _ => he.short fun _ => hlen
  going := fun _ => hd
  all := by
    intro hd' b hb
    obtain rfl := List.mem_singleton.1 hb
    exact ⟨he.subset List.mem_cons_self, ha⟩
  closed := by
    intro hd' x hx hnot y hy
    by_cases hxa : x = a
    · exact he.all hd' y (hxa ▸ hy)
    · exact he.closed hd' x hx (by simp [hxa, hnot]) y hy

/-- **The walk from an address.** -/
lemma explored_visitAddr (n : ℕ) (vis : Visitor) (a : ℕ)
    (hfuel : limit + 2 ≤ n + vis.visited.length)
    (hshort : vis.done = false → vis.visited.length ≤ limit) :
    Explored children target limit [a] vis (visitAddr children target limit n vis a) := by
  induction n generalizing vis a with
  | zero =>
    refine .same fun hd => ?_
    have := hshort hd
    omega
  | succ n ih =>
    unfold visitAddr
    split
    · rename_i hd
      exact .same fun hd' => by simp [hd] at hd'
    · rename_i hd
      rw [Bool.not_eq_true] at hd
      split
      · -- the walk is at the target
        refine ⟨fun _ hx => hx, le_rfl, id, fun _ hx => .inl hx, id, ?_, ?_, ?_, ?_⟩ <;>
          simp [Visitor.done]
      · rename_i hne
        split
        · rename_i hmem
          exact .same fun _ b hb => List.mem_singleton.1 hb ▸ ⟨hmem, hne⟩
        · rename_i hnew
          dsimp only
          split
          · rename_i hlimit
            refine ⟨fun x hx => List.mem_cons_of_mem a hx, Nat.le_succ _,
              fun hn => List.nodup_cons.2 ⟨hnew, hn⟩, fun x hx => ?_, fun _ _ => hlimit, ?_, ?_,
              ?_, ?_⟩
            · rcases List.mem_cons.1 hx with rfl | hx
              · exact .inr ⟨x, List.mem_cons_self, .refl⟩
              · exact .inl hx
            all_goals simp [Visitor.done]
          · rename_i hlimit
            have hlen : vis.visited.length + 1 ≤ limit := by
              simpa using hlimit
            refine .descend hd hne hnew hlen (explored_foldl
              (fun vis1 b hle hs => ih vis1 b ?_ hs) _ le_rfl fun _ => hlen)
            rw [List.length_cons] at hle
            omega

/-- **Below the limit, a walk over some addresses finds what can be reached from them.** -/
lemma found_of_path (ha : a ∈ as) (hpath : ReflTransGen (Child children) a target)
    (hlimit : ∀ l : List ℕ, l.Nodup →
      (∀ x ∈ l, ∃ a ∈ as, ReflTransGen (Child children) a x) → l.length ≤ limit) :
    (as.foldl (visitAddr children target limit (limit + 2)) .start).found = true := by
  have he : Explored children target limit as .start
      (as.foldl (visitAddr children target limit (limit + 2)) .start) :=
    explored_foldl (fun vis a _ => explored_visitAddr (limit + 2) vis a (Nat.le_add_right _ _)) as
      (le_refl Visitor.start.visited.length) fun _ => Nat.zero_le limit
  generalize as.foldl (visitAddr children target limit (limit + 2)) .start = vis at he
  by_contra hfound
  rw [Bool.not_eq_true] at hfound
  have hover : vis.overLimit = false := by
    by_contra hov
    have hlt := he.beyond (by simp [Visitor.start]) (Bool.not_eq_false _ ▸ hov)
    have hle := hlimit _ (he.nodup List.nodup_nil) fun x hx =>
      (he.reach x hx).resolve_left List.not_mem_nil
    omega
  have hd : vis.done = false := by
    simp [Visitor.done, hfound, hover]
  -- the visited addresses are closed, and the target is not among them
  have hstay : ∀ x, ReflTransGen (Child children) a x →
      x ∈ vis.visited ∧ x ≠ target := by
    intro x hx
    induction hx with
    | refl => exact he.all hd a ha
    | tail _ hbc ih => exact he.closed hd _ ih.1 List.not_mem_nil _ hbc
  exact (hstay target hpath).2 rfl

lemma found_foldl {f : Visitor → ℕ → Visitor}
    (hf : ∀ vis a, (f vis a).found = true → vis.found = true ∨
      ReflTransGen (Child children) a target)
    (hfound : (as.foldl f vis).found = true) : vis.found = true ∨
      ∃ a ∈ as, ReflTransGen (Child children) a target := by
  induction as generalizing vis with
  | nil => exact .inl hfound
  | cons a as ih =>
    rcases ih hfound with hfound | ⟨b, hb, hpath⟩
    · exact (hf vis a hfound).imp_right fun hpath => ⟨a, List.mem_cons_self, hpath⟩
    · exact .inr ⟨b, List.mem_cons_of_mem a hb, hpath⟩

/-- **A walk finds only what can be reached.** -/
lemma found_visitAddr (n : ℕ) (vis : Visitor) (a : ℕ)
    (hfound : (visitAddr children target limit n vis a).found = true) :
    vis.found = true ∨ ReflTransGen (Child children) a target := by
  induction n generalizing vis a with
  | zero => exact .inl hfound
  | succ n ih =>
    unfold visitAddr at hfound
    split at hfound
    · exact .inl hfound
    · split at hfound
      · rename_i heq
        exact .inr (heq ▸ .refl)
      · split at hfound
        · exact .inl hfound
        · dsimp only at hfound
          split at hfound
          · exact .inl hfound
          · refine (found_foldl ih hfound).imp_right fun ⟨b, hb, hpath⟩ => ?_
            exact .head hb hpath

end Explore

section Walk

variable (h : Heap) (target limit : ℕ)

/-- `Value::visit_children` with `CycleVisitor::visit`: the object of a value is visited once, and
then what it holds. Every descent adds a visited address, so `limit + 2` levels are enough. -/
def visitValue : ℕ → Visitor → Data.Value → Visitor
  | 0, vis, _ => vis
  | n + 1, vis, v =>
    match v.heapAddr with
    | none => vis
    | some a =>
      if vis.done then vis
      else if a = target then { vis with found := true }
      else if a ∈ vis.visited then vis
      else
        let vis := { vis with visited := a :: vis.visited }
        if limit < vis.visited.length then { vis with overLimit := true }
        else (h.slots a).foldl (visitValue n) vis

/-- `reaches`: a walk from a value comes to the target. -/
def reaches (v : Data.Value) : Bool := (visitValue h target limit (limit + 2) .start v).found

/-- `value_reaches_container`. -/
def valueReachesContainer (v : Data.Value) : Bool :=
  v.heapAddr == some target || reaches h target limit v

/-- The test of `check_and_break`: a walk from what the target holds comes back to it. -/
def cycleCheck : Bool :=
  ((h.slots target).foldl (visitValue h target limit (limit + 2)) .start).found

end Walk

section Heap

variable {h : Heap} {target limit : ℕ} {v : Data.Value} {a : ℕ}

lemma visitValue_eq (n : ℕ) (vis : Visitor) (v : Data.Value) :
    visitValue h target limit n vis v =
      v.heapAddr.elim vis (visitAddr h.refs target limit n vis) := by
  induction n generalizing vis v with
  | zero => cases v.heapAddr <;> rfl
  | succ n ih =>
    unfold visitValue
    cases v.heapAddr with
    | none => rfl
    | some a =>
      have hslots : ∀ vis, (h.slots a).foldl (visitValue h target limit n) vis =
          (h.refs a).foldl (visitAddr h.refs target limit n) vis := by
        intro vis
        rw [Heap.refs_eq_slots, List.foldl_filterMap]
        congr
        funext vis w
        rw [ih]
        cases w.heapAddr <;> rfl
      simp only [hslots, Option.elim_some, visitAddr]

lemma reaches_eq (hv : v.heapAddr = some a) : reaches h target limit v =
    ([a].foldl (visitAddr h.refs target limit (limit + 2)) .start).found := by
  rw [reaches, visitValue_eq, hv]
  rfl

/-- **Below the limit, the walk finds what can be reached.** -/
theorem reaches_of_path (hv : v.heapAddr = some a) (hpath : ReflTransGen h.Edge a target)
    (hlimit : ∀ l : List ℕ, l.Nodup → (∀ x ∈ l, ReflTransGen h.Edge a x) → l.length ≤ limit) :
    reaches h target limit v = true := by
  rw [reaches_eq hv]
  refine found_of_path List.mem_cons_self hpath fun l hl hreach => hlimit l hl fun x hx => ?_
  obtain ⟨b, hb, hbx⟩ := hreach x hx
  exact List.mem_singleton.1 hb ▸ hbx

/-- **The walk finds only what can be reached.** -/
theorem path_of_valueReachesContainer (hv : valueReachesContainer h target limit v = true) :
    ∃ a, v.heapAddr = some a ∧ ReflTransGen h.Edge a target := by
  rw [valueReachesContainer, Bool.or_eq_true, beq_iff_eq] at hv
  rcases hv with hv | hv
  · exact ⟨target, hv, .refl⟩
  · rw [reaches, visitValue_eq] at hv
    cases ha : v.heapAddr with
    | none => simp [ha, Visitor.start] at hv
    | some a =>
      rw [ha] at hv
      exact ⟨a, rfl, (found_visitAddr _ _ a hv).resolve_left (by simp [Visitor.start])⟩

end Heap

end CrabScheme.Gc
