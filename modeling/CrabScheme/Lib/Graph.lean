import Mathlib

/-!
# Cycles of a graph

## Main results

* `Graph.exists_cycle` — a finite graph without a source has a cycle.
* `Graph.cycle_mutual` — the nodes on a cycle reach each other.
-/

namespace Graph

open Relation

variable {α : Type*} {E : α → α → Prop} {a : α}

/-- There is a path from one node to another. -/
abbrev Reach (E : α → α → Prop) : α → α → Prop := ReflTransGen E

lemma exists_cycle {s : Finset α} (hne : s.Nonempty) (hpred : ∀ a ∈ s, ∃ b ∈ s, E b a) :
    ∃ a ∈ s, TransGen E a a := by
  by_contra! hacyclic
  let R : s → s → Prop := fun a b => TransGen E a b
  have : Std.Irrefl R := ⟨fun a => hacyclic a a.2⟩
  have hwf : WellFounded R := Finite.wellFounded_of_trans_of_irrefl R
  obtain ⟨a, ha⟩ := hne
  obtain ⟨m, -, hm⟩ := hwf.has_min Set.univ ⟨⟨a, ha⟩, trivial⟩
  obtain ⟨b, hb, hbm⟩ := hpred m m.2
  exact hm ⟨b, hb⟩ trivial (.single hbm)

lemma cycle_mutual (h : TransGen E a a) : TransGen (fun x y => E x y ∧ Reach E y x) a a := by
  have hpath : ∀ x, TransGen E x a → Reach E a x →
      TransGen (fun x y => E x y ∧ Reach E y x) x a := by
    intro x hx
    induction hx using TransGen.head_induction_on with
    | single hxa => exact fun hax => .single ⟨hxa, hax⟩
    | head hxy hya ih =>
      exact fun hax => .head ⟨hxy, hya.to_reflTransGen.trans hax⟩ (ih (hax.tail hxy))
  exact hpath a h .refl

end Graph
