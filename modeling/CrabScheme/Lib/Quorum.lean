import Mathlib

/-!
# Majorities and memberships

A membership is a list of voters, or two of them while it changes from one to the other. A set of
nodes is a quorum of a list when it has more than half of its members, and of a membership in
transition when it is a quorum of both halves.

## Main results

* `Quorum.Majority.inter` — two majorities of one list have a member in common.
* `Quorum.Membership.IsQuorum.target` — a quorum has a majority of the target.
-/

namespace Quorum

variable {ι : Type*}

open Classical in
/-- More than half of the members of a list are in the set. -/
noncomputable def Majority (vs : List ι) (Q : Set ι) : Prop :=
  vs.length / 2 < (vs.filter (· ∈ Q)).length

/-- **Two majorities of one list have a member in common.** -/
theorem Majority.inter {vs : List ι} {Q Q' : Set ι} (h : Majority vs Q) (h' : Majority vs Q') :
    ∃ v ∈ vs, v ∈ Q ∧ v ∈ Q' := by
  classical
  by_contra hno
  push Not at hno
  have hle : ∀ us : List ι, (∀ u ∈ us, u ∈ vs) →
      (us.filter (· ∈ Q)).length + (us.filter (· ∈ Q')).length ≤ us.length := by
    intro us
    induction us with
    | nil => intro _; simp
    | cons u us ih =>
      intro hus
      have hu := hno u (hus u List.mem_cons_self)
      have := ih fun v hv => hus v (List.mem_cons_of_mem u hv)
      by_cases hQ : u ∈ Q <;> by_cases hQ' : u ∈ Q' <;> simp_all <;> omega
  have := hle vs fun _ hv => hv
  unfold Majority at h h'
  omega

lemma Majority.mono {vs : List ι} {Q Q' : Set ι} (h : Majority vs Q) (hQ : ∀ v ∈ vs, v ∈ Q → v ∈ Q') :
    Majority vs Q' := by
  classical
  refine lt_of_lt_of_le h ?_
  simp only [← List.countP_eq_length_filter]
  refine List.countP_mono_left fun v hv hvQ => ?_
  simp only [decide_eq_true_eq] at hvQ ⊢
  exact hQ v hv hvQ

/-- **Memberships**: a settled one, or one in transition. -/
inductive Membership (ι : Type*)
  | simple (vs : List ι)
  | joint (old new : List ι)

namespace Membership

/-- Quorums; a membership in transition asks for both majorities. -/
def IsQuorum : Membership ι → Set ι → Prop
  | simple vs, Q => Majority vs Q
  | joint old new, Q => Majority old Q ∧ Majority new Q

/-- The voters a membership settles on. -/
def target : Membership ι → List ι
  | simple vs => vs
  | joint _ new => new

lemma IsQuorum.target {c : Membership ι} {Q : Set ι} (h : c.IsQuorum Q) : Majority c.target Q := by
  cases c with
  | simple vs => exact h
  | joint old new => exact h.2

lemma IsQuorum.mono {c : Membership ι} {Q Q' : Set ι} (h : c.IsQuorum Q) (hQ : Q ⊆ Q') :
    c.IsQuorum Q' := by
  cases c with
  | simple vs => exact Majority.mono h fun _ _ hv => hQ hv
  | joint old new => exact ⟨h.1.mono fun _ _ hv => hQ hv, h.2.mono fun _ _ hv => hQ hv⟩

end Membership

end Quorum
