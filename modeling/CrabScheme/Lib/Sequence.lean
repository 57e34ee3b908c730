import Mathlib

/-!
# Sequencing a fallible function over a list

`List.mapM` over `Option` and `Except` succeeds exactly when the function succeeds on every
element, and its results stand in step with them.

## Main results

* `Sequence.mapM_eq_some_iff`, `Sequence.mapM_eq_ok_iff`.
-/

namespace Sequence

universe u v

variable {α β : Type u} {ε : Type v}
variable {l : List α} {l' : List β} {f : α → Except ε β}

lemma mapM_eq_some_iff {f : α → Option β} :
    l.mapM f = some l' ↔ List.Forall₂ (fun a b => f a = some b) l l' := by
  induction l generalizing l' with
  | nil => simp
  | cons a l ih =>
    rw [List.mapM_cons, List.forall₂_cons_left_iff]
    simp only [Option.bind_eq_bind, Option.bind_eq_some_iff, Option.pure_def, Option.some.injEq, ih]
    constructor
    · rintro ⟨b, hb, u, hu, rfl⟩
      exact ⟨b, u, hb, hu, rfl⟩
    · rintro ⟨b, u, hb, hu, rfl⟩
      exact ⟨b, hb, u, hu, rfl⟩

lemma bind_eq_ok_iff {x : Except ε α} {b : β} :
    (x >>= f) = .ok b ↔ ∃ a, x = .ok a ∧ f a = .ok b := by
  cases x with
  | error e => simp [bind, Except.bind]
  | ok a => simp [bind, Except.bind]

lemma mapM_eq_ok_iff : l.mapM f = .ok l' ↔ List.Forall₂ (fun a b => f a = .ok b) l l' := by
  induction l generalizing l' with
  | nil => simp [pure, Except.pure]
  | cons a l ih =>
    rw [List.mapM_cons, List.forall₂_cons_left_iff]
    simp only [bind_eq_ok_iff, ih, pure, Except.pure, Except.ok.injEq]
    constructor
    · rintro ⟨b, hb, u, hu, rfl⟩
      exact ⟨b, u, hb, hu, rfl⟩
    · rintro ⟨b, u, hb, hu, rfl⟩
      exact ⟨b, hb, u, hu, rfl⟩

lemma exists_ok_of_mapM (h : l.mapM f = .ok l') {a : α} (ha : a ∈ l) : ∃ b, f a = .ok b := by
  have hall := mapM_eq_ok_iff.mp h
  induction hall with
  | nil => cases ha
  | @cons x y l l' hx hrest ih =>
    rcases List.mem_cons.mp ha with rfl | ha
    · exact ⟨y, hx⟩
    · exact ih (mapM_eq_ok_iff.mpr hrest) ha

end Sequence
