import Mathlib

/-!
# Loops over a stack of work

A loop takes an item from a stack, changes its state and puts new items on the stack, until the
stack is empty. Such a loop is given a number of rounds; it has no answer when they are used up.
The rules below give total correctness: an invariant of the state and the stack, and a measure
that pays for every item a step pushes.

## Main results

* `Worklist.run_total` — the rule of the loop.
* `Worklist.foldlM_total` — the rule of a loop over a list.
-/

namespace Worklist

variable {σ α : Type*}

/-- Steps are taken until the stack is empty; the items of a step go on top. -/
def run (step : σ → α → Option (σ × List α)) : ℕ → σ → List α → Option σ
  | _, s, [] => some s
  | 0, _, _ :: _ => none
  | n + 1, s, a :: stack =>
    match step s a with
    | some (s', pushed) => run step n s' (pushed ++ stack)
    | none => none

/-- **Total correctness of a loop.** The invariant holds with the empty stack in the end, if every
step keeps it and pushes no more items than the measure goes down by. -/
theorem run_total (step : σ → α → Option (σ × List α)) (I : σ → List α → Prop) (μ : σ → ℕ)
    (hstep : ∀ s a stack, I s (a :: stack) → ∃ s' pushed, step s a = some (s', pushed) ∧
      I s' (pushed ++ stack) ∧ μ s' + pushed.length ≤ μ s)
    (n : ℕ) (s : σ) (stack : List α) (h : I s stack) (hn : μ s + stack.length ≤ n) :
    ∃ s', run step n s stack = some s' ∧ I s' [] := by
  induction n generalizing s stack with
  | zero =>
    obtain rfl : stack = [] := List.eq_nil_of_length_eq_zero (by omega)
    exact ⟨s, rfl, h⟩
  | succ n ih =>
    cases stack with
    | nil => exact ⟨s, rfl, h⟩
    | cons a stack =>
      obtain ⟨s', pushed, hs', hI, hμ⟩ := hstep s a stack h
      rw [List.length_cons] at hn
      obtain ⟨t, ht, hIt⟩ := ih _ _ hI (by rw [List.length_append]; omega)
      exact ⟨t, by simp only [run, hs', ht], hIt⟩

/-- **Total correctness of a loop over a list**: the invariant speaks of what is left of it. -/
theorem foldlM_total {f : σ → α → Option σ} (I : σ → List α → Prop)
    (hstep : ∀ s a rest, I s (a :: rest) → ∃ s', f s a = some s' ∧ I s' rest) {s : σ} {l : List α}
    (h : I s l) : ∃ s', l.foldlM f s = some s' ∧ I s' [] := by
  induction l generalizing s with
  | nil => exact ⟨s, rfl, h⟩
  | cons a l ih =>
    obtain ⟨s', hs', hI⟩ := hstep s a l h
    obtain ⟨t, ht, hIt⟩ := ih hI
    exact ⟨t, by simp [hs', ht], hIt⟩

end Worklist
