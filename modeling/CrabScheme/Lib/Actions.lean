import Mathlib

/-!
# Systems driven by actions

A system of many parties is a function `step : α → σ → σ`: an action, chosen by the environment,
takes a state to the next. A *run* is a list of actions. The file has the two rules every
development over such a system uses: an invariant of the step is an invariant of every run, and
an invariant about a state and a record of the past extends the record along the run.

## Main results

* `Actions.run_invariant` — the invariant rule.
* `Actions.run_annotated` — the invariant rule with a record of the past.
-/

namespace Actions

variable {σ α γ : Type*} {step : α → σ → σ} {P : σ → α → Prop}

/-- The state after a list of actions. -/
def run (step : α → σ → σ) (as : List α) (s : σ) : σ := as.foldl (fun s a => step a s) s

/-- Every action of a run is taken from a state that permits it. -/
def Allowed (step : α → σ → σ) (P : σ → α → Prop) : σ → List α → Prop
  | _, [] => True
  | s, a :: as => P s a ∧ Allowed step P (step a s) as

instance Allowed.decidable [∀ s a, Decidable (P s a)] :
    ∀ (s : σ) (as : List α), Decidable (Allowed step P s as)
  | _, [] => isTrue trivial
  | s, a :: as =>
    have := Allowed.decidable (step a s) as
    inferInstanceAs (Decidable (P s a ∧ Allowed step P (step a s) as))

@[simp] lemma run_nil (s : σ) : run step [] s = s := rfl

@[simp] lemma run_cons (a : α) (as : List α) (s : σ) :
    run step (a :: as) s = run step as (step a s) := rfl

lemma run_append (as bs : List α) (s : σ) : run step (as ++ bs) s = run step bs (run step as s) :=
  List.foldl_append

lemma run_concat (as : List α) (a : α) (s : σ) :
    run step (as ++ [a]) s = step a (run step as s) := by
  rw [run_append, run_cons, run_nil]

variable {as : List α} {s : σ}

lemma allowed_append {bs : List α} :
    Allowed step P s (as ++ bs) ↔ Allowed step P s as ∧ Allowed step P (run step as s) bs := by
  induction as generalizing s with
  | nil => exact ⟨fun h => ⟨trivial, h⟩, fun h => h.2⟩
  | cons a as ih => simp only [List.cons_append, Allowed, ih, and_assoc, run_cons]

lemma allowed_concat {a : α} :
    Allowed step P s (as ++ [a]) ↔ Allowed step P s as ∧ P (run step as s) a := by
  rw [allowed_append]
  exact and_congr_right fun _ => and_iff_left trivial

lemma Allowed.mono {Q : σ → α → Prop} (hPQ : ∀ s a, P s a → Q s a) (h : Allowed step P s as)
    : Allowed step Q s as := by
  induction as generalizing s with
  | nil => trivial
  | cons a as ih => exact ⟨hPQ s a h.1, ih h.2⟩

lemma Allowed.take (h : Allowed step P s as) (k : ℕ) : Allowed step P s (as.take k) := by
  rw [← List.take_append_drop k as, allowed_append] at h
  exact h.1

lemma Allowed.at (h : Allowed step P s as) {k : ℕ} {a : α} (ha : as[k]? = some a)
    : P (run step (as.take k) s) a := by
  obtain ⟨hk, rfl⟩ := List.getElem?_eq_some_iff.mp ha
  have h' := h.take (k + 1)
  rw [List.take_succ_eq_append_getElem hk, allowed_concat] at h'
  exact h'.2

lemma allowed_of_mem (h : ∀ s, ∀ a ∈ as, P s a) (s : σ) : Allowed step P s as := by
  induction as generalizing s with
  | nil => trivial
  | cons a as ih =>
    exact ⟨h s a List.mem_cons_self, ih (fun s b hb => h s b (List.mem_cons_of_mem a hb)) _⟩

lemma Allowed.with_mem {Q : α → Prop} (h : Allowed step P s as) (hQ : ∀ a ∈ as, Q a)
    : Allowed step (fun s a => P s a ∧ Q a) s as := by
  induction as generalizing s with
  | nil => trivial
  | cons a as ih =>
    exact ⟨⟨h.1, hQ a List.mem_cons_self⟩, ih h.2 fun b hb => hQ b (List.mem_cons_of_mem a hb)⟩

/-- **The invariant rule.** -/
theorem run_invariant {Inv : σ → Prop} (hstep : ∀ s a, Inv s → P s a → Inv (step a s)) (hs : Inv s)
    (has : Allowed step P s as) : Inv (run step as s) := by
  induction as generalizing s with
  | nil => exact hs
  | cons a as ih => exact ih (hstep s a hs has.1) has.2

/-- **The invariant rule with a record of the past.** Every state of the run has a record, and the
record only grows. -/
theorem run_annotated [Preorder γ] {Inv : σ → γ → Prop}
    (hstep : ∀ s a g, Inv s g → P s a → ∃ g', g ≤ g' ∧ Inv (step a s) g') {g : γ} (hs : Inv s g)
    (has : Allowed step P s as) :
    ∃ G : ℕ → γ, (∀ k m, k ≤ m → G k ≤ G m) ∧ ∀ k, Inv (run step (as.take k) s) (G k) := by
  induction as using List.reverseRecOn with
  | nil => exact ⟨fun _ => g, fun _ _ _ => le_rfl, fun k => by simpa using hs⟩
  | append_singleton as a ih =>
    rw [allowed_concat] at has
    obtain ⟨G, hmono, hG⟩ := ih has.1
    have hlast := hG as.length
    rw [List.take_length] at hlast
    obtain ⟨g', hle, hg'⟩ := hstep _ a _ hlast has.2
    refine ⟨fun k => if k ≤ as.length then G k else g', fun k m hkm => ?_, fun k => ?_⟩
    · dsimp only
      by_cases hm : m ≤ as.length
      · rw [if_pos hm, if_pos (Nat.le_trans hkm hm)]
        exact hmono k m hkm
      · split
        · rename_i hk
          exact (hmono k as.length hk).trans hle
        · exact le_rfl
    · dsimp only
      by_cases hk : k ≤ as.length
      · rw [if_pos hk, List.take_append_of_le_length hk]
        exact hG k
      · rw [if_neg hk, List.take_of_length_le (by rw [List.length_append, List.length_singleton]; omega),
          run_concat]
        exact hg'

end Actions
