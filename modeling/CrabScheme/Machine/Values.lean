import CrabScheme.Machine.World

/-!
# Multiple values

`values` leaves its arguments in a slot and returns the unspecified value; `call-with-values`
takes whatever is in the slot when its producer returns. The ghost part of a world records what
each producer returned and what its consumer was called with. The two agree as long as nothing
is dropped: no single value is produced while several are pending and due, and an `after` thunk
that runs before they are delivered does not touch the slot. This file has what both tiers need
to show that.

## Main results

* `synced_single`, `synced_stash` — a value that was just produced.
* `tidy_producer`, `synced_after` — a whole producer, and a body with its
  `after` thunk.
-/

namespace CrabScheme

variable {C L : Type}

/-- The deliveries recorded after `w` are exact. -/
def Exact (w w' : World C L) : Prop :=
  ∃ new, w'.ghost.deliveries = new ++ w.ghost.deliveries ∧ ∀ d ∈ new, d.1 = d.2

/-- **Tidy evaluations.** The state `due` is as before; and when nothing was dropped, deliveries
were exact and held values are still in the slot. -/
structure Tidy (w w' : World C L) : Prop where
  due : w'.ghost.due = w.ghost.due
  le : w.ghost.dropped ≤ w'.ghost.dropped
  exact : w'.ghost.dropped = w.ghost.dropped → Exact w w'
  held : w'.ghost.dropped = w.ghost.dropped → w.ghost.due = .held →
    w'.pendingValues = w.pendingValues

/-- When nothing was dropped and the value is due, the slot holds what it stands for. -/
def Synced (w w' : World C L) : Prop :=
  w'.ghost.dropped = w.ghost.dropped → w.ghost.due = .owed →
    w'.pendingValues = w'.ghost.result

section Tidy

variable {w w₁ w₂ w' : World C L}

lemma Exact.trans (h1 : Exact w w₁) (h2 : Exact w₁ w₂) : Exact w w₂ := by
  obtain ⟨new1, hd1, hnew1⟩ := h1
  obtain ⟨new2, hd2, hnew2⟩ := h2
  refine ⟨new2 ++ new1, by rw [hd2, hd1, List.append_assoc], ?_⟩
  intro d hd
  rcases List.mem_append.mp hd with h | h
  · exact hnew2 d h
  · exact hnew1 d h

lemma Tidy.of_eq (hdue : w'.ghost.due = w.ghost.due) (hdrop : w'.ghost.dropped = w.ghost.dropped)
    (hdel : w'.ghost.deliveries = w.ghost.deliveries)
    (hslot : w'.pendingValues = w.pendingValues) : Tidy w w' :=
  ⟨hdue, hdrop.ge, fun _ => ⟨[], by simp [hdel], by simp⟩, fun _ _ => hslot⟩

lemma Tidy.refl (w : World C L) : Tidy w w := .of_eq rfl rfl rfl rfl

lemma Tidy.trans (h1 : Tidy w w₁) (h2 : Tidy w₁ w₂) : Tidy w w₂ := by
  refine ⟨h2.due.trans h1.due, h1.le.trans h2.le, fun h => ?_, fun h hheld => ?_⟩
  · have := h1.le
    have := h2.le
    exact (h1.exact (by omega)).trans (h2.exact (by omega))
  · have := h1.le
    have := h2.le
    rw [h2.held (by omega) (h1.due.trans hheld), h1.held (by omega) hheld]

lemma Tidy.of_left (h : Tidy w₁ w₂) (hg : w₁.ghost = w.ghost)
    (hv : w₁.pendingValues = w.pendingValues) : Tidy w w₂ := by
  refine Tidy.trans (.of_eq ?_ ?_ ?_ hv) h <;> rw [hg]

lemma Tidy.of_right (h : Tidy w w₁) (hg : w₂.ghost = w₁.ghost)
    (hv : w₂.pendingValues = w₁.pendingValues) : Tidy w w₂ := by
  refine h.trans (.of_eq ?_ ?_ ?_ hv) <;> rw [hg]

lemma Synced.of_tidy (h1 : Tidy w w₁) (hle : Tidy w₁ w₂) (h2 : Synced w₁ w₂) : Synced w w₂ := by
  intro h howed
  have := h1.le
  have := hle.le
  exact h2 (by omega) (h1.due.trans howed)

lemma tidy_single (w : World C L) : Tidy w w.single := by
  refine ⟨rfl, Nat.le_add_right _ _, fun _ => ⟨[], rfl, by simp⟩, fun _ _ => rfl⟩

lemma synced_single (w : World C L) : Synced w w.single := by
  intro h howed
  have hnone : ¬ w.pendingValues.isSome = true := by
    intro hsome
    simp [World.single, howed, hsome] at h
  exact Option.not_isSome_iff_eq_none.mp hnone

lemma tidy_stash (w : World C L) (vs : List Value) : Tidy w (w.stash vs) := by
  refine ⟨rfl, Nat.le_add_right _ _, fun _ => ⟨[], rfl, by simp⟩, fun h hheld => ?_⟩
  simp [World.stash, hheld] at h

lemma synced_stash (w : World C L) (vs : List Value) : Synced w (w.stash vs) := fun _ _ => rfl

/-- **A producer has returned**: its values are handed over, and the slot is put back. -/
lemma tidy_producer (v : Value) (h : Tidy w.startProducer w₁) (hs : Synced w.startProducer w₁) :
    Tidy w (w₁.endProducer w.pendingValues w.ghost.due v) := by
  have hle := h.le
  have hstart : w.startProducer.ghost.dropped =
    w.ghost.dropped + if w.ghost.due = .held then 1 else 0 := rfl
  refine ⟨rfl, ?_, fun hdrop => ?_, fun _ _ => rfl⟩
  · show w.ghost.dropped ≤ w₁.ghost.dropped
    omega
  · have hdrop1 : w₁.ghost.dropped = w.ghost.dropped := hdrop
    have heq : w₁.ghost.dropped = w.startProducer.ghost.dropped := by omega
    obtain ⟨new, hnew, hexact⟩ := h.exact heq
    refine ⟨(w₁.produced v, w₁.ghost.result.getD [v]) :: new, ?_, ?_⟩
    · simp only [World.endProducer, hnew]
      rfl
    · rw [List.forall_mem_cons]
      refine ⟨?_, hexact⟩
      rw [World.produced, hs heq rfl]

lemma tidy_producer_failed (h : Tidy w.startProducer w₁) :
    Tidy w (w₁.setDue w.ghost.due) := by
  have hle := h.le
  have hstart : w.startProducer.ghost.dropped =
    w.ghost.dropped + if w.ghost.due = .held then 1 else 0 := rfl
  refine ⟨rfl, ?_, fun hdrop => ?_, fun hdrop hheld => ?_⟩
  · show w.ghost.dropped ≤ w₁.ghost.dropped
    omega
  · have hdrop1 : w₁.ghost.dropped = w.ghost.dropped := hdrop
    exact h.exact (by omega)
  · have hdrop1 : w₁.ghost.dropped = w.ghost.dropped := hdrop
    simp only [hheld, if_true] at hstart
    omega

lemma tidy_after {completed : Bool}
    (h : Tidy (w.setDue (w.ghost.due.during completed)) w₁) : Tidy w (w₁.setDue w.ghost.due) := by
  refine ⟨rfl, h.le, h.exact, fun hdrop hheld => ?_⟩
  have hheld' : (w.setDue (w.ghost.due.during completed)).ghost.due = .held := by
    simp [World.setDue, hheld, Due.during]
  exact h.held hdrop hheld'

lemma synced_after (hs : Synced w w₁) (hle : w.ghost.dropped ≤ w₁.ghost.dropped)
    (hdue : w₁.ghost.due = w.ghost.due) (h : Tidy (w₁.setDue (w₁.ghost.due.during true)) w₂) :
    Synced w ((w₂.setDue w₁.ghost.due).setResult w₁.ghost.result) := by
  intro hdrop howed
  have hdrop2 : w₂.ghost.dropped = w.ghost.dropped := hdrop
  have hle2 : w₁.ghost.dropped ≤ w₂.ghost.dropped := h.le
  have hheld : (w₁.setDue (w₁.ghost.due.during true)).ghost.due = .held := by
    simp [World.setDue, hdue, howed, Due.during]
  have hslot : w₂.pendingValues = w₁.pendingValues :=
    h.held (show w₂.ghost.dropped = w₁.ghost.dropped by omega) hheld
  show w₂.pendingValues = w₁.ghost.result
  rw [hslot, hs (by omega) howed]

end Tidy

end CrabScheme
