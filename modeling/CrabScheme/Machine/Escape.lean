import CrabScheme.Machine.Control

/-!
# Escapes

An active continuation is invoked: the value goes into the escape slot and an error unwinds the
Rust stack to the `call/cc` whose identity is in the slot, with the `after` thunk of every
`dynamic-wind` body on the way run once. The slot is one for all escapes, and user code runs
while it is full, so this only works out when nothing else escapes in the meantime.

## Main results

* `Engine.unwinding_next` — what one step of the unwinding does.
* `Engine.escape_outcome` — an orderly run that starts with the invocation of a
  continuation is unwinding, with the thunks run so far innermost first, until the matching
  `call/cc` returns the value.
-/

namespace CrabScheme

variable {C L : Type}

/-- The `after` thunks of the `dynamic-wind` bodies on a stack of contexts, innermost first. -/
def windAfters (cs : List (Ctx L)) : List Value :=
  cs.filterMap fun c =>
    match c.op with
    | .windThunk after => some after
    | _ => none

/-- A context in which the `after` thunk of a failed body runs. -/
def Ctx.InFailedAfter (c : Ctx L) : Prop :=
  ∃ e result due, c.op = .windAfter (.error e) result due

/-- The stack is cut at the innermost `call/cc` with identity `id`. -/
structure CutAt (cs : List (Ctx L)) (id : ℕ) (inner : List (Ctx L)) (target : Ctx L)
    (outer : List (Ctx L)) : Prop where
  eq : cs = inner ++ target :: outer
  target : ∃ k, target.op = .callCc id k
  inner : ∀ c ∈ inner, ∀ k, c.op ≠ .callCc id k

/-- A context in which the `call/cc` with identity `id` waits. -/
def Ctx.awaits (id : ℕ) (c : Ctx L) : Bool :=
  match c.op with
  | .callCc id' _ => id' == id
  | _ => false

lemma exists_cutAt {cs : List (Ctx L)} {id : ℕ} (h : cs.any (Ctx.awaits id) = true) :
    ∃ inner target outer, CutAt cs id inner target outer := by
  induction cs with
  | nil => cases h
  | cons c cs ih =>
    by_cases hc : c.awaits id = true
    · refine ⟨[], c, cs, rfl, ?_, by simp⟩
      unfold Ctx.awaits at hc
      split at hc
      · rename_i id' k hop
        exact ⟨k, by rw [hop, beq_iff_eq.mp hc]⟩
      · cases hc
    · rw [List.any_cons, Bool.or_eq_true] at h
      obtain ⟨inner, target, outer, hcut⟩ := ih (h.resolve_left hc)
      refine ⟨c :: inner, target, outer, by simp [hcut.eq], hcut.target, ?_⟩
      rw [List.forall_mem_cons]
      refine ⟨fun k hk => hc ?_, hcut.inner⟩
      simp [Ctx.awaits, hk]

/-- The next step starts the `after` thunk `a` of a body on the stack `base`. -/
def Starts (base : List (Ctx L)) (s : State C L) (a : Value) : Prop :=
  ∃ r b cs, s.ctl = .ret r ∧ s.ctxs = ⟨.windThunk a, b⟩ :: cs ∧ s.ctxs <:+ base

/-- **Logged runs**: a run of steps that satisfy `P`, with the `after` thunks started for bodies
on the stack `base`, in order. -/
inductive LoggedRun (next : State C L → Option (State C L)) (P : State C L → Prop)
    (base : List (Ctx L)) (s : State C L) : List Value → State C L → Prop
  | refl : LoggedRun next P base s [] s
  | other {log : List Value} {t u : State C L} : LoggedRun next P base s log t → P t →
      (∀ a, ¬ Starts base t a) → next t = some u → LoggedRun next P base s log u
  | after {log : List Value} {t u : State C L} {a : Value} : LoggedRun next P base s log t →
      P t → Starts base t a → next t = some u → LoggedRun next P base s (log ++ [a]) u

namespace Engine

variable (E : Engine C L) (B : Builtins)

/-- **Orderly steps.** An escape only starts while no escape is pending, and no `after` thunk
of a failed body runs between it and its `call/cc`. -/
def Orderly (s : State C L) : Prop :=
  ∀ id v, E.escapes s = some (id, v) → s.world.pendingEscape = none ∧
    ∀ inner target outer, CutAt s.ctxs id inner target outer → ∀ c ∈ inner, ¬ c.InFailedAfter

/-- A `call/cc` returns a value to the loop that called it, or to native code. -/
def returnTo (back : Option (L × Bool)) (cs : List (Ctx L)) (v : Value) (w : World C L) :
    State C L :=
  match back with
  | some (l, tail) => E.deliverTo l tail v cs w
  | none => ⟨.ret (.ok v), cs, w⟩

/-- **Unwinding** an escape with value `v` to `target`, for the contexts `inner`: either the
escape is on its way down with the contexts `rest` still to go, or an `after` thunk runs. In
both cases the slot holds the escape. -/
inductive Unwinding (id : ℕ) (v : Value) (inner : List (Ctx L)) (target : Ctx L)
    (outer : List (Ctx L)) (s : State C L) : List Value → Prop
  | passing (dropped rest : List (Ctx L)) : inner = dropped ++ rest →
      s.ctl = .ret (.error .escape) → s.ctxs = rest ++ target :: outer →
      s.world.pendingEscape = some (id, v) → Unwinding id v inner target outer s
        (windAfters dropped)
  | inAfter (dropped : List (Ctx L)) (a : Value) (b : Option (L × Bool)) (rest : List (Ctx L))
      (extra : List (Ctx L)) (result : Option (List Value)) (due : Due) :
      inner = dropped ++ ⟨.windThunk a, b⟩ :: rest →
      s.ctxs = extra ++ ⟨.windAfter (.error .escape) result due, b⟩ :: (rest ++ target :: outer) →
      (∀ c ∈ extra, ∀ k, c.op ≠ .callCc id k) →
      s.world.pendingEscape = some (id, v) → Unwinding id v inner target outer s
        (windAfters dropped ++ [a])

lemma Unwinding.exists_next {id : ℕ} {v : Value} {inner outer : List (Ctx L)} {target : Ctx L}
    {s : State C L} {log : List Value} (h : Unwinding id v inner target outer s log) :
    ∃ t, E.next B s = some t := by
  have hne : s.ctxs ≠ [] := by
    cases h with
    | passing dropped rest _ _ hctxs _ => simp [hctxs]
    | inAfter dropped a b rest extra result due _ hctxs _ _ => simp [hctxs]
  obtain ⟨ctl, cs, w⟩ := s
  obtain ⟨c, cs, rfl⟩ := List.exists_cons_of_ne_nil hne
  cases ctl with
  | run l => exact ⟨_, rfl⟩
  | sync f args => exact ⟨_, rfl⟩
  | ret r => exact ⟨_, rfl⟩

/-! ## One step of the unwinding -/

lemma windAfters_append (cs ds : List (Ctx L)) :
    windAfters (cs ++ ds) = windAfters cs ++ windAfters ds := by
  simp [windAfters]

@[simp] lemma windAfters_thunk (a : Value) (b : Option (L × Bool)) :
    windAfters [(⟨.windThunk a, b⟩ : Ctx L)] = [a] := rfl

lemma windAfters_of_ne {c : Ctx L} (h : ∀ a, c.op ≠ .windThunk a) : windAfters [c] = [] := by
  obtain ⟨op, back⟩ := c
  cases op with
  | windThunk a => exact absurd rfl (h a)
  | _ => rfl

lemma resumePending_escape {c : Ctx L} {w : World C L} {id : ℕ} {v : Value}
    (hslot : w.pendingEscape = some (id, v)) (hcc : ∀ k, c.op ≠ .callCc id k)
    (hwind : ∀ a, c.op ≠ .windThunk a) (hafter : ¬ c.InFailedAfter) :
    ∃ w', resumePending B c.op (.error .escape) w = (.fail .escape, w') ∧
      w'.pendingEscape = some (id, v) := by
  obtain ⟨op, back⟩ := c
  cases op with
  | callCc id' k =>
    have hne : id ≠ id' := by
      rintro rfl
      exact hcc k rfl
    refine ⟨w.endFlight k, ?_, hslot⟩
    simp [resumePending, resumeCallCc, hslot, hne]
  | windThunk a => exact absurd rfl (hwind a)
  | windAfter res result due =>
    cases res with
    | ok u => exact ⟨w.setDue due, rfl, hslot⟩
    | error e => exact absurd ⟨e, result, due, rfl⟩ hafter
  | producer prev due consumer => exact ⟨w.setDue due, rfl, hslot⟩
  | handlerThunk hd prev => exact ⟨w.restoreRaise prev, rfl, hslot⟩
  | _ => exact ⟨w, rfl, hslot⟩

lemma orderly_of_forall {s : State C L} (hslot : s.world.pendingEscape = none)
    (h : ∀ c ∈ s.ctxs, ¬ c.InFailedAfter) : E.Orderly s := by
  refine fun id v _ => ⟨hslot, fun inner target outer hcut c hc => h c ?_⟩
  rw [hcut.eq]
  exact List.mem_append_left _ hc

lemma Orderly.escapes_eq_none {s : State C L} (h : E.Orderly s) {id : ℕ} {v : Value}
    (hslot : s.world.pendingEscape = some (id, v)) : E.escapes s = none := by
  cases hi : E.escapes s with
  | none => rfl
  | some iv =>
    have := (h iv.1 iv.2 hi).1
    rw [hslot] at this
    cases this

section Unwind

variable {E B}
variable {id : ℕ} {v : Value} {base inner outer : List (Ctx L)} {target : Ctx L}
variable {s s' : State C L}

lemma passing_next (hcut : CutAt base id inner target outer)
    (hfree : ∀ c ∈ inner, ¬ c.InFailedAfter) {dropped rest : List (Ctx L)}
    (hinner : inner = dropped ++ rest) (hctl : s.ctl = .ret (.error .escape))
    (hctxs : s.ctxs = rest ++ target :: outer) (hslot : s.world.pendingEscape = some (id, v))
    (hs : E.next B s = some s') :
    (∃ a, Starts base s a ∧
        Unwinding id v inner target outer s' (windAfters dropped ++ [a])) ∨
      (∀ a, ¬ Starts base s a) ∧ (Unwinding id v inner target outer s' (windAfters dropped) ∨
        windAfters dropped = windAfters inner ∧
          ∃ w, s' = E.returnTo target.back outer v w) := by
  obtain ⟨ctl, cs, w⟩ := s
  simp only at hctl hctxs hslot
  subst hctl hctxs
  cases rest with
  | nil =>
    -- the escape has arrived
    obtain ⟨k, hk⟩ := hcut.target
    refine .inr ⟨?_, .inr ⟨by simp [hinner], ?_⟩⟩
    · rintro a ⟨r, b, cs, -, hcs, -⟩
      simp only [List.nil_append, List.cons.injEq] at hcs
      rw [hcs.1] at hk
      cases hk
    · rw [List.nil_append, next_ret_cons, hk] at hs
      simp only [resumePending, resumeCallCc, hslot, Option.some.injEq] at hs
      refine ⟨{ w.endFlight k with pendingEscape := none }.single, ?_⟩
      rw [← hs]
      cases target.back with
      | none => rfl
      | some b => rfl
  | cons c rest =>
    have hmem : c ∈ inner := by simp [hinner]
    rw [List.cons_append, next_ret_cons, Option.some.injEq] at hs
    by_cases hwind : ∃ a, c.op = .windThunk a
    · -- a body is left: its `after` thunk runs
      obtain ⟨a, ha⟩ := hwind
      obtain ⟨op, b⟩ := c
      subst ha
      refine .inl ⟨a, ⟨_, b, _, rfl, rfl, ?_⟩, ?_⟩
      · rw [hcut.eq, hinner]
        exact ⟨dropped, by simp⟩
      · rw [← hs]
        exact .inAfter dropped a b rest [] w.ghost.result w.ghost.due hinner rfl (by simp) hslot
    · have hwind' : ∀ a, c.op ≠ .windThunk a := fun a h => hwind ⟨a, h⟩
      obtain ⟨w', hw', hslot'⟩ :=
        resumePending_escape B hslot (hcut.inner c hmem) hwind' (hfree c hmem)
      refine .inr ⟨?_, .inl ?_⟩
      · rintro a ⟨r, b, cs, -, hcs, -⟩
        simp only [List.cons_append, List.cons.injEq] at hcs
        exact hwind' a (by rw [hcs.1])
      · rw [hw'] at hs
        have hlog : windAfters dropped = windAfters (dropped ++ [c]) := by
          rw [windAfters_append, windAfters_of_ne hwind', List.append_nil]
        rw [hlog, ← hs]
        exact .passing (dropped ++ [c]) rest (by simp [hinner]) rfl rfl hslot'

lemma not_starts_inAfter {dropped rest extra : List (Ctx L)} {a : Value} {b : Option (L × Bool)}
    {result : Option (List Value)} {due : Due} (hcut : CutAt base id inner target outer)
    (hinner : inner = dropped ++ ⟨.windThunk a, b⟩ :: rest)
    (hctxs : s.ctxs =
      extra ++ ⟨.windAfter (.error .escape) result due, b⟩ :: (rest ++ target :: outer)) (a' : Value) :
    ¬ Starts base s a' := by
  rintro ⟨r, b', cs, -, -, p, hp⟩
  rw [hctxs, hcut.eq, hinner] at hp
  have hp' : (p ++ extra) ++ [⟨.windAfter (.error .escape) result due, b⟩] ++
      (rest ++ target :: outer) =
      dropped ++ [⟨.windThunk a, b⟩] ++ (rest ++ target :: outer) := by
    simpa using hp
  have hp'' := List.append_cancel_right hp'
  have := (List.append_inj' hp'' rfl).2
  simp at this

/-- **One step of the unwinding**: an `after` thunk is started and logged, or the unwinding goes
on with the same log, or the matching `call/cc` returns the value and every thunk has run. -/
lemma unwinding_next (hE : E.Tame) (hcut : CutAt base id inner target outer)
    (hfree : ∀ c ∈ inner, ¬ c.InFailedAfter) {log : List Value}
    (h : Unwinding id v inner target outer s log) (hok : ContsOk s.ctxs s.world)
    (hP : E.Orderly s) (hs : E.next B s = some s') :
    (∃ a, Starts base s a ∧ Unwinding id v inner target outer s' (log ++ [a])) ∨
      (∀ a, ¬ Starts base s a) ∧ (Unwinding id v inner target outer s' log ∨
        log = windAfters inner ∧ ∃ w, s' = E.returnTo target.back outer v w) := by
  cases h with
  | passing dropped rest hinner hctl hctxs hslot =>
    exact passing_next hcut hfree hinner hctl hctxs hslot hs
  | inAfter dropped a b rest extra result due hinner hctxs hextra hslot =>
    refine .inr ⟨not_starts_inAfter hcut hinner hctxs, .inl ?_⟩
    have hinv := hP.escapes_eq_none E hslot
    by_cases htop : extra = [] ∧ ∃ r, s.ctl = .ret r
    · -- the thunk has returned: the escape goes on, whatever the thunk returned
      obtain ⟨rfl, r, hr⟩ := htop
      obtain ⟨ctl, cs, w⟩ := s
      subst hr hctxs
      rw [List.nil_append, next_ret_cons, Option.some.injEq] at hs
      have hlog : windAfters dropped ++ [a] = windAfters (dropped ++ [⟨.windThunk a, b⟩]) := by
        rw [windAfters_append, windAfters_thunk]
      have hs' : s' = ⟨.ret (.error .escape), rest ++ target :: outer, w.setDue due⟩ := hs.symm
      rw [hlog, hs']
      have hinner' : inner = (dropped ++ [⟨.windThunk a, b⟩]) ++ rest := by
        rw [hinner, List.append_assoc, List.singleton_append]
      exact .passing _ rest hinner' rfl rfl hslot
    · have habove : extra ≠ [] ∨ ∀ r, s.ctl ≠ .ret r := by
        by_cases he : extra = []
        · exact .inr fun r hr => htop ⟨he, r, hr⟩
        · exact .inl he
      obtain ⟨extra', hctxs', hextra'⟩ := stack_above B hE hs hctxs habove
      have hlt : id < s.world.nextCont := by
        obtain ⟨k, hk⟩ := hcut.target
        have hown : target.owned = some (id, k) := by simp [Ctx.owned, hk]
        obtain ⟨l, hl⟩ := hok.flying target (by simp [hctxs]) id k hown
        exact hok.lt k id l true hl
      refine .inAfter dropped a b rest extra' result due hinner hctxs' ?_ ?_
      · intro c hc k hk
        rcases hextra' c hc with hold | hnew
        · exact hextra c hold k hk
        · have := hnew id k (by simp [Ctx.owned, hk])
          omega
      · rw [pendingEscape_next B hE hs hinv ?_, hslot]
        -- a `call/cc` of the thunk does not receive this escape
        intro c cs id' k v' hctl hcs hop hslot'
        rw [hslot] at hslot'
        cases hslot'
        have hne : extra ≠ [] := by
          rcases habove with h | h
          · exact h
          · exact absurd hctl (h _)
        obtain ⟨d, extra0, rfl⟩ := List.exists_cons_of_ne_nil hne
        rw [hctxs, List.cons_append, List.cons.injEq] at hcs
        exact hextra d (by simp) k (by rw [hcs.1, hop])

end Unwind

/-! ## Whole escapes -/

section Escape

variable {E}
variable {id : ℕ} {v : Value} {s₀ : State C L}

/-- **The invocation**: the escape is stored and the error starts to unwind the stack. -/
lemma escapes_next (hinv : E.escapes s₀ = some (id, v)) :
    (∃ w, E.next B s₀ = some ⟨.ret (.error .escape), s₀.ctxs, w⟩ ∧
      w.pendingEscape = some (id, v)) ∧ ∀ r, s₀.ctl ≠ .ret r := by
  obtain ⟨ctl, cs, w⟩ := s₀
  cases ctl with
  | ret r => cases hinv
  | sync f args =>
    refine ⟨?_, fun r h => by cases h⟩
    simp only [escapes, escapeOf] at hinv
    split at hinv
    · rename_i a id' snap fl hproc
      simp only [Bool.false_and, Bool.false_eq_true, if_false, Option.some.injEq,
        Prod.mk.injEq] at hinv
      obtain ⟨rfl, rfl⟩ := hinv
      refine ⟨w.setEscape id' (args.headD .unspecified), ?_, rfl⟩
      simp [callSync, hproc, callEscape, afterSync]
    · cases hinv
  | run l =>
    refine ⟨?_, fun r h => by cases h⟩
    cases hl : E.step l w with
    | next l' w' => simp [escapes, hl] at hinv
    | halt r w' => simp [escapes, hl] at hinv
    | call f args tail l' w' =>
      simp only [escapes, hl, escapeOf] at hinv
      split at hinv
      · rename_i a id' snap fl hproc
        split at hinv
        · cases hinv
        rename_i hfl
        simp only [Option.some.injEq, Prod.mk.injEq] at hinv
        obtain ⟨rfl, rfl⟩ := hinv
        obtain rfl : fl = true := by simpa using hfl
        refine ⟨w'.setEscape id' (args.headD .unspecified), ?_, rfl⟩
        rw [next_run, runLoop_call _ _ hl]
        simp [callFromLoop, hproc, callEscape, afterCall]
      · cases hinv

/-- **Escapes are exact in orderly runs.** A continuation is invoked with `v`. Every orderly run
from there is at its start, or is unwinding the contexts inside the matching `call/cc`, having
started the `after` thunks of a prefix of them, innermost first and each once, or has passed the
state in which the matching `call/cc` returned `v`, after all of these thunks and no others.

**Proof sketch.** Induction on the run; `unwinding_next` is the step. -/
theorem escape_outcome (hE : E.Tame) (hok : ContsOk s₀.ctxs s₀.world) (hP : E.Orderly s₀)
    (hinv : E.escapes s₀ = some (id, v)) {inner outer : List (Ctx L)} {target : Ctx L}
    (hcut : CutAt s₀.ctxs id inner target outer) {log : List Value} {t : State C L}
    (hrun : LoggedRun (E.next B) E.Orderly s₀.ctxs s₀ log t) :
    (t = s₀ ∧ log = []) ∨ Unwinding id v inner target outer t log ∨
      ∃ w log', log = windAfters inner ++ log' ∧
        LoggedRun (E.next B) E.Orderly s₀.ctxs s₀ (windAfters inner)
          (E.returnTo target.back outer v w) ∧
        LoggedRun (E.next B) E.Orderly s₀.ctxs (E.returnTo target.back outer v w) log' t := by
  have hfree := (hP id v hinv).2 inner target outer hcut
  obtain ⟨⟨w1, hnext1, hslot1⟩, hctl1⟩ := escapes_next B hinv
  have hstart : ∀ a, ¬ Starts s₀.ctxs s₀ a := by
    rintro a ⟨r, b, cs, hr, -⟩
    exact hctl1 r hr
  -- the invariant of continuation objects holds all along
  have hoks : ∀ log t, LoggedRun (E.next B) E.Orderly s₀.ctxs s₀ log t →
      ContsOk t.ctxs t.world := by
    intro log t hrun
    induction hrun with
    | refl => exact hok
    | other _ _ _ hn ih => exact contsOk_next B hE hn ih
    | after _ _ _ hn ih => exact contsOk_next B hE hn ih
  induction hrun with
  | refl => exact .inl ⟨rfl, rfl⟩
  | @other log t u hrun hPt hno hn ih =>
    rcases ih with ⟨rfl, rfl⟩ | hun | ⟨w, log', rfl, hrun1, hrun2⟩
    · rw [hnext1] at hn
      cases hn
      exact .inr (.inl (.passing [] inner rfl rfl hcut.eq hslot1))
    · rcases unwinding_next hE hcut hfree hun (hoks _ _ hrun) hPt hn with
        ⟨a, ha, -⟩ | ⟨-, h | ⟨rfl, w, rfl⟩⟩
      · exact absurd ha (hno a)
      · exact .inr (.inl h)
      · exact .inr (.inr ⟨w, [], by simp, .other hrun hPt hno hn, .refl⟩)
    · exact .inr (.inr ⟨w, log', rfl, hrun1, .other hrun2 hPt hno hn⟩)
  | @after log t u a hrun hPt hst hn ih =>
    rcases ih with ⟨rfl, rfl⟩ | hun | ⟨w, log', rfl, hrun1, hrun2⟩
    · exact absurd hst (hstart a)
    · rcases unwinding_next hE hcut hfree hun (hoks _ _ hrun) hPt hn with
        ⟨a', ha', h⟩ | ⟨hno, -⟩
      · obtain ⟨r, b, cs, -, hcs, -⟩ := hst
        obtain ⟨r', b', cs', -, hcs', -⟩ := ha'
        rw [hcs] at hcs'
        simp only [List.cons.injEq, Ctx.mk.injEq, Pending.windThunk.injEq] at hcs'
        rw [hcs'.1.1]
        exact .inr (.inl h)
      · exact absurd hst (hno a)
    · exact .inr (.inr ⟨w, log' ++ [a], by simp, hrun1, .after hrun2 hPt hst hn⟩)

end Escape

end Engine

end CrabScheme
