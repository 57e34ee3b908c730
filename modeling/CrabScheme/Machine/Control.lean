import CrabScheme.Machine.Engine

/-!
# Continuation objects along runs

Which steps touch the continuation objects and the slot of the pending escape, and the
invariant that ties the two together: a `call/cc` that waits on the context stack owns a
continuation object that is still marked as in flight, and no two objects share an identity.

## Main results

* `Engine.contsOk_next` — a step keeps the invariant.
* `Engine.pendingEscape_next` — a step that starts no escape keeps the
  pending escape, unless its `call/cc` receives it.
-/

namespace CrabScheme

variable {C L : Type}

/-! ## Native procedures and the slots -/

section Native

variable (B : Builtins)

/-- Nothing but the heap, the values slot, the raise slot and the ghosts changed. -/
structure KeepsControl (w w' : World C L) : Prop where
  procs : w'.procs = w.procs
  nextCont : w'.nextCont = w.nextCont
  pendingEscape : w'.pendingEscape = w.pendingEscape

lemma KeepsControl.refl (w : World C L) : KeepsControl w w := ⟨rfl, rfl, rfl⟩

lemma higherMove_keeps (h : ℕ) (r : HigherAct × Heap) (w : World C L) :
    KeepsControl w (higherMove h r w).2 := by
  have hmove := higherMove_dispatches (e := none) w h r
  exact ⟨hmove.procs.1, hmove.procs.2, hmove.pendingEscape rfl⟩

lemma resumeCallCc_procs (id k : ℕ) (r : Except VmError Value) (w : World C L) :
    (resumeCallCc id k r w).2.procs = (w.endFlight k).procs ∧
      (resumeCallCc id k r w).2.nextCont = w.nextCont := by
  unfold resumeCallCc
  repeat' split
  all_goals exact ⟨rfl, rfl⟩

lemma resumePending_keeps {op : Pending} (h : ∀ id k, op ≠ .callCc id k)
    (r : Except VmError Value) (w : World C L) :
    KeepsControl w (resumePending B op r w).2 := by
  cases op with
  | callCc id k => exact absurd rfl (h id k)
  | higher hid k =>
    cases r with
    | ok v => exact higherMove_keeps _ _ w
    | error e => exact .refl w
  | handlerThunk hd prev =>
    simp only [resumePending, resumeHandler]
    split <;> exact ⟨rfl, rfl, rfl⟩
  | windAfter res result => cases res <;> cases r <;> exact ⟨rfl, rfl, rfl⟩
  | _ => cases r <;> exact ⟨rfl, rfl, rfl⟩

end Native

/-! ## Loops -/

/-- Only closures were made, and the slots native procedures use are as they were. -/
structure OnlyClosures (w w' : World C L) : Prop where
  procs : ∃ cs : List C, w'.procs = w.procs ++ cs.map .closure
  nextCont : w'.nextCont = w.nextCont
  pendingEscape : w'.pendingEscape = w.pendingEscape
  pendingValues : w'.pendingValues = w.pendingValues

lemma OnlyClosures.of_eq {w w' : World C L} (h1 : w'.procs = w.procs)
    (h2 : w'.nextCont = w.nextCont) (h3 : w'.pendingEscape = w.pendingEscape)
    (h4 : w'.pendingValues = w.pendingValues) : OnlyClosures w w' :=
  ⟨⟨[], by simp [h1]⟩, h2, h3, h4⟩

namespace Engine

/-- **Tame loops**: an iteration, and the entry of a closure, only make closures. -/
structure Tame (E : Engine C L) : Prop where
  step : ∀ l w, OnlyClosures w (E.step l w).world
  enter : ∀ l tail c a args w, OnlyClosures w (E.enter l tail c a args w).world
  start : ∀ c a args w, OnlyClosures w (E.start c a args w).world

variable (E : Engine C L)

/-- **The escape that the next step starts**: the continuation and the value it passes. -/
def escapes (s : State C L) : Option (ℕ × Value) :=
  match s.ctl with
  | .run l =>
    match E.step l s.world with
    | .call f args _ _ w => escapeOf true w f args
    | _ => none
  | .sync f args => escapeOf false s.world f args
  | .ret _ => none

end Engine

/-- The continuation object a waiting `call/cc` owns. -/
def Ctx.owned (c : Ctx L) : Option (ℕ × ℕ) :=
  match c.op with
  | .callCc id k => some (id, k)
  | _ => none

/-- **The invariant of continuation objects.** Identities are old and distinct, every waiting
`call/cc` owns an object of its own that is in flight, and no two own the same. -/
structure ContsOk (cs : List (Ctx L)) (w : World C L) : Prop where
  lt : ∀ (a id : ℕ) (l : L) (b : Bool), w.procs[a]? = some (.continuation id l b) →
    id < w.nextCont
  inj : ∀ (a a' id : ℕ) (l l' : L) (b b' : Bool), w.procs[a]? = some (.continuation id l b) →
    w.procs[a']? = some (.continuation id l' b') → a = a'
  flying : ∀ c ∈ cs, ∀ id k, c.owned = some (id, k) →
    ∃ l, w.procs[k]? = some (.continuation id l true)
  nodup : (cs.filterMap Ctx.owned).Nodup

variable {c : Ctx L} {r : Act C L × World C L}

namespace ContsOk

variable {cs : List (Ctx L)} {w w' : World C L}

lemma of_eq (h : ContsOk cs w) (hp : w'.procs = w.procs) (hn : w'.nextCont = w.nextCont) :
    ContsOk cs w' := by
  refine ⟨?_, ?_, ?_, h.nodup⟩
  · rw [hp, hn]; exact h.lt
  · rw [hp]; exact h.inj
  · rw [hp]; exact h.flying

variable {id : ℕ}

private lemma old_of_append {C L : Type} {ps : List (Proc C L)} {ds : List C} {a : ℕ} {l : L}
    {b : Bool} (h : (ps ++ ds.map Proc.closure)[a]? = some (.continuation id l b)) :
    ps[a]? = some (.continuation id l b) := by
  by_cases ha : a < ps.length
  · rwa [List.getElem?_append_left ha] at h
  · rw [List.getElem?_append_right (by omega)] at h
    cases hd : ds[a - ps.length]? <;> simp at h

lemma closures (h : ContsOk cs w) (hc : OnlyClosures w w') : ContsOk cs w' := by
  obtain ⟨ds, hds⟩ := hc.procs
  refine ⟨?_, ?_, ?_, h.nodup⟩
  · intro a id l b ha
    rw [hds] at ha
    rw [hc.nextCont]
    exact h.lt a id l b (old_of_append ha)
  · intro a a' id l l' b b' ha ha'
    rw [hds] at ha ha'
    exact h.inj a a' id l l' b b' (old_of_append ha) (old_of_append ha')
  · intro c hcs id k hk
    obtain ⟨l, hl⟩ := h.flying c hcs id k hk
    obtain ⟨hlt, -⟩ := List.getElem?_eq_some_iff.mp hl
    exact ⟨l, by rw [hds, List.getElem?_append_left hlt, hl]⟩

lemma push (h : ContsOk cs w) (hc : c.owned = none) : ContsOk (c :: cs) w := by
  refine ⟨h.lt, h.inj, ?_, ?_⟩
  · intro c' hc' id k hk
    rcases List.mem_cons.mp hc' with rfl | hc'
    · rw [hc] at hk; cases hk
    · exact h.flying c' hc' id k hk
  · rw [List.filterMap_cons_none hc]
    exact h.nodup

lemma pop (h : ContsOk (c :: cs) w) (hc : c.owned = none) : ContsOk cs w := by
  refine ⟨h.lt, h.inj, fun c' hc' => h.flying c' (by simp [hc']), ?_⟩
  have := h.nodup
  rwa [List.filterMap_cons_none hc] at this

lemma getElem?_endFlight (w : World C L) (k a : ℕ) {l : L} {b : Bool}
    (h : (w.endFlight k).procs[a]? = some (.continuation id l b)) :
    ∃ b', w.procs[a]? = some (.continuation id l b') ∧ (a ≠ k → b' = b) := by
  simp only [World.endFlight, List.getElem?_modify] at h
  cases hp : w.procs[a]? with
  | none => simp [hp] at h
  | some p =>
    by_cases hk : k = a
    · cases p <;> simp_all
    · simp only [hp, hk] at h
      exact ⟨b, by simpa using h, fun _ => rfl⟩

lemma endFlight {k : ℕ} (h : ContsOk (c :: cs) w) (hc : c.owned = some (id, k)) :
    ContsOk cs (w.endFlight k) := by
  have hnodup := h.nodup
  rw [List.filterMap_cons_some hc, List.nodup_cons] at hnodup
  refine ⟨?_, ?_, ?_, hnodup.2⟩
  · intro a id' l b ha
    obtain ⟨b', hb', -⟩ := getElem?_endFlight w k a ha
    exact h.lt a id' l b' hb'
  · intro a a' id' l l' b b' ha ha'
    obtain ⟨b1, hb1, -⟩ := getElem?_endFlight w k a ha
    obtain ⟨b2, hb2, -⟩ := getElem?_endFlight w k a' ha'
    exact h.inj a a' id' l l' b1 b2 hb1 hb2
  · intro c' hc' id' k' hk'
    obtain ⟨l, hl⟩ := h.flying c' (by simp [hc']) id' k' hk'
    -- another `call/cc` owns another object
    have hne : k ≠ k' := by
      rintro rfl
      obtain ⟨l0, hl0⟩ := h.flying c (by simp) id k hc
      rw [hl] at hl0
      cases hl0
      exact hnodup.1 (List.mem_filterMap.mpr ⟨c', hc', hk'⟩)
    simp [World.endFlight, hne, hl]

lemma capture (h : ContsOk cs w) (l : L) (back : Option (L × Bool)) :
    ContsOk (⟨.callCc w.nextCont w.procs.length, back⟩ :: cs)
      { (w.newProc (.continuation w.nextCont l true)).2 with nextCont := w.nextCont + 1 } := by
  have hnew : ∀ a id l' b,
      (w.procs ++ [Proc.continuation w.nextCont l true])[a]? = some (.continuation id l' b) →
      w.procs[a]? = some (.continuation id l' b) ∨ a = w.procs.length ∧ id = w.nextCont := by
    intro a id l' b ha
    by_cases hlt : a < w.procs.length
    · rw [List.getElem?_append_left hlt] at ha
      exact .inl ha
    · rw [List.getElem?_append_right (by omega)] at ha
      have ha0 : a - w.procs.length = 0 := by
        by_contra hne
        rw [List.getElem?_eq_none (by simp; omega)] at ha
        cases ha
      rw [ha0] at ha
      cases ha
      exact .inr ⟨by omega, rfl⟩
  refine ⟨?_, ?_, ?_, ?_⟩
  · intro a id l' b ha
    rcases hnew a id l' b ha with h' | ⟨-, rfl⟩
    · exact Nat.lt_succ_of_lt (h.lt a id l' b h')
    · exact Nat.lt_succ_self _
  · intro a a' id l' l'' b b' ha ha'
    rcases hnew a id l' b ha with h1 | ⟨h1, hid⟩ <;> rcases hnew a' id l'' b' ha' with h2 | ⟨h2, hid'⟩
    · exact h.inj a a' id l' l'' b b' h1 h2
    · exact absurd (h.lt a id l' b h1) (by omega)
    · exact absurd (h.lt a' id l'' b' h2) (by omega)
    · omega
  · intro c hc id k hk
    rcases List.mem_cons.mp hc with rfl | hc
    · cases hk
      exact ⟨l, by simp [World.newProc]⟩
    · obtain ⟨l', hl'⟩ := h.flying c hc id k hk
      obtain ⟨hlt, -⟩ := List.getElem?_eq_some_iff.mp hl'
      exact ⟨l', by simp only [World.newProc]; rw [List.getElem?_append_left hlt, hl']⟩
  · have hown : (⟨.callCc w.nextCont w.procs.length, back⟩ : Ctx L).owned =
        some (w.nextCont, w.procs.length) := rfl
    rw [List.filterMap_cons_some hown, List.nodup_cons]
    refine ⟨?_, h.nodup⟩
    intro hmem
    obtain ⟨c, hc, hk⟩ := List.mem_filterMap.mp hmem
    obtain ⟨l', hl'⟩ := h.flying c hc _ _ hk
    exact absurd (h.lt _ _ _ _ hl') (by omega)

end ContsOk

/-! ## Steps -/

/-- The act, if it waits, does not wait as `call/cc`: that is done by a capture alone. -/
def Act.Waits : Act C L → Prop
  | .await op _ _ => ∀ id k, op ≠ .callCc id k
  | _ => True

lemma Dispatches.waits {w : World C L} {e : Option (ℕ × Value)} (h : Dispatches w e r)
    : r.1.Waits := by
  cases h <;> simp [Act.Waits]

lemma resumePending_waits (B : Builtins) (op : Pending) (r : Except VmError Value)
    (w : World C L) : (resumePending B op r w).1.Waits := by
  unfold resumePending resumeCallCc resumeHandler
  repeat' split
  all_goals first
    | exact (higherMove_dispatches (e := none) w _ _).waits
    | simp [Act.Waits]

lemma Ctx.owned_eq_none (h : ∀ id k, c.op ≠ .callCc id k) : c.owned = none := by
  unfold Ctx.owned
  split
  · rename_i id k hop
    exact absurd hop (h id k)
  · rfl

namespace Engine

variable (E : Engine C L) (B : Builtins)

variable {E}
variable {old s' s : State C L} {back : Option (L × Bool)}

private lemma contsOk_afterLoop {cs : List (Ctx L)} {w : World C L} {r : LoopStep C L}
    (hr : OnlyClosures w r.world) (h : ContsOk cs w) (hold : ContsOk old.ctxs old.world) :
    ContsOk (afterLoop cs old r).ctxs (afterLoop cs old r).world := by
  cases r with
  | next l w' => exact h.closures hr
  | halt r w' => exact h.closures hr
  | call f args tail l w' => exact hold

private lemma contsOk_follows (hE : E.Tame) {cs : List (Ctx L)} (hf : E.Follows cs old back r s')
    (hr : r.1.Waits) (h : ContsOk cs r.2) (hold : ContsOk old.ctxs old.world) :
    ContsOk s'.ctxs s'.world := by
  cases hf with
  | enter c a args w => exact contsOk_afterLoop (hE.enter _ _ c a args w) h hold
  | start c a args w => exact contsOk_afterLoop (hE.start c a args w) h hold
  | capture f w => exact h.capture _ back
  | await op f args w => exact h.push (Ctx.owned_eq_none hr)
  | stuck => exact hold
  | _ => exact h

/-- **A step keeps the invariant of continuation objects.** -/
lemma contsOk_next (hE : E.Tame) (hs : E.next B s = some s') (h : ContsOk s.ctxs s.world)
    : ContsOk s'.ctxs s'.world := by
  cases steps_of_next hs with
  | @loop l r hctl hl => exact contsOk_afterLoop (hl ▸ hE.step l s.world) h h
  | @call l l' f args tail w _ hctl hl hf =>
    have hdispatch := callFromLoop_dispatches B args w f
    have hclosures : OnlyClosures s.world w := by
      have := hE.step l s.world
      rwa [hl] at this
    exact contsOk_follows hE hf hdispatch.waits
      ((h.closures hclosures).of_eq hdispatch.procs.1 hdispatch.procs.2) h
  | @sync f args _ hctl hf =>
    have hdispatch := callSync_dispatches B args s.world f
    exact contsOk_follows hE hf hdispatch.waits
      (h.of_eq hdispatch.procs.1 hdispatch.procs.2) h
  | @resume r c cs _ hctl hcs hf =>
    refine contsOk_follows hE hf (resumePending_waits B c.op r s.world) ?_ h
    rw [hcs] at h
    cases ho : c.owned with
    | none =>
      have hop : ∀ id k, c.op ≠ .callCc id k := by
        intro id k hop
        simp [Ctx.owned, hop] at ho
      have hk := resumePending_keeps B hop r s.world
      exact (h.pop ho).of_eq hk.procs hk.nextCont
    | some ik =>
      obtain ⟨id, k⟩ := ik
      have hop : c.op = .callCc id k := by
        unfold Ctx.owned at ho
        split at ho
        · rename_i hop
          cases ho
          exact hop
        · cases ho
      rw [hop]
      obtain ⟨hp, hn⟩ := resumeCallCc_procs id k r s.world
      exact (h.endFlight ho).of_eq hp hn

/-! ### The stack of contexts -/

/-- How a step changes the stack of contexts: it pushes one, whose identity is fresh if it is a
`call/cc`, or leaves the stack, or the innermost one goes on. -/
inductive StackMove (s : State C L) : List (Ctx L) → Prop
  | push (c : Ctx L) : (∀ id k, c.owned = some (id, k) → id = s.world.nextCont) →
      StackMove s (c :: s.ctxs)
  | same : StackMove s s.ctxs
  | pop (r : Except VmError Value) (c : Ctx L) (cs : List (Ctx L)) : s.ctl = .ret r →
      s.ctxs = c :: cs → StackMove s cs
  | replace (r : Except VmError Value) (c : Ctx L) (cs : List (Ctx L)) (op : Pending) :
      s.ctl = .ret r → s.ctxs = c :: cs → (∀ id k, op ≠ .callCc id k) →
      StackMove s (⟨op, c.back⟩ :: cs)

private lemma stackMove_afterLoop (r : LoopStep C L) : StackMove s (afterLoop s.ctxs s r).ctxs := by
  cases r <;> exact .same

private lemma fresh_of_waits {op : Pending} (h : ∀ id k, op ≠ .callCc id k) :
    ∀ id k, (⟨op, back⟩ : Ctx L).owned = some (id, k) → id = s.world.nextCont := by
  intro id k hk
  rw [Ctx.owned_eq_none h] at hk
  cases hk

private lemma stackMove_follows (hf : E.Follows s.ctxs s back r s') (hr : r.1.Waits)
    (hn : r.2.nextCont = s.world.nextCont) : StackMove s s'.ctxs := by
  cases hf with
  | enter | start => exact stackMove_afterLoop _
  | capture f w =>
    refine .push _ fun id k hk => ?_
    cases hk
    exact hn
  | await op f args w => exact .push _ (fresh_of_waits hr)
  | _ => exact .same

/-- **Every step moves the stack of contexts in one of these ways.** -/
lemma stackMove_next (hE : E.Tame) (hs : E.next B s = some s') : StackMove s s'.ctxs := by
  cases steps_of_next hs with
  | loop hctl hl => exact stackMove_afterLoop _
  | @call l l' f args tail w _ hctl hl hf =>
    have hdispatch := callFromLoop_dispatches B args w f
    have hclosures := hE.step l s.world
    rw [hl] at hclosures
    exact stackMove_follows hf hdispatch.waits (hdispatch.procs.2.trans hclosures.nextCont)
  | @sync f args _ hctl hf =>
    have hdispatch := callSync_dispatches B args s.world f
    exact stackMove_follows hf hdispatch.waits hdispatch.procs.2
  | @resume r c cs _ hctl hcs hf =>
    have hwaits := resumePending_waits B c.op r s.world
    generalize resumePending B c.op r s.world = act at hf hwaits
    cases hf with
    | await op f args w => exact .replace r c cs op hctl hcs hwaits
    | stuck => exact .same
    | enter | start =>
      unfold afterLoop
      split
      · exact .pop r c cs hctl hcs
      · exact .pop r c cs hctl hcs
      · exact .same
    | capture f w hback hold => exact absurd (hold.symm.trans hcs).symm (List.cons_ne_self c cs)
    | _ => exact .pop r c cs hctl hcs

lemma stack_above (hE : E.Tame) (hs : E.next B s = some s') {extra base : List (Ctx L)}
    (hctxs : s.ctxs = extra ++ base) (habove : extra ≠ [] ∨ ∀ r, s.ctl ≠ .ret r) :
    ∃ extra', s'.ctxs = extra' ++ base ∧ ∀ c ∈ extra', c ∈ extra ∨
      ∀ id k, c.owned = some (id, k) → id = s.world.nextCont := by
  have hmove := stackMove_next B hE hs
  generalize hcs : s'.ctxs = cs' at hmove
  cases hmove with
  | push c hc =>
    refine ⟨c :: extra, by simp [hctxs], ?_⟩
    intro d hd
    rcases List.mem_cons.mp hd with rfl | hd
    · exact .inr hc
    · exact .inl hd
  | same => exact ⟨extra, hctxs, fun c hc => .inl hc⟩
  | pop r c cs hr hc =>
    rcases habove with hne | hctl
    · obtain ⟨d, extra, rfl⟩ := List.exists_cons_of_ne_nil hne
      rw [hctxs, List.cons_append, List.cons.injEq] at hc
      exact ⟨extra, hc.2.symm, fun c hc => .inl (by simp [hc])⟩
    · exact absurd hr (hctl r)
  | replace r c cs op hr hc hop =>
    rcases habove with hne | hctl
    · obtain ⟨d, extra, rfl⟩ := List.exists_cons_of_ne_nil hne
      rw [hctxs, List.cons_append, List.cons.injEq] at hc
      refine ⟨⟨op, c.back⟩ :: extra, by rw [← hc.2]; rfl, ?_⟩
      intro e he
      rcases List.mem_cons.mp he with rfl | he
      · exact .inr (fresh_of_waits hop)
      · exact .inl (by simp [he])
    · exact absurd hr (hctl r)

/-! ### The slot of the pending escape -/

private lemma pendingEscape_afterLoop {cs : List (Ctx L)} {w : World C L} {r : LoopStep C L}
    (hr : OnlyClosures w r.world) (hold : old.world.pendingEscape = w.pendingEscape) :
    (afterLoop cs old r).world.pendingEscape = w.pendingEscape := by
  cases r with
  | next l w' => exact hr.pendingEscape
  | halt r w' => exact hr.pendingEscape
  | call f args tail l w' => exact hold

private lemma pendingEscape_follows (hE : E.Tame) {cs : List (Ctx L)}
    (hf : E.Follows cs old back r s') (hr : r.2.pendingEscape = old.world.pendingEscape) :
    s'.world.pendingEscape = old.world.pendingEscape := by
  cases hf with
  | enter c a args w => exact (pendingEscape_afterLoop (hE.enter _ _ c a args w) hr.symm).trans hr
  | start c a args w => exact (pendingEscape_afterLoop (hE.start c a args w) hr.symm).trans hr
  | stuck => rfl
  | _ => exact hr

/-- **The pending escape survives** a step that starts no escape, unless the `call/cc` it
is meant for receives it. -/
lemma pendingEscape_next (hE : E.Tame) (hs : E.next B s = some s') (hinv : E.escapes s = none)
    (hnot : ∀ c cs id k v, s.ctl = .ret (.error .escape) → s.ctxs = c :: cs → c.op = .callCc id k → s.world.pendingEscape ≠ some (id, v))
    : s'.world.pendingEscape = s.world.pendingEscape := by
  cases steps_of_next hs with
  | @loop l r hctl hl => exact pendingEscape_afterLoop (hl ▸ hE.step l s.world) rfl
  | @call l l' f args tail w _ hctl hl hf =>
    have hclosures := hE.step l s.world
    rw [hl] at hclosures
    refine pendingEscape_follows hE hf (Eq.trans ?_ hclosures.pendingEscape)
    exact (callFromLoop_dispatches B args w f).pendingEscape (by simpa [escapes, hctl, hl] using hinv)
  | @sync f args _ hctl hf =>
    refine pendingEscape_follows hE hf ?_
    exact (callSync_dispatches B args s.world f).pendingEscape (by simpa [escapes, hctl] using hinv)
  | @resume r c cs _ hctl hcs hf =>
    refine pendingEscape_follows hE hf ?_
    by_cases hop : ∃ id k, c.op = .callCc id k
    · obtain ⟨id, k, hop⟩ := hop
      rw [hop]
      simp only [resumePending, resumeCallCc]
      split
      · rfl
      · split
        · rename_i eid v hslot
          split
          · rename_i heq
            subst heq
            exact absurd hslot (hnot c cs _ k v hctl hcs hop)
          · rfl
        · rfl
      · rfl
    · exact (resumePending_keeps B (fun id k h => hop ⟨id, k, h⟩) r s.world).pendingEscape

end Engine

end CrabScheme
