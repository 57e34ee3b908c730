import CrabScheme.Walker.Values
import CrabScheme.Vm.Continuations

/-!
# Multiple values in the virtual machine

The virtual machine passes multiple values through the same kind of slot as the evaluator, but
its producers, consumers and `after` thunks are contexts of a small-step machine, so what holds
between them is an invariant of the stack of contexts. With it, both tiers deliver exactly what
the producer returned in every run that drops nothing.

## Main results

* `deliveryOk_next` — one step.
* `deliveries_exact` — every run, in both tiers.
* `discarded_values_delivered` — a run that drops values.
-/

namespace CrabScheme

open Transition

/-- The slot and the record of deliveries are as before. -/
structure Same {C L : Type} (w w' : World C L) : Prop where
  due : w'.ghost.due = w.ghost.due
  dropped : w'.ghost.dropped = w.ghost.dropped
  deliveries : w'.ghost.deliveries = w.ghost.deliveries
  result : w'.ghost.result = w.ghost.result
  slot : w'.pendingValues = w.pendingValues

variable {C : Type} {s : VmState}

@[refl] lemma Same.refl {L : Type} (w : World C L) : Same w w := ⟨rfl, rfl, rfl, rfl, rfl⟩

lemma Same.tidy {L : Type} {w w' : World C L} (h : Same w w') : Tidy w w' :=
  .of_eq h.due h.dropped h.deliveries h.slot

/-- A value was produced. -/
def Yields {C L : Type} (w w' : World C L) : Prop := Tidy w w' ∧ Synced w w'

lemma yields_single {L : Type} (w : World C L) : Yields w w.single :=
  ⟨tidy_single w, synced_single w⟩

lemma Same.yields {L : Type} {w w1 w2 : World C L} (h : Same w w1) (h2 : Yields w1 w2) :
    Yields w w2 :=
  ⟨h.tidy.trans h2.1, .of_tidy h.tidy h2.1 h2.2⟩

/-! ## Contexts -/

/-- Native procedures that neither deliver values nor hold them. -/
def Pending.plain : Pending → Bool
  | .producer _ _ _ => false
  | .windAfter _ _ _ => false
  | _ => true

/-- **The invariant of contexts**, for the state `due` and the slot of the code that runs on top
of them. A producer was entered while nothing was held; while the `after` thunk of a body whose
value is due runs, the slot holds what the value stands for. -/
inductive StackOk {L : Type} : Due → Option (List Value) → List (Ctx L) → Prop
  | nil (slot : Option (List Value)) : StackOk .idle slot []
  | other {d : Due} {slot : Option (List Value)} {cs : List (Ctx L)} (c : Ctx L)
      (hc : c.op.plain = true) : StackOk d slot cs → StackOk d slot (c :: cs)
  | producer {d : Due} {prev : Option (List Value)} {cs : List (Ctx L)}
      (slot : Option (List Value)) (consumer : Value) (b : Option (L × Bool)) (hd : d ≠ .held) :
      StackOk d prev cs → StackOk .owed slot (⟨.producer prev d consumer, b⟩ :: cs)
  | after {d : Due} {slot : Option (List Value)} {cs : List (Ctx L)} (res : Except VmError Value)
      (result : Option (List Value)) (b : Option (L × Bool))
      (hheld : d = .owed → res.isOk = true → slot = result) :
      StackOk d slot cs → StackOk (d.during res.isOk) slot (⟨.windAfter res result d, b⟩ :: cs)

section Contexts

variable {L : Type} {d : Due} {cs : List (Ctx L)}

lemma StackOk.slot {slot slot' : Option (List Value)} (h : StackOk d slot cs) (hd : d ≠ .held) :
    StackOk d slot' cs := by
  induction h with
  | nil => exact .nil slot'
  | other c hc _ ih => exact .other c hc (ih hd)
  | producer _ consumer b hd' h _ => exact .producer slot' consumer b hd' h
  | @after d slot cs res result b hheld h ih =>
    have hd' : d ≠ .held := by
      rintro rfl
      exact hd rfl
    refine .after res result b (fun howed hok => ?_) (ih hd')
    rw [howed, hok] at hd
    exact absurd rfl hd

lemma StackOk.of_tidy {w w' : World C L} (h : StackOk w.ghost.due w.pendingValues cs)
    (ht : Tidy w w') (hdrop : w'.ghost.dropped = w.ghost.dropped) :
    StackOk w'.ghost.due w'.pendingValues cs := by
  rw [ht.due]
  by_cases hheld : w.ghost.due = .held
  · rw [ht.held hdrop hheld]
    exact h
  · exact h.slot hheld

end Contexts

/-- The value that a state holds is in step with the slot. -/
def CtlSynced (s : VmState) : Prop :=
  match s.ctl with
  | .run l => l.stack ≠ [] → s.world.pendingValues = s.world.ghost.result
  | .ret (.ok _) => s.world.pendingValues = s.world.ghost.result
  | _ => True

/-- **The invariant of machine states.** -/
structure DeliveryOk (s : VmState) : Prop where
  stack : StackOk s.world.ghost.due s.world.pendingValues s.ctxs
  ctl : s.world.ghost.due = .owed → CtlSynced s

/-- What a step owes: it drops, or keeps the invariant and delivers exactly. -/
structure StepOk (w : VmWorld) (s' : VmState) : Prop where
  le : w.ghost.dropped ≤ s'.world.ghost.dropped
  keeps : s'.world.ghost.dropped = w.ghost.dropped → DeliveryOk s' ∧ Exact w s'.world

section Steps

variable {w w' : VmWorld} {cs : List (Ctx VmLoop)}

lemma stepOk_of_yields (h : StackOk w.ghost.due w.pendingValues cs) (hy : Yields w w')
    (ctl : Ctl VmLoop) : StepOk w ⟨ctl, cs, w'⟩ := by
  refine ⟨hy.1.le, fun hdrop => ⟨⟨h.of_tidy hy.1 hdrop, fun howed => ?_⟩, hy.1.exact hdrop⟩⟩
  have hslot := hy.2 hdrop (hy.1.due.symm.trans howed)
  unfold CtlSynced
  split
  · exact fun _ => hslot
  · exact hslot
  · trivial

lemma stepOk_of_same (h : StackOk w.ghost.due w.pendingValues cs) (hs : Same w w')
    {ctl : Ctl VmLoop} (hctl : w.ghost.due = .owed → CtlSynced ⟨ctl, cs, w'⟩) :
    StepOk w ⟨ctl, cs, w'⟩ :=
  ⟨hs.tidy.le, fun hdrop => ⟨⟨h.of_tidy hs.tidy hdrop, fun howed =>
    hctl (hs.due.symm.trans howed)⟩, hs.tidy.exact hdrop⟩⟩

lemma stepOk_of_tidy (h : StackOk w.ghost.due w.pendingValues cs) (ht : Tidy w w')
    {ctl : Ctl VmLoop} (hctl : CtlSynced ⟨ctl, cs, w'⟩) : StepOk w ⟨ctl, cs, w'⟩ :=
  ⟨ht.le, fun hdrop => ⟨⟨h.of_tidy ht hdrop, fun _ => hctl⟩, ht.exact hdrop⟩⟩

end Steps

/-! ## Native procedures -/

/-- What a native dispatch does to the slot. -/
def ActOk (w : VmWorld) : Act VmClosure VmLoop × VmWorld → Prop
  | (.value _, w') => Yields w w'
  | (.restore _ _, w') => Yields w w'
  | (.await op _ _, w') =>
    (∃ consumer, op = .producer w.pendingValues w.ghost.due consumer ∧ w' = w.startProducer) ∨
    op.plain = true ∧ Same w w'
  | (_, w') => Same w w'

private lemma same_heap (w : VmWorld) (h : Heap) : Same w { w with heap := h } :=
  ⟨rfl, rfl, rfl, rfl, rfl⟩

lemma Dispatches.actOk {w : VmWorld} {e : Option (ℕ × Value)}
    {r : Act VmClosure VmLoop × VmWorld} (hr : Dispatches w e r) : ActOk w r := by
  cases hr with
  | value v h => exact (same_heap w h).yields (yields_single _)
  | values v vs h => exact (same_heap w h).yields ⟨tidy_stash _ vs, synced_stash _ vs⟩
  | restore l v => exact yields_single w
  | higher k s f args h => exact .inr ⟨rfl, same_heap w h⟩
  | producer f consumer => exact .inl ⟨consumer, rfl, rfl⟩
  | handler | wind => exact .inr ⟨rfl, ⟨rfl, rfl, rfl, rfl, rfl⟩⟩
  | _ => exact ⟨rfl, rfl, rfl, rfl, rfl⟩

/-! ## The dispatch loop -/

/-- What an iteration of the loop with operands `st`, or the entry of a closure, does to the
slot: a value is produced, or the operands only shrink. -/
def LoopOk (st : List Value) (w : VmWorld) : VmStep → Prop
  | .next l w' => Yields w w' ∨ Same w w' ∧ (l.stack ≠ [] → st ≠ [])
  | .halt r w' => Yields w w' ∨ Same w w' ∧ (r.isOk = true → st ≠ [])
  | .call _ _ _ _ _ => True

section Loop

variable (B : Builtins) (w : VmWorld)

private lemma loopOk_error (st : List Value) (e : VmError) : LoopOk st w (.halt (.error e) w) :=
  .inr ⟨Same.refl w, nofun⟩

private lemma popFrame_loopOk (fs : List Frame) (st : List Value) :
    LoopOk st w (popFrame fs st w) := by
  unfold popFrame
  split
  · exact .inr ⟨Same.refl w, fun _ => by simp⟩
  · exact loopOk_error w _ _
  · exact .inr ⟨Same.refl w, id⟩

private lemma raiseArith_loopOk (st : List Value) (op : Fx2) (v : Value) :
    LoopOk st w (raiseArith B op v w) :=
  .inr ⟨⟨rfl, rfl, rfl, rfl, rfl⟩, nofun⟩

private lemma popping_loopOk (st : List Value) (k : Value → List Value → VmStep)
    (hk : ∀ v st', st = v :: st' → LoopOk st w (k v st')) : LoopOk st w (popping st w k) := by
  unfold popping
  split
  · exact hk _ _ rfl
  · exact loopOk_error w _ _

lemma exec_loopOk (i : Inst) (f : Frame) (fs : List Frame) (st : List Value) :
    LoopOk st w (exec B i f fs st w) := by
  have hpop : ∀ {v : Value} {st' : List Value}, st = v :: st' → st ≠ [] := by
    rintro v st' rfl
    simp
  cases i with
  | const idx =>
    simp only [exec]
    split
    · exact .inl (yields_single w)
    · exact loopOk_error w _ _
  | loadVar x =>
    simp only [exec]
    split
    · exact .inl (yields_single w)
    · exact loopOk_error w _ _
  | setVar x =>
    exact popping_loopOk w st _ fun v st' h => .inr ⟨⟨rfl, rfl, rfl, rfl, rfl⟩, fun _ => hpop h⟩
  | defineGlobal x =>
    exact popping_loopOk w st _ fun v st' h => .inr ⟨⟨rfl, rfl, rfl, rfl, rfl⟩, fun _ => hpop h⟩
  | defineLocal x =>
    refine popping_loopOk w st _ fun v st' h => .inr ⟨?_, fun _ => hpop h⟩
    unfold World.defineLocal
    split <;> exact ⟨rfl, rfl, rfl, rfl, rfl⟩
  | pop => exact popping_loopOk w st _ fun v st' h => .inr ⟨Same.refl w, fun _ => hpop h⟩
  | jumpIfFalse t =>
    exact popping_loopOk w st _ fun v st' h => .inr ⟨Same.refl w, fun _ => hpop h⟩
  | jump t => exact .inr ⟨Same.refl w, id⟩
  | call n =>
    simp only [exec, execCall]
    split
    · trivial
    · exact loopOk_error w _ _
  | tailCall n =>
    simp only [exec, execCall]
    split
    · trivial
    · exact loopOk_error w _ _
  | makeClosure idx =>
    have hs : Same w (w.newProc (.closure ⟨f.bc, idx, f.env⟩)).2 := ⟨rfl, rfl, rfl, rfl, rfl⟩
    exact .inl (hs.yields (yields_single _))
  | ret => exact popFrame_loopOk w fs st
  | pushMark =>
    refine popping_loopOk w st _ fun v st' h => ?_
    unfold popping
    split
    · exact .inr ⟨Same.refl w, fun _ => hpop h⟩
    · exact loopOk_error w _ _
  | enterScope => exact .inr ⟨⟨rfl, rfl, rfl, rfl, rfl⟩, id⟩
  | leaveScope =>
    simp only [exec]
    split
    · exact .inr ⟨Same.refl w, id⟩
    · exact loopOk_error w _ _
  | fx2 op =>
    simp only [exec, execFx2]
    split
    · split
      · exact .inl (yields_single w)
      · exact raiseArith_loopOk B w _ op _
    · exact loopOk_error w _ _
  | branchOn b t =>
    simp only [exec, execBranch]
    split
    · exact .inr ⟨Same.refl w, fun _ => by simp⟩
    · split
      · exact .inr ⟨Same.refl w, fun _ => by simp⟩
      · exact raiseArith_loopOk B w _ _ _
    · exact loopOk_error w _ _

private lemma applyFastPrimop_values (fp : FastPrimopBody) (args : List Value) :
    Yields w (applyFastPrimop B fp args w).2 ∨
      Same w (applyFastPrimop B fp args w).2 ∧ (applyFastPrimop B fp args w).1.isOk = false := by
  unfold applyFastPrimop
  repeat' split
  · exact .inl (yields_single w)
  · exact .inr ⟨⟨rfl, rfl, rfl, rfl, rfl⟩, rfl⟩
  · exact .inr ⟨Same.refl w, rfl⟩

private lemma same_bindArgs (params : List Symbol) (rest selfBind : Option Symbol) (env : Env)
    (self : Value) (args : List Value) :
    Same w (bindArgs params rest selfBind env self args w).2 := by
  cases rest <;> cases selfBind <;> exact ⟨rfl, rfl, rfl, rfl, rfl⟩

lemma enter_loopOk (l : VmLoop) (tail : Bool) (c : VmClosure) (a : ℕ) (args : List Value) :
    LoopOk l.stack w (l.enter B tail c a args w) := by
  unfold VmLoop.enter
  split
  · split
    · split
      · rename_i fp _
        unfold deliverFast
        rcases applyFastPrimop_values B w fp args with hy | ⟨hs, herr⟩
        · repeat' split
          all_goals exact .inl hy
        · split
          · rename_i v hv
            rw [hv] at herr
            cases herr
          · exact .inr ⟨hs, nofun⟩
      · unfold pushBody
        split <;> exact .inr ⟨same_bindArgs w _ _ _ _ _ args, id⟩
    · exact loopOk_error w _ _
  · exact loopOk_error w _ _

lemma startClosure_loopOk (c : VmClosure) (a : ℕ) (args : List Value) :
    LoopOk [] w (startClosure B c a args w) := by
  unfold startClosure
  split
  · split
    · split
      · rename_i fp _
        rcases applyFastPrimop_values B w fp args with hy | ⟨hs, herr⟩
        · exact .inl hy
        · exact .inr ⟨hs, fun h => by rw [herr] at h; cases h⟩
      · exact .inr ⟨same_bindArgs w _ _ _ _ _ args, fun h => absurd rfl h⟩
    · exact loopOk_error w _ _
  · exact loopOk_error w _ _

lemma enter_ne_call (l : VmLoop) (tail : Bool) (c : VmClosure) (a : ℕ) (args : List Value)
    (g : Value) (vs : List Value) (t : Bool) (l' : VmLoop) (w' : VmWorld) :
    l.enter B tail c a args w ≠ .call g vs t l' w' := by
  unfold VmLoop.enter deliverFast pushBody
  repeat' split
  all_goals exact nofun

lemma startClosure_ne_call (c : VmClosure) (a : ℕ) (args : List Value) (g : Value)
    (vs : List Value) (t : Bool) (l' : VmLoop) (w' : VmWorld) :
    startClosure B c a args w ≠ .call g vs t l' w' := by
  unfold startClosure
  repeat' split
  all_goals exact nofun

end Loop

/-! ## One step of the machine -/

section Machine

variable {B : Builtins} {w : VmWorld} {cs : List (Ctx VmLoop)}

lemma stepOk_afterLoop (old : VmState) {st : List Value} {r : VmStep}
    (h : StackOk w.ghost.due w.pendingValues cs)
    (hst : w.ghost.due = .owed → st ≠ [] → w.pendingValues = w.ghost.result)
    (hr : LoopOk st w r) (hcall : ∀ g vs t l' w', r ≠ .call g vs t l' w') :
    StepOk w (Engine.afterLoop cs old r) := by
  cases r with
  | next l w' =>
    rcases hr with hy | ⟨hs, hl⟩
    · exact stepOk_of_yields h hy _
    · refine stepOk_of_same h hs fun howed hne => ?_
      show w'.pendingValues = w'.ghost.result
      rw [hs.slot, hs.result]
      exact hst howed (hl hne)
  | halt r w' =>
    rcases hr with hy | ⟨hs, hl⟩
    · exact stepOk_of_yields h hy _
    · refine stepOk_of_same h hs fun howed => ?_
      cases r with
      | error e => trivial
      | ok v =>
        show w'.pendingValues = w'.ghost.result
        rw [hs.slot, hs.result]
        exact hst howed (hl rfl)
  | call g vs t l' w' => exact absurd rfl (hcall g vs t l' w')

lemma StepOk.of_same {w' : VmWorld} (hs : Same w w') (h : StepOk w' s) : StepOk w s := by
  refine ⟨hs.dropped ▸ h.le, fun hdrop => ?_⟩
  obtain ⟨hok, hexact⟩ := h.keeps (hdrop.trans hs.dropped.symm)
  exact ⟨hok, (hs.tidy.exact hs.dropped).trans hexact⟩

lemma stepOk_await (h : StackOk w.ghost.due w.pendingValues cs) {op : Pending} {f : Value}
    {args : List Value} {w' : VmWorld} (hr : ActOk w (.await op f args, w'))
    (b : Option (VmLoop × Bool)) : StepOk w ⟨.sync f args, ⟨op, b⟩ :: cs, w'⟩ := by
  rcases hr with ⟨consumer, rfl, rfl⟩ | ⟨hop, hs⟩
  · -- a producer is called: nothing may be held
    refine ⟨Nat.le_add_right _ _, fun hdrop => ⟨⟨?_, fun _ => trivial⟩, ⟨[], rfl, by simp⟩⟩⟩
    have hd : w.ghost.due ≠ .held := by
      intro hheld
      simp [World.startProducer, hheld] at hdrop
    exact .producer none consumer b hd h
  · refine ⟨hs.tidy.le, fun hdrop => ⟨⟨?_, fun _ => trivial⟩, hs.tidy.exact hdrop⟩⟩
    exact .other _ hop (h.of_tidy hs.tidy hdrop)

variable {back : Option (VmLoop × Bool)} {old : VmState} {r : Except VmError Value}

/-- **What follows the dispatch of a call.** -/
lemma stepOk_follows {s' : VmState} {r : Act VmClosure VmLoop × VmWorld}
    (hf : (vmEngine B).Follows cs old back r s') (h : StackOk w.ghost.due w.pendingValues cs)
    (hst : ∀ l tail, back = some (l, tail) → w.ghost.due = .owed → l.stack ≠ [] → w.pendingValues = w.ghost.result)
    (hold : StepOk w old) (hr : ActOk w r) : StepOk w s' := by
  -- the slot is the same in the world in which a closure is called or a loop captured
  have hsame : ∀ {w'}, Same w w' → StackOk w'.ghost.due w'.pendingValues cs := by
    intro w' hs
    rw [hs.due, hs.slot]
    exact h
  cases hf with
  | value v w' ctl => exact stepOk_of_yields h hr ctl
  | restore l v w' => exact stepOk_of_yields h hr _
  | await op f args w' => exact stepOk_await h hr back
  | enter c a args w' hback =>
    have hs : Same w w' := hr
    refine StepOk.of_same hs (stepOk_afterLoop old (hsame hs) ?_ (enter_loopOk B w' _ _ c a args)
      (enter_ne_call B w' _ _ c a args))
    rw [hs.due, hs.slot, hs.result]
    exact hst _ _ hback
  | start c a args w' =>
    have hs : Same w w' := hr
    exact StepOk.of_same hs (stepOk_afterLoop old (hsame hs) (fun _ h => absurd rfl h)
      (startClosure_loopOk B w' c a args) (startClosure_ne_call B w' c a args))
  | capture f w' =>
    have hs : Same w w' := hr
    refine StepOk.of_same hs ⟨le_rfl, fun _ => ⟨⟨?_, fun _ => trivial⟩, ⟨[], rfl, by simp⟩⟩⟩
    exact .other _ rfl (show StackOk w'.ghost.due w'.pendingValues cs from hsame hs)
  | fail | handOver => exact stepOk_of_tidy h (Same.tidy hr) trivial
  | stuck => exact hold

lemma stepOk_returned {w' : VmWorld} (back : Option (VmLoop × Bool)) (v : Value)
    (h : ∀ ctl, StepOk w ⟨ctl, cs, w'⟩) :
    StepOk w ((vmEngine B).afterResume back cs old (.value v, w')) := by
  unfold Engine.afterResume
  cases back with
  | none => exact h _
  | some b =>
    simp only [Engine.deliverTo]
    split <;> exact h _

lemma stepOk_passed {w' : VmWorld} (h : StackOk w.ghost.due w.pendingValues cs)
    (hsync : w.ghost.due = .owed → w.pendingValues = w.ghost.result) (hs : Same w w')
    (ctl : Ctl VmLoop) : StepOk w ⟨ctl, cs, w'⟩ := by
  refine stepOk_of_same h hs fun howed => ?_
  have hslot : w'.pendingValues = w'.ghost.result := by
    rw [hs.slot, hs.result]
    exact hsync howed
  unfold CtlSynced
  split
  · exact fun _ => hslot
  · exact hslot
  · trivial

lemma stepOk_resumeCallCc {id k : ℕ} (h : StackOk w.ghost.due w.pendingValues cs)
    (hsync : w.ghost.due = .owed → r.isOk = true → w.pendingValues = w.ghost.result) :
    StepOk w ((vmEngine B).afterResume back cs old (resumeCallCc id k r w)) := by
  have hflight : Same w (w.endFlight k) := ⟨rfl, rfl, rfl, rfl, rfl⟩
  unfold resumeCallCc
  split
  · exact stepOk_returned back _ fun ctl =>
      stepOk_passed h (fun howed => hsync howed rfl) hflight ctl
  · split
    · split
      · have hs : Same w { w.endFlight k with pendingEscape := none } := ⟨rfl, rfl, rfl, rfl, rfl⟩
        exact stepOk_returned back _ fun ctl => stepOk_of_yields h (hs.yields (yields_single _)) ctl
      · exact stepOk_of_tidy h hflight.tidy trivial
    · exact stepOk_of_tidy h hflight.tidy trivial
  · exact stepOk_of_tidy h hflight.tidy trivial

lemma stepOk_afterResume {r : Act VmClosure VmLoop × VmWorld}
    (h : StackOk w.ghost.due w.pendingValues cs) (hold : StepOk w old) (hr : ActOk w r) :
    StepOk w ((vmEngine B).afterResume back cs old r) := by
  obtain ⟨act, w'⟩ := r
  cases act with
  | value v => exact stepOk_returned back v fun ctl => stepOk_of_yields h hr ctl
  | fail e => exact stepOk_of_tidy h (Same.tidy hr) trivial
  | await op f args => exact stepOk_await h hr back
  | _ => exact hold

lemma stepOk_producer {d : Due} {prev : Option (List Value)} {consumer : Value} (hd : d ≠ .held)
    (h : StackOk d prev cs) (hsync : r.isOk = true → w.pendingValues = w.ghost.result) :
    StepOk w ((vmEngine B).afterResume back cs old
      (resumePending B (.producer prev d consumer) r w)) := by
  cases r with
  | error e =>
    refine ⟨le_rfl, fun _ => ⟨⟨h.slot hd, fun _ => trivial⟩, ⟨[], rfl, by simp⟩⟩⟩
  | ok v =>
    refine ⟨le_rfl, fun _ => ⟨⟨.other _ rfl h, fun _ => trivial⟩, ?_⟩⟩
    refine ⟨[(w.produced v, w.ghost.result.getD [v])], rfl, ?_⟩
    rw [List.forall_mem_singleton, World.produced, hsync rfl]

lemma stepOk_after {d : Due} {res : Except VmError Value} {result : Option (List Value)}
    (hheld : d = .owed → res.isOk = true → w.pendingValues = result)
    (h : StackOk d w.pendingValues cs) : StepOk w ((vmEngine B).afterResume back cs old
      (resumePending B (.windAfter res result d) r w)) := by
  have hfail : ∀ e, StepOk w ⟨.ret (.error e), cs, w.setDue d⟩ := fun e =>
    ⟨le_rfl, fun _ => ⟨⟨h, fun _ => trivial⟩, ⟨[], rfl, by simp⟩⟩⟩
  cases res with
  | error e => exact hfail e
  | ok v =>
    cases r with
    | error e => exact hfail e
    | ok u =>
      refine stepOk_returned back v fun ctl => ?_
      refine ⟨le_rfl, fun _ => ⟨⟨h, fun howed => ?_⟩, ⟨[], rfl, by simp⟩⟩⟩
      have hslot : w.pendingValues = result := hheld howed rfl
      unfold CtlSynced
      split
      · exact fun _ => hslot
      · exact hslot
      · trivial

/-- **A waiting native procedure resumes.** -/
lemma stepOk_resume {c : Ctx VmLoop} (h : StackOk w.ghost.due w.pendingValues (c :: cs))
    (hsync : w.ghost.due = .owed → r.isOk = true → w.pendingValues = w.ghost.result)
    (hold : StepOk w old) :
    StepOk w ((vmEngine B).afterResume c.back cs old (resumePending B c.op r w)) := by
  generalize hdue : w.ghost.due = d at h
  generalize hslot : w.pendingValues = slot at h
  cases h with
  | producer _ consumer b hd h => exact stepOk_producer hd h (hsync hdue)
  | after res result b hheld h =>
    subst hslot
    exact stepOk_after hheld h
  | other _ hc h =>
    subst hdue hslot
    obtain ⟨op, back⟩ := c
    have hfail : ∀ e, StepOk w ⟨.ret (.error e), cs, w⟩ := fun e =>
      stepOk_of_tidy h (.refl w) trivial
    have hpass : ∀ v, r = .ok v → ∀ w', Same w w' →
        StepOk w ((vmEngine B).afterResume back cs old (.value v, w')) := by
      rintro v rfl w' hs
      exact stepOk_returned back v fun ctl => stepOk_passed h (fun howed => hsync howed rfl) hs ctl
    cases op with
    | callCc id k => exact stepOk_resumeCallCc h hsync
    | windBefore thunk after =>
      cases r with
      | error e => exact hfail e
      | ok v => exact stepOk_await h (.inr ⟨rfl, Same.refl w⟩) back
    | windThunk after =>
      refine ⟨le_rfl, fun _ => ⟨⟨?_, fun _ => trivial⟩, ⟨[], rfl, by simp⟩⟩⟩
      exact .after r w.ghost.result back hsync h
    | windAfter res result d => cases hc
    | producer prev d consumer => cases hc
    | consumer =>
      cases r with
      | error e => exact hfail e
      | ok v => exact hpass v rfl w (Same.refl w)
    | handlerCall =>
      cases r with
      | error e => exact hfail e
      | ok v => exact hpass v rfl w (Same.refl w)
    | handlerThunk handler prev =>
      have hs : Same w (w.restoreRaise prev) := ⟨rfl, rfl, rfl, rfl, rfl⟩
      simp only [resumePending, resumeHandler]
      split
      · exact hpass _ rfl _ hs
      · have hs' : Same w { w with pendingRaise := prev } := ⟨rfl, rfl, rfl, rfl, rfl⟩
        exact stepOk_await h (.inr ⟨rfl, hs'⟩) back
      · exact stepOk_of_tidy h hs.tidy trivial
    | higher hid k =>
      cases r with
      | error e => exact hfail e
      | ok v => exact stepOk_afterResume h hold (higherMove_dispatches (e := none) w hid _).actOk

lemma dispatch_loopOk (B : Builtins) (l : VmLoop) (w : VmWorld) :
    LoopOk l.stack w (dispatch B l w) := by
  unfold dispatch
  split
  · exact loopOk_error w _ _
  · split
    · exact exec_loopOk B w _ _ _ _
    · exact popFrame_loopOk w _ _

lemma dispatch_eq_call {l l' : VmLoop} {w' : VmWorld} {f : Value} {args : List Value} {tail : Bool}
    (h : dispatch B l w = .call f args tail l' w') :
    w' = w ∧ (l'.stack ≠ [] → l.stack ≠ []) := by
  unfold dispatch at h
  split at h
  · cases h
  · split at h
    · obtain ⟨n, -, -, -, rfl, rfl⟩ := exec_eq_call h
      refine ⟨rfl, fun hne hst => hne ?_⟩
      simp [hst]
    · unfold popFrame at h
      repeat' split at h
      all_goals cases h

/-- **One step of the machine** drops values, or keeps the invariant and delivers exactly. -/
lemma deliveryOk_next {s' : VmState} (h : DeliveryOk s) (hs : vmNext B s = some s') :
    StepOk s.world s' := by
  obtain ⟨ctl, cs, w⟩ := s
  have hself : StepOk w ⟨ctl, cs, w⟩ := ⟨le_rfl, fun _ => ⟨h, ⟨[], rfl, by simp⟩⟩⟩
  cases ctl with
  | run l =>
    cases Option.some.inj hs
    have hst : w.ghost.due = .owed → l.stack ≠ [] → w.pendingValues = w.ghost.result := h.ctl
    have hl := dispatch_loopOk B l w
    cases hd : dispatch B l w with
    | next l' w' =>
      rw [Engine.runLoop_next _ _ hd]
      rw [hd] at hl
      exact stepOk_afterLoop ⟨.run l, cs, w⟩ h.stack hst hl (by simp)
    | halt r w' =>
      rw [Engine.runLoop_halt _ _ hd]
      rw [hd] at hl
      exact stepOk_afterLoop ⟨.run l, cs, w⟩ h.stack hst hl (by simp)
    | call f args tail l' w' =>
      rw [Engine.runLoop_call _ _ hd]
      obtain ⟨rfl, hl'⟩ := dispatch_eq_call hd
      refine stepOk_follows (Engine.follows_afterCall _ l' tail ⟨.run l, cs, w'⟩ _) h.stack ?_
        hself (callFromLoop_dispatches B args w' f).actOk
      rintro _ _ ⟨⟩ howed hne
      exact hst howed (hl' hne)
  | sync f args =>
    cases Option.some.inj hs
    exact stepOk_follows (Engine.follows_afterSync _ cs _ _) h.stack nofun hself
      (callSync_dispatches B args w f).actOk
  | ret r =>
    cases cs with
    | nil => cases hs
    | cons c cs =>
      cases Option.some.inj hs
      refine stepOk_resume h.stack (fun howed hok => ?_) hself
      have hctl := h.ctl howed
      cases r with
      | error e => cases hok
      | ok v => exact hctl

end Machine

/-! ## Every run -/

/-- The step from this state drops nothing. -/
def DropsNothing (B : Builtins) (s : VmState) : Prop :=
  ∀ s', vmNext B s = some s' → s'.world.ghost.dropped = s.world.ghost.dropped

lemma deliveryOk_of_reaches {B : Builtins} {t : VmState} (hs : DeliveryOk s)
    (h : ReachesWith (vmNext B) (DropsNothing B) s t) : DeliveryOk t ∧ Exact s.world t.world := by
  induction h with
  | refl s => exact ⟨hs, ⟨[], rfl, by simp⟩⟩
  | head hP hst _ ih =>
    obtain ⟨hok, hexact⟩ := (deliveryOk_next hs hst).keeps (hP _ hst)
    obtain ⟨hok', hexact'⟩ := ih hok
    exact ⟨hok', hexact.trans hexact'⟩

lemma deliveryOk_vmStart (bc : Bytecode) (env : Env) {w : VmWorld} (hw : w.ghost.due = .idle) :
    DeliveryOk (vmStart bc env w) := by
  refine ⟨?_, fun _ h => absurd rfl h⟩
  show StackOk w.ghost.due w.pendingValues []
  rw [hw]
  exact .nil _

/-- **Multiple values are delivered exactly, in both tiers, unless values are dropped.** Every
delivery of a run of the virtual machine whose steps drop nothing, and every delivery of an
evaluation that drops nothing, passes to the consumer the values the producer returned. -/
theorem deliveries_exact (B : Builtins) :
    (∀ (bc : Bytecode) (env : Env) (w : VmWorld) (t : VmState), w.ghost.due = .idle →
      ReachesWith (vmNext B) (DropsNothing B) (vmStart bc env w) t → Exact w t.world) ∧
    ∀ (top : Layers.Ref) (maxDepth n depth : ℕ) (e : CoreExpr) (env : Env) (w w' : WalkWorld)
      (r : Except EvalError Value), eval B top maxDepth n depth e env w = some (r, w') →
      w'.ghost.dropped = w.ghost.dropped → Exact w w' := by
  refine ⟨fun bc env w t hw h => ?_, fun top maxDepth n depth e env w w' r h hdrop => ?_⟩
  · exact (deliveryOk_of_reaches (deliveryOk_vmStart bc env hw) h).2
  · exact ((walkTidy B top maxDepth n).eval depth e env w r w' h).1.exact hdrop

section Programs

private def callWithValuesName : Symbol := ⟨0⟩
private def valuesName : Symbol := ⟨1⟩
private def timesName : Symbol := ⟨2⟩

/-- The globals `call-with-values`, `values` and `*`. -/
def valuesWorld (C L : Type) : World C L :=
  .boot [(callWithValuesName, .callWithValues), (valuesName, .values),
    (timesName, .builtin (.arith .mul))]

/-- `(call-with-values (lambda () body) *)` -/
def productOf (body : CoreExpr) : CoreExpr :=
  .app (.ref callWithValuesName) [.lambda ⟨[], none⟩ body, .ref timesName]

/-- `(values 1 2)` -/
def twoValues : CoreExpr := .app (.ref valuesName) [.const (.ofNat 1), .const (.ofNat 2)]

/-- `(begin (values 1 2) 3)` -/
def discardedValues : CoreExpr := .begin [twoValues, .const (.ofNat 3)]

/-- A unit as the runtime compiles and starts it. -/
def valuesStart (e : CoreExpr) : VmState :=
  vmStart (compileUnit (.runtime (fun _ => none) [⟨0, false⟩] (valuesWorld VmClosure VmLoop)) e)
    [⟨0, false⟩] (valuesWorld VmClosure VmLoop)

/-- A program in the evaluator. -/
def valuesEval (e : CoreExpr) : Res EvalError Value :=
  eval .bare ⟨0, false⟩ 1000000 20 0 e [⟨0, false⟩] (valuesWorld WalkClosure Unit)

/-- `DropsNothing`, as a test. -/
def dropsNothing (s : VmState) : Bool :=
  (vmNext .bare s).all fun s' => s'.world.ghost.dropped == s.world.ghost.dropped

private lemma dropsNothing_of_test (h : dropsNothing s = true) : DropsNothing .bare s := by
  intro s' hs
  simpa [dropsNothing, hs] using h

theorem deliveries_exact_two :
    Exact (valuesWorld VmClosure VmLoop)
        (runFor (vmNext .bare) 12 (valuesStart (productOf twoValues))).world ∧
      ∃ r w', valuesEval (productOf twoValues) = some (r, w') ∧
        Exact (valuesWorld WalkClosure Unit) w' := by
  have hrun : ∀ k < 12,
      dropsNothing (runFor (vmNext .bare) k (valuesStart (productOf twoValues))) = true := by
    decide
  have hreach := reachesWith_runFor fun k hk => dropsNothing_of_test (hrun k hk)
  have heval : ∃ r w', valuesEval (productOf twoValues) = some (r, w') ∧
      w'.ghost.dropped = (valuesWorld WalkClosure Unit).ghost.dropped := ⟨_, _, rfl, rfl⟩
  obtain ⟨r, w', hr, hdrop⟩ := heval
  exact ⟨(deliveries_exact .bare).1 _ _ _ _ rfl hreach, r, w', hr,
    (deliveries_exact .bare).2 _ _ _ _ _ _ _ _ _ hr hdrop⟩

/-- **Discarded values are delivered.** The producer `(begin (values 1 2) 3)` returns `3`, but in
both tiers the consumer `*` is called with `1` and `2`, and the program returns `2`. -/
theorem discarded_values_delivered :
    ((runFor (vmNext .bare) 15 (valuesStart (productOf discardedValues))).outcome =
        some (.ok (.ofNat 2)) ∧
      (runFor (vmNext .bare) 15 (valuesStart (productOf discardedValues))).world.ghost.deliveries =
        [([.ofNat 1, .ofNat 2], [.ofNat 3])]) ∧
    (valuesEval (productOf discardedValues)).map (fun r => (r.1, r.2.ghost.deliveries)) =
      some (.ok (.ofNat 2), [([.ofNat 1, .ofNat 2], [.ofNat 3])]) :=
  ⟨⟨rfl, rfl⟩, rfl⟩

end Programs

end CrabScheme
