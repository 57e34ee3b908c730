import CrabScheme.Machine.Native
import CrabScheme.Lib.Transition

/-!
# Engines: dispatch loops under native procedures

A tier of the virtual machine is a *dispatch loop* that native procedures call back into: a
native procedure such as `dynamic-wind` runs its thunks in fresh loops while the loop that
called it waits on the Rust stack. The Rust stack becomes an explicit list of waiting native
procedures, each with the loop to go back to, so that the whole machine is one deterministic
transition system. An `Engine` supplies the loop; everything else is shared.

## Design

Where the Rust code cannot go on (a walk over a circular list) the machine steps to the state
it is in, so that it neither halts nor returns.
-/

namespace CrabScheme

/-- What one iteration of a dispatch loop does. -/
inductive LoopStep (C L : Type)
  /-- The loop goes on. -/
  | next (l : L) (w : World C L)
  /-- The loop returns. -/
  | halt (r : Except VmError Value) (w : World C L)
  /-- The loop calls `f`; `l` is the loop with operator and arguments popped. -/
  | call (f : Value) (args : List Value) (tail : Bool) (l : L) (w : World C L)

/-- The world after an iteration of a loop. -/
def LoopStep.world {C L : Type} : LoopStep C L → World C L
  | .next _ w => w
  | .halt _ w => w
  | .call _ _ _ _ w => w

/-- **A dispatch loop.** `step` is one iteration; `deliver` pushes the result of a native call
and pops the frame of a tail call, and says whether the loop goes on or returns; `resume`
pushes the value a restored loop receives; `enter` calls a closure from the loop and `start`
calls one from native code. -/
structure Engine (C L : Type) where
  step : L → World C L → LoopStep C L
  deliver : L → Bool → Value → L ⊕ Except VmError Value
  resume : L → Value → L
  enter : L → Bool → C → ℕ → List Value → World C L → LoopStep C L
  start : C → ℕ → List Value → World C L → LoopStep C L

/-- A waiting native procedure, with the loop it returns to and whether it was called in tail
position. Native code called by native code has no loop of its own. -/
structure Ctx (L : Type) where
  op : Pending
  back : Option (L × Bool)

/-- The control part of a state: a loop runs, native code is about to call a procedure, or a
call made by native code has returned. -/
inductive Ctl (L : Type)
  | run (l : L)
  | sync (f : Value) (args : List Value)
  | ret (r : Except VmError Value)

/-- **Machine states**: the control part, the waiting native procedures, innermost first, and
the shared state. -/
structure State (C L : Type) where
  ctl : Ctl L
  ctxs : List (Ctx L)
  world : World C L

/-- The result of a machine that has halted. -/
def State.outcome {C L : Type} (s : State C L) : Option (Except VmError Value) :=
  match s.ctl, s.ctxs with
  | .ret r, [] => some r
  | _, _ => none

namespace Engine

variable {C L : Type} (E : Engine C L) (B : Builtins)

/-- A loop receives the result of a native call. -/
def deliverTo (l : L) (tail : Bool) (v : Value) (cs : List (Ctx L)) (w : World C L) :
    State C L :=
  match E.deliver l tail v with
  | .inl l' => ⟨.run l', cs, w⟩
  | .inr r => ⟨.ret r, cs, w⟩

/-- A step of a loop that makes no call. -/
def afterLoop (cs : List (Ctx L)) (old : State C L) : LoopStep C L → State C L
  | .next l w => ⟨.run l, cs, w⟩
  | .halt r w => ⟨.ret r, cs, w⟩
  | .call _ _ _ _ _ => old

/-- The call of a procedure by a loop. -/
def afterCall (l : L) (tail : Bool) (cs : List (Ctx L)) (old : State C L) :
    Act C L × World C L → State C L
  | (.value v, w) => E.deliverTo l tail v cs w
  | (.fail e, w) => ⟨.ret (.error e), cs, w⟩
  | (.closure c a args, w) => afterLoop cs old (E.enter l tail c a args w)
  | (.restore snapshot v, w) => ⟨.run (E.resume snapshot v), cs, w⟩
  | (.capture f, w) =>
    -- the continuation object holds the loop as it waits for the receiver
    let p := w.newProc (.continuation w.nextCont l true)
    ⟨.sync f [p.1], ⟨.callCc w.nextCont w.procs.length, some (l, tail)⟩ :: cs,
      { p.2 with nextCont := w.nextCont + 1 }⟩
  | (.await op f args, w) => ⟨.sync f args, ⟨op, some (l, tail)⟩ :: cs, w⟩
  | (.handOver f args, w) => ⟨.sync f args, cs, w⟩
  | (.diverge, _) => old

/-- The call of a procedure by native code. -/
def afterSync (cs : List (Ctx L)) (old : State C L) : Act C L × World C L → State C L
  | (.value v, w) => ⟨.ret (.ok v), cs, w⟩
  | (.fail e, w) => ⟨.ret (.error e), cs, w⟩
  | (.closure c a args, w) => afterLoop cs old (E.start c a args w)
  | (.await op f args, w) => ⟨.sync f args, ⟨op, none⟩ :: cs, w⟩
  | (.handOver f args, w) => ⟨.sync f args, cs, w⟩
  | (_, _) => old

/-- A waiting native procedure goes on. -/
def afterResume (back : Option (L × Bool)) (cs : List (Ctx L)) (old : State C L) :
    Act C L × World C L → State C L
  | (.value v, w) =>
    match back with
    | some (l, tail) => E.deliverTo l tail v cs w
    | none => ⟨.ret (.ok v), cs, w⟩
  | (.fail e, w) => ⟨.ret (.error e), cs, w⟩
  | (.await op f args, w) => ⟨.sync f args, ⟨op, back⟩ :: cs, w⟩
  | (_, _) => old

/-- One iteration of the running loop. -/
def runLoop (l : L) (cs : List (Ctx L)) (w : World C L) : State C L :=
  match E.step l w with
  | .call f args tail l' w' => E.afterCall l' tail cs ⟨.run l, cs, w⟩ (callFromLoop B f args w')
  | s => afterLoop cs ⟨.run l, cs, w⟩ s

lemma runLoop_next {l l' : L} {w w' : World C L} (h : E.step l w = .next l' w')
    (cs : List (Ctx L)) : E.runLoop B l cs w = ⟨.run l', cs, w'⟩ := by
  simp [runLoop, h, afterLoop]

lemma runLoop_halt {l : L} {w w' : World C L} {r : Except VmError Value}
    (h : E.step l w = .halt r w') (cs : List (Ctx L)) :
    E.runLoop B l cs w = ⟨.ret r, cs, w'⟩ := by
  simp [runLoop, h, afterLoop]

lemma runLoop_call {l l' : L} {w w' : World C L} {f : Value} {args : List Value} {tail : Bool}
    (h : E.step l w = .call f args tail l' w') (cs : List (Ctx L)) :
    E.runLoop B l cs w =
      E.afterCall l' tail cs ⟨.run l, cs, w⟩ (callFromLoop B f args w') := by
  simp [runLoop, h]

/-- **One step of the machine.** It halts when a result is returned and nothing waits. -/
def next (s : State C L) : Option (State C L) :=
  match s.ctl, s.ctxs with
  | .run l, cs => some (E.runLoop B l cs s.world)
  | .sync f args, cs => some (E.afterSync cs s (callSync B f args s.world))
  | .ret _, [] => none
  | .ret r, c :: cs => some (E.afterResume c.back cs s (resumePending B c.op r s.world))

@[simp] lemma next_run (l : L) (cs : List (Ctx L)) (w : World C L) :
    E.next B ⟨.run l, cs, w⟩ = some (E.runLoop B l cs w) := rfl

@[simp] lemma next_sync (f : Value) (args : List Value) (cs : List (Ctx L)) (w : World C L) :
    E.next B ⟨.sync f args, cs, w⟩ =
      some (E.afterSync cs ⟨.sync f args, cs, w⟩ (callSync B f args w)) := rfl

@[simp] lemma next_ret_cons (r : Except VmError Value) (c : Ctx L) (cs : List (Ctx L))
    (w : World C L) :
    E.next B ⟨.ret r, c :: cs, w⟩ =
      some (E.afterResume c.back cs ⟨.ret r, c :: cs, w⟩ (resumePending B c.op r w)) := rfl

/-! ## What a step can do -/

/-- **What follows a dispatch** made under the contexts `cs` by the loop `back`, or by native
code. -/
inductive Follows (cs : List (Ctx L)) (old : State C L) (back : Option (L × Bool)) :
    Act C L × World C L → State C L → Prop
  | value (v : Value) (w : World C L) (ctl : Ctl L) : Follows cs old back (.value v, w) ⟨ctl, cs, w⟩
  | fail (e : VmError) (w : World C L) : Follows cs old back (.fail e, w) ⟨.ret (.error e), cs, w⟩
  | enter {l : L} {tail : Bool} (c : C) (a : ℕ) (args : List Value) (w : World C L) :
      back = some (l, tail) → Follows cs old back (.closure c a args, w)
        (afterLoop cs old (E.enter l tail c a args w))
  | start (c : C) (a : ℕ) (args : List Value) (w : World C L) :
      Follows cs old back (.closure c a args, w) (afterLoop cs old (E.start c a args w))
  | restore (l : L) (v : Value) (w : World C L) :
      Follows cs old back (.restore l v, w) ⟨.run (E.resume l v), cs, w⟩
  | capture {l : L} {tail : Bool} (f : Value) (w : World C L) : back = some (l, tail) →
      old.ctxs = cs → Follows cs old back (.capture f, w)
        ⟨.sync f [(w.newProc (.continuation w.nextCont l true)).1],
          ⟨.callCc w.nextCont w.procs.length, back⟩ :: cs,
          { (w.newProc (.continuation w.nextCont l true)).2 with nextCont := w.nextCont + 1 }⟩
  | await (op : Pending) (f : Value) (args : List Value) (w : World C L) :
      Follows cs old back (.await op f args, w) ⟨.sync f args, ⟨op, back⟩ :: cs, w⟩
  | handOver (f : Value) (args : List Value) (w : World C L) :
      Follows cs old back (.handOver f args, w) ⟨.sync f args, cs, w⟩
  | stuck (r : Act C L × World C L) : Follows cs old back r old

variable {E} in
lemma follows_deliverTo {cs : List (Ctx L)} {old : State C L} {back : Option (L × Bool)} (l : L)
    (tail : Bool) (v : Value) (w : World C L) :
    E.Follows cs old back (.value v, w) (E.deliverTo l tail v cs w) := by
  unfold deliverTo
  split <;> constructor

lemma follows_afterCall (l : L) (tail : Bool) (old : State C L) (r : Act C L × World C L) :
    E.Follows old.ctxs old (some (l, tail)) r (E.afterCall l tail old.ctxs old r) := by
  obtain ⟨act, w⟩ := r
  cases act with
  | value v => exact follows_deliverTo l tail v w
  | closure c a args => exact .enter c a args w rfl
  | capture f => exact .capture f w rfl rfl
  | diverge => exact .stuck _
  | _ => constructor

lemma follows_afterSync (cs : List (Ctx L)) (old : State C L) (r : Act C L × World C L) :
    E.Follows cs old none r (E.afterSync cs old r) := by
  obtain ⟨act, w⟩ := r
  cases act with
  | closure c a args => exact .start c a args w
  | restore | capture | diverge => exact .stuck _
  | _ => constructor

lemma follows_afterResume (back : Option (L × Bool)) (cs : List (Ctx L)) (old : State C L)
    (r : Act C L × World C L) : E.Follows cs old back r (E.afterResume back cs old r) := by
  obtain ⟨act, w⟩ := r
  cases act with
  | value v =>
    cases back with
    | none => constructor
    | some b => exact follows_deliverTo b.1 b.2 v w
  | fail | await => constructor
  | _ => exact .stuck _

/-- **What a step does**: the loop goes on, or a call is dispatched by the loop or by native code,
or a waiting native procedure goes on. -/
inductive Steps (s : State C L) : State C L → Prop
  | loop {l : L} {r : LoopStep C L} : s.ctl = .run l → E.step l s.world = r →
      Steps s (afterLoop s.ctxs s r)
  | call {l l' : L} {f : Value} {args : List Value} {tail : Bool} {w : World C L} {s' : State C L} :
      s.ctl = .run l → E.step l s.world = .call f args tail l' w →
      E.Follows s.ctxs s (some (l', tail)) (callFromLoop B f args w) s' → Steps s s'
  | sync {f : Value} {args : List Value} {s' : State C L} : s.ctl = .sync f args →
      E.Follows s.ctxs s none (callSync B f args s.world) s' → Steps s s'
  | resume {r : Except VmError Value} {c : Ctx L} {cs : List (Ctx L)} {s' : State C L} :
      s.ctl = .ret r → s.ctxs = c :: cs →
      E.Follows cs s c.back (resumePending B c.op r s.world) s' → Steps s s'

variable {E B} in
lemma steps_of_next {s s' : State C L} (h : E.next B s = some s') : E.Steps B s s' := by
  obtain ⟨ctl, cs, w⟩ := s
  cases ctl with
  | run l =>
    cases Option.some.inj h
    cases hl : E.step l w with
    | call f args tail l' w' =>
      rw [runLoop_call _ _ hl]
      exact .call rfl hl (E.follows_afterCall l' tail ⟨.run l, cs, w⟩ _)
    | next l' w' =>
      rw [runLoop_next _ _ hl]
      exact Steps.loop (s := ⟨.run l, cs, w⟩) rfl hl
    | halt r w' =>
      rw [runLoop_halt _ _ hl]
      exact Steps.loop (E := E) (s := ⟨.run l, cs, w⟩) rfl hl
  | sync f args =>
    cases Option.some.inj h
    exact .sync rfl (E.follows_afterSync cs _ _)
  | ret r =>
    cases cs with
    | nil => cases h
    | cons c cs =>
      cases Option.some.inj h
      exact .resume rfl rfl (E.follows_afterResume c.back cs _ _)

end Engine

end CrabScheme
