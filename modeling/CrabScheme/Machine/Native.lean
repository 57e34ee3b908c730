import CrabScheme.Machine.World

/-!
# Native procedures of the virtual machine

What a call does when the operator is not a plain jump into a closure. The Rust code reaches
these procedures from two places: the `Call` instruction of a dispatch loop, and
`vm_call_sync`, by which native code calls back. Both are modelled as functions that say what
happens next, an `Act`; a native procedure that has to wait for a call it makes leaves a
`Pending` record of what it will do with the result.
-/

namespace CrabScheme

/-- **A native procedure waiting for a call it made.** -/
inductive Pending
  /-- `call/cc` waits for its receiver; `k` is the address of the continuation object. -/
  | callCc (id : ℕ) (k : ℕ)
  /-- `dynamic-wind` waits for its `before` thunk. -/
  | windBefore (thunk after : Value)
  /-- `dynamic-wind` waits for its body. -/
  | windThunk (after : Value)
  /-- `dynamic-wind` waits for its `after` thunk; it holds the outcome of the body. -/
  | windAfter (res : Except VmError Value) (result : Option (List Value)) (due : Due)
  /-- `call-with-values` waits for its producer; it holds the values that were pending. -/
  | producer (prev : Option (List Value)) (due : Due) (consumer : Value)
  /-- `call-with-values` waits for its consumer. -/
  | consumer
  /-- `with-exception-handler` waits for its thunk; it holds the condition that was pending. -/
  | handlerThunk (handler : Value) (prev : Option Value)
  /-- `with-exception-handler` waits for its handler. -/
  | handlerCall
  /-- A higher-order builtin waits for one of its callbacks. -/
  | higher (h : ℕ) (k : HigherState)

/-- **What happens next** after a native dispatch. -/
inductive Act (C L : Type)
  /-- The call returns a value. -/
  | value (v : Value)
  /-- The call fails. -/
  | fail (e : VmError)
  /-- The operator is a closure, at address `a`. -/
  | closure (c : C) (a : ℕ) (args : List Value)
  /-- A saved loop replaces the running one and receives `v`. -/
  | restore (snapshot : L) (v : Value)
  /-- The running loop is captured and handed to `f`. -/
  | capture (f : Value)
  /-- Native code calls `f` and will go on as `op` says. -/
  | await (op : Pending) (f : Value) (args : List Value)
  /-- Native code hands the call over to another procedure. -/
  | handOver (f : Value) (args : List Value)
  /-- Native code never returns. -/
  | diverge

section Calls

variable {C L : Type} (B : Builtins)

/-- A first-order builtin called from a dispatch loop: failures become raised conditions
(`builtin_err_to_raised`). -/
def callBuiltin (b : Builtin) (args : List Value) (w : World C L) : Act C L × World C L :=
  match b with
  | .arith op =>
    match op.builtin B.fp args with
    | .ok v => (.value v, w.single)
    | .error e =>
      let c := B.condition op e w.heap
      (.fail .raised, { w with heap := c.2 }.setRaise c.1)
  | .prim id =>
    match B.prim id args w.heap with
    | (.value v, h) => (.value v, { w with heap := h }.single)
    | (.values vs, h) => (.value .unspecified, { w with heap := h }.stash vs)
    | (.fail cond, h) => (.fail .raised, { w with heap := h }.setRaise cond)

/-- A first-order builtin called by native code: failures are plain messages. -/
def syncBuiltin (b : Builtin) (args : List Value) (w : World C L) : Act C L × World C L :=
  match b with
  | .arith op =>
    match op.builtin B.fp args with
    | .ok v => (.value v, w.single)
    | .error _ => (.fail (.message .builtinFailed), w)
  | .prim id =>
    match B.prim id args w.heap with
    | (.value v, h) => (.value v, { w with heap := h }.single)
    | (.values vs, h) => (.value .unspecified, { w with heap := h }.stash vs)
    | (.fail _, h) => (.fail (.message .builtinFailed), { w with heap := h })

/-- One move of a higher-order builtin. -/
def higherMove (h : ℕ) (r : HigherAct × Heap) (w : World C L) : Act C L × World C L :=
  match r with
  | (.call f args k, hp) => (.await (.higher h k) f args, { w with heap := hp })
  | (.done v, hp) => (.value v, { w with heap := hp }.single)
  | (.doneValues vs, hp) => (.value .unspecified, { w with heap := hp }.stash vs)
  | (.fail _, hp) => (.fail (.message .builtinFailed), { w with heap := hp })

/-- `values`: one argument is returned as it is, any other number is stashed. -/
def callValues (args : List Value) (w : World C L) : Act C L × World C L :=
  match args with
  | [v] => (.value v, w.single)
  | vs => (.value .unspecified, w.stash vs)

/-- `call-with-values`: the pending values are put aside and the producer is called. -/
def callCallWithValues (args : List Value) (w : World C L) : Act C L × World C L :=
  match args with
  | [producer, consumer] =>
    (.await (.producer w.pendingValues w.ghost.due consumer) producer [], w.startProducer)
  | _ => (.fail (.message .argumentCount), w)

/-- A continuation called while its `call/cc` is active: an escape. -/
def callEscape (id : ℕ) (args : List Value) (w : World C L) : Act C L × World C L :=
  (.fail .escape, w.setEscape id (args.headD .unspecified))

/-- The operator and arguments that `(apply f a … list)` stands for; `none` is the walk over a
circular list. With a single argument the Rust code panics on an index out of range. -/
def spread (args : List Value) (w : World C L) :
    Option (Except VmError (Value × List Value)) :=
  match args with
  | [] => some (.error (.message .argumentCount))
  | [_] => some (.error (.message .badIndex))
  | f :: rest =>
    match collectList w.heap (rest.getLastD .null) with
    | none => none
    | some (.error _) => some (.error (.message .improperList))
    | some (.ok vs) => some (.ok (f, rest.dropLast ++ vs))

/-- The second dispatch, on the operator that `apply` was given. -/
def callApplied (f : Value) (args : List Value) (w : World C L) : Act C L × World C L :=
  match w.procOf f with
  | none => (.fail (.message .nonProcedure), w)
  | some (a, .closure c) => (.closure c a args, w)
  | some (_, .builtin b) => syncBuiltin B b args w
  | some (_, .higher h) => higherMove h (B.higherStart h args w.heap) w
  | some (_, .values) => callValues args w
  | some (_, .callWithValues) => callCallWithValues args w
  | some _ => (.fail (.message .unsupportedProcedure), w)

/-- **The operator dispatch of `Call` and `TailCall`.** -/
def callFromLoop (f : Value) (args : List Value) (w : World C L) : Act C L × World C L :=
  match w.procOf f with
  | none => (.fail (.message .nonProcedure), w)
  | some (a, .closure c) => (.closure c a args, w)
  | some (_, .builtin b) => callBuiltin B b args w
  | some (_, .continuation id snapshot inFlight) =>
    if inFlight then callEscape id args w
    else (.restore snapshot (args.headD .unspecified), w.single)
  | some (_, .higher h) => higherMove h (B.higherStart h args w.heap) w
  | some (_, .values) => callValues args w
  | some (_, .callWithValues) => callCallWithValues args w
  | some (_, .raise) =>
    match args with
    | [v] => (.fail .raised, w.setRaise v)
    | _ => (.fail (.message .argumentCount), w)
  | some (_, .withExceptionHandler) =>
    match args with
    | [handler, thunk] =>
      (.await (.handlerThunk handler w.pendingRaise) thunk [], { w with pendingRaise := none })
    | _ => (.fail (.message .argumentCount), w)
  | some (_, .callCc) =>
    match args with
    | [receiver] => (.capture receiver, w)
    | _ => (.fail (.message .argumentCount), w)
  | some (_, .dynamicWind) =>
    match args with
    | [before, thunk, after] => (.await (.windBefore thunk after) before [], w)
    | _ => (.fail (.message .argumentCount), w)
  | some (_, .apply) =>
    match spread args w with
    | none => (.diverge, w)
    | some (.error e) => (.fail e, w)
    | some (.ok (g, vs)) => callApplied B g vs w

/-- **`vm_call_sync`.** A continuation is invoked as an escape whether or not its `call/cc` is
active, and the control operators are not supported. -/
def callSync (f : Value) (args : List Value) (w : World C L) : Act C L × World C L :=
  match w.procOf f with
  | none => (.fail (.message .nonProcedure), w)
  | some (a, .closure c) => (.closure c a args, w)
  | some (_, .builtin b) => syncBuiltin B b args w
  | some (_, .continuation id _ _) => callEscape id args w
  | some (_, .higher h) => higherMove h (B.higherStart h args w.heap) w
  | some (_, .values) => callValues args w
  | some (_, .callWithValues) => callCallWithValues args w
  | some (_, .apply) =>
    match spread args w with
    | none => (.diverge, w)
    | some (.error e) => (.fail e, w)
    | some (.ok (g, vs)) => (.handOver g vs, w)
  | some _ => (.fail (.message .unsupportedProcedure), w)

/-- `call/cc` after its receiver: an escape to it returns the escaping value, any other outcome
passes. -/
def resumeCallCc (id k : ℕ) (r : Except VmError Value) (w : World C L) :
    Act C L × World C L :=
  match r with
  | .ok v => (.value v, w.endFlight k)
  | .error .escape =>
    match w.pendingEscape with
    | some (eid, v) =>
      if eid = id then (.value v, { w.endFlight k with pendingEscape := none }.single)
      else (.fail .escape, w.endFlight k)
    | none => (.fail .escape, w.endFlight k)
  | .error e => (.fail e, w.endFlight k)

/-- `with-exception-handler` after its thunk: the handler is called for a raised condition. -/
def resumeHandler (handler : Value) (prev : Option Value) (r : Except VmError Value)
    (w : World C L) : Act C L × World C L :=
  match r with
  | .ok v => (.value v, w.restoreRaise prev)
  | .error .raised =>
    let cond := w.pendingRaise.getD (.boolean false)
    (.await .handlerCall handler [cond], { w with pendingRaise := prev })
  | .error e => (.fail e, w.restoreRaise prev)

/-- **A waiting native procedure receives the result of the call it made.** -/
def resumePending (op : Pending) (r : Except VmError Value) (w : World C L) :
    Act C L × World C L :=
  match op, r with
  | .callCc id k, r => resumeCallCc id k r w
  | .windBefore thunk after, .ok _ => (.await (.windThunk after) thunk [], w)
  | .windThunk after, r =>
    (.await (.windAfter r w.ghost.result w.ghost.due) after [],
      w.setDue (w.ghost.due.during r.isOk))
  | .windAfter (.error e) _ due, _ => (.fail e, w.setDue due)
  | .windAfter (.ok v) result due, .ok _ => (.value v, (w.setResult result).setDue due)
  | .windAfter (.ok _) _ due, .error e => (.fail e, w.setDue due)
  | .producer prev due consumer, .ok v =>
    (.await .consumer consumer (w.produced v), w.endProducer prev due v)
  | .producer _ due _, .error e => (.fail e, w.setDue due)
  | .handlerThunk handler prev, r => resumeHandler handler prev r w
  | .higher h k, .ok v => higherMove h (B.higherResume h k v w.heap) w
  | .consumer, .ok v => (.value v, w)
  | .handlerCall, .ok v => (.value v, w)
  | _, .error e => (.fail e, w)

/-! ### What a dispatch can do -/

/-- The escape that a call of `f` starts: the identity of the continuation and the value it
passes. A loop that calls a continuation whose `call/cc` has returned restores it instead. -/
def escapeOf (fromLoop : Bool) (w : World C L) (f : Value) (args : List Value) :
    Option (ℕ × Value) :=
  match w.procOf f with
  | some (_, .continuation id _ inFlight) =>
    if fromLoop && !inFlight then none else some (id, args.headD .unspecified)
  | _ => none

/-- **What the dispatch of a call can do** in a world, when `esc` is the escape it starts. -/
inductive Dispatches (w : World C L) (esc : Option (ℕ × Value)) : Act C L × World C L → Prop
  | fail (e : VmError) (h : Heap) : Dispatches w esc (.fail e, { w with heap := h })
  | raise (cond : Value) (h : Heap) :
      Dispatches w esc (.fail .raised, { w with heap := h }.setRaise cond)
  | value (v : Value) (h : Heap) : Dispatches w esc (.value v, { w with heap := h }.single)
  | values (v : Value) (vs : List Value) (h : Heap) :
      Dispatches w esc (.value v, { w with heap := h }.stash vs)
  | escape {id : ℕ} {v : Value} : esc = some (id, v) →
      Dispatches w esc (.fail .escape, w.setEscape id v)
  | restore (l : L) (v : Value) : Dispatches w esc (.restore l v, w.single)
  | closure (c : C) (a : ℕ) (args : List Value) : Dispatches w esc (.closure c a args, w)
  | capture (f : Value) : Dispatches w esc (.capture f, w)
  | handOver (f : Value) (args : List Value) : Dispatches w esc (.handOver f args, w)
  | diverge : Dispatches w esc (.diverge, w)
  | higher (k : ℕ) (s : HigherState) (f : Value) (args : List Value) (h : Heap) :
      Dispatches w esc (.await (.higher k s) f args, { w with heap := h })
  | producer (f consumer : Value) :
      Dispatches w esc (.await (.producer w.pendingValues w.ghost.due consumer) f [],
        w.startProducer)
  | handler (handler thunk : Value) :
      Dispatches w esc (.await (.handlerThunk handler w.pendingRaise) thunk [],
        { w with pendingRaise := none })
  | wind (before thunk after : Value) :
      Dispatches w esc (.await (.windBefore thunk after) before [], w)

section Dispatches

variable (args : List Value) (w : World C L) {e : Option (ℕ × Value)}

lemma callBuiltin_dispatches (b : Builtin) : Dispatches w e (callBuiltin B b args w) := by
  unfold callBuiltin
  repeat' split
  all_goals constructor

lemma syncBuiltin_dispatches (b : Builtin) : Dispatches w e (syncBuiltin B b args w) := by
  unfold syncBuiltin
  repeat' split
  all_goals constructor

lemma higherMove_dispatches (h : ℕ) (r : HigherAct × Heap) :
    Dispatches w e (higherMove h r w) := by
  unfold higherMove
  split <;> constructor

lemma callValues_dispatches : Dispatches w e (callValues args w) := by
  unfold callValues
  split <;> constructor

lemma callCallWithValues_dispatches : Dispatches w e (callCallWithValues args w) := by
  unfold callCallWithValues
  split <;> constructor

lemma callApplied_dispatches (f : Value) : Dispatches w e (callApplied B f args w) := by
  unfold callApplied
  split
  · constructor
  · constructor
  · exact syncBuiltin_dispatches B args w _
  · exact higherMove_dispatches w _ _
  · exact callValues_dispatches args w
  · exact callCallWithValues_dispatches args w
  · constructor

lemma callFromLoop_dispatches (f : Value) :
    Dispatches w (escapeOf true w f args) (callFromLoop B f args w) := by
  unfold callFromLoop
  split
  case h_3 => exact callBuiltin_dispatches B args w _
  case h_4 id snapshot inFlight hproc =>
    cases inFlight with
    | true => exact .escape (by simp [escapeOf, hproc])
    | false => exact .restore snapshot _
  case h_5 => exact higherMove_dispatches w _ _
  case h_6 => exact callValues_dispatches args w
  case h_7 => exact callCallWithValues_dispatches args w
  case h_12 =>
    split
    · constructor
    · constructor
    · exact callApplied_dispatches B _ w _
  all_goals
    repeat' split
    all_goals constructor

lemma callSync_dispatches (f : Value) :
    Dispatches w (escapeOf false w f args) (callSync B f args w) := by
  unfold callSync
  split
  case h_3 => exact syncBuiltin_dispatches B args w _
  case h_4 hproc => exact .escape (by simp [escapeOf, hproc])
  case h_5 => exact higherMove_dispatches w _ _
  case h_6 => exact callValues_dispatches args w
  case h_7 => exact callCallWithValues_dispatches args w
  all_goals
    repeat' split
    all_goals constructor

variable {w} {r : Act C L × World C L} (hr : Dispatches w e r)

include hr

lemma Dispatches.layers : r.2.layers = w.layers := by
  cases hr <;> rfl

lemma Dispatches.procs : r.2.procs = w.procs ∧ r.2.nextCont = w.nextCont := by
  cases hr <;> exact ⟨rfl, rfl⟩

lemma Dispatches.pendingEscape (he : e = none) : r.2.pendingEscape = w.pendingEscape := by
  cases hr with
  | escape h => cases he.symm.trans h
  | _ => rfl

end Dispatches

@[simp] lemma resumePending_layers (op : Pending) (r : Except VmError Value) (w : World C L) :
    (resumePending B op r w).2.layers = w.layers := by
  unfold resumePending resumeCallCc resumeHandler
  repeat' split
  all_goals first | rfl | exact (higherMove_dispatches (e := none) w _ _).layers

end Calls

end CrabScheme
