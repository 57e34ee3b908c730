import CrabScheme.Core.Expr
import CrabScheme.Machine.World

/-!
# The tree-walking evaluator

`eval`, `eval_inner` and `apply_procedure` of `cs-runtime`, with the builtins that call back into
them. The Rust functions recurse on the host stack, so the model recurses on a budget of calls:
`none` is an evaluation that the budget does not suffice for. The evaluator's own bound on the
nesting of `eval`, `max_depth`, is separate and part of its behaviour.

The evaluator has two kinds of errors. A builtin fails with a text; `builtin_err_to_eval` turns
the text into an `EvalError`, and picks up the condition or escape that the builtin left in the
side slots.
-/

namespace CrabScheme

/-- A closure of the evaluator. -/
structure WalkClosure where
  params : Params
  body : CoreExpr
  env : Env

abbrev WalkWorld := World WalkClosure Unit

/-- **`EvalErrorKind`.** -/
inductive EvalError
  | message (m : VmError)
  | raised (cond : Value)
  | escape (id : ℕ) (v : Value)
deriving DecidableEq

/-- Errors of builtins: a text, or the failure of a first-order builtin with the condition that
describes it. -/
inductive BuiltinError
  | text (m : VmError)
  | failed (cond : Value)
deriving DecidableEq

/-- **Outcomes**: `none` when the budget runs out. -/
abbrev Res (ε α : Type) := Option (Except ε α × WalkWorld)

namespace Res

variable {ε δ α β : Type}

/-- The `?` operator. -/
def bind (r : Res ε α) (k : α → WalkWorld → Res ε β) : Res ε β :=
  match r with
  | none => none
  | some (.error e, w) => some (.error e, w)
  | some (.ok a, w) => k a w

/-- `map_err`. -/
def mapErr (r : Res ε α) (f : ε → WalkWorld → δ × WalkWorld) : Res δ α :=
  match r with
  | none => none
  | some (.error e, w) => some (.error (f e w).1, (f e w).2)
  | some (.ok a, w) => some (.ok a, w)

end Res

/-! ## Errors between builtins and the evaluator -/

/-- `propagate_eval_err`. -/
def propagateEvalErr (e : EvalError) (w : WalkWorld) : BuiltinError × WalkWorld :=
  match e with
  | .raised c => (.text .raised, w.setRaise c)
  | .escape id v => (.text .escape, w.setEscape id v)
  | .message m => (.text m, w)

/-- `builtin_err_to_eval`: the slots come first, then the sentinels; any other text becomes a
condition. -/
def builtinErrToEval (B : Builtins) (e : BuiltinError) (w : WalkWorld) : EvalError × WalkWorld :=
  match w.pendingRaise with
  | some c => (.raised c, { w with pendingRaise := none })
  | none =>
    match w.pendingEscape with
    | some (id, v) => (.escape id v, { w with pendingEscape := none })
    | none =>
      match e with
      | .text (.message m) =>
        let c := B.describe m w.heap
        (.raised c.1, { w with heap := c.2 })
      | .text m => (.message m, w)
      | .failed cond => (.raised cond, w)

/-- `EvalError::message`. -/
def EvalError.asText : EvalError → VmError
  | .message m => m
  | .raised _ => .message .uncaught
  | .escape _ _ => .message .escapeInvoked

/-! ## Builtins -/

/-- A first-order builtin. -/
def callPure (B : Builtins) (b : Builtin) (args : List Value) (w : WalkWorld) :
    Except BuiltinError Value × WalkWorld :=
  match b with
  | .arith op =>
    match op.builtin B.fp args with
    | .ok v => (.ok v, w.single)
    | .error e =>
      let c := B.condition op e w.heap
      (.error (.failed c.1), { w with heap := c.2 })
  | .prim id =>
    match B.prim id args w.heap with
    | (.value v, h) => (.ok v, { w with heap := h }.single)
    | (.values vs, h) => (.ok .unspecified, { w with heap := h }.stash vs)
    | (.fail cond, h) => (.error (.failed cond), { w with heap := h })

/-- `b_values`. -/
def bValues (args : List Value) (w : WalkWorld) : Except BuiltinError Value × WalkWorld :=
  match args with
  | [v] => (.ok v, w.single)
  | vs => (.ok .unspecified, w.stash vs)

/-- `b_raise`. -/
def bRaise (args : List Value) (w : WalkWorld) : Except BuiltinError Value × WalkWorld :=
  match args with
  | [v] => (.error (.text .raised), w.setRaise v)
  | _ => (.error (.text (.message .argumentCount)), w)

section Control

variable (apply : Value → List Value → WalkWorld → Res EvalError Value)

/-- `b_call_with_values`. -/
def bCallWithValues (args : List Value) (w : WalkWorld) : Res BuiltinError Value :=
  match args with
  | [producer, consumer] =>
    match apply producer [] w.startProducer with
    | none => none
    | some (.error e, w₁) => some (.error (propagateEvalErr e w₁).1,
        (propagateEvalErr e w₁).2.setDue w.ghost.due)
    | some (.ok v, w₁) =>
      (apply consumer (w₁.produced v)
        (w₁.endProducer w.pendingValues w.ghost.due v)).mapErr propagateEvalErr
  | _ => some (.error (.text (.message .argumentCount)), w)

/-- The outcome of a `call/cc` whose receiver failed. -/
def callCcFailed (id : ℕ) (prev : Option (ℕ × Value)) (e : EvalError) (w : WalkWorld) :
    Except BuiltinError Value × WalkWorld :=
  let escape :=
    match e with
    | .escape eid v => some (eid, v)
    | _ => w.pendingEscape
  match escape with
  | some (eid, v) =>
    if eid = id then (.ok v, { w with pendingEscape := prev }.single)
    else (.error (.text .escape), w.setEscape eid v)
  | none =>
    let p := propagateEvalErr e { w with pendingEscape := prev }
    (.error p.1, p.2)

/-- `b_call_cc`. -/
def bCallCc (args : List Value) (w : WalkWorld) : Res BuiltinError Value :=
  match args with
  | [receiver] =>
    let p := w.newProc (.continuation w.nextCont () true)
    match apply receiver [p.1] { p.2 with nextCont := w.nextCont + 1, pendingEscape := none } with
    | none => none
    | some (.ok v, w₁) => some (.ok v, { w₁ with pendingEscape := w.pendingEscape })
    | some (.error e, w₁) => some (callCcFailed w.nextCont w.pendingEscape e w₁)
  | _ => some (.error (.text (.message .argumentCount)), w)

/-- The outcome of a `dynamic-wind` after its `after` thunk. -/
def windOutcome (res : Except EvalError Value) (result : Option (List Value))
    (after : Except EvalError Value) (w : WalkWorld) : Except BuiltinError Value × WalkWorld :=
  match res, after with
  | .ok v, .ok _ => (.ok v, w.setResult result)
  | .ok _, .error e => (.error (.text e.asText), w)
  | .error e, _ =>
    let p := propagateEvalErr e w
    (.error p.1, p.2)

/-- `b_dynamic_wind`: the `after` thunk always runs. -/
def bDynamicWind (args : List Value) (w : WalkWorld) : Res BuiltinError Value :=
  match args with
  | [before, thunk, after] =>
    ((apply before [] w).mapErr propagateEvalErr).bind fun _ w =>
      match apply thunk [] w with
      | none => none
      | some (res, w₁) =>
        match apply after [] (w₁.setDue (w₁.ghost.due.during res.isOk)) with
        | none => none
        | some (r, w₂) => some (windOutcome res w₁.ghost.result r (w₂.setDue w₁.ghost.due))
  | _ => some (.error (.text (.message .argumentCount)), w)

/-- `b_with_exception_handler`. -/
def bWithExceptionHandler (args : List Value) (w : WalkWorld) : Res BuiltinError Value :=
  match args with
  | [handler, thunk] =>
    match apply thunk [] { w with pendingRaise := none } with
    | none => none
    | some (.ok v, w₁) => some (.ok v, { w₁ with pendingRaise := w.pendingRaise })
    | some (.error (.raised c), w₁) =>
      (apply handler [c] { w₁ with pendingRaise := w.pendingRaise }).mapErr propagateEvalErr
    | some (.error e, w₁) =>
      let p := propagateEvalErr e { w₁ with pendingRaise := w.pendingRaise }
      some (.error p.1, p.2)
  | _ => some (.error (.text (.message .argumentCount)), w)

/-- `b_apply`; the walk over a circular list never ends. -/
def bApply (args : List Value) (w : WalkWorld) : Res BuiltinError Value :=
  match args with
  | f :: a :: rest =>
    match collectList w.heap ((a :: rest).getLastD .null) with
    | none => none
    | some (.error _) => some (.error (.text (.message .improperList)), w)
    | some (.ok vs) => (apply f ((a :: rest).dropLast ++ vs) w).mapErr propagateEvalErr
  | _ => some (.error (.text (.message .argumentCount)), w)

end Control

/-! ## Evaluation -/

section Lists

variable {ε : Type}

/-- Arguments, left to right. -/
def evalAll (ev : CoreExpr → WalkWorld → Res ε Value) :
    List CoreExpr → WalkWorld → Res ε (List Value)
  | [], w => some (.ok [], w)
  | e :: es, w =>
    (ev e w).bind fun v w => (evalAll ev es w).bind fun vs w => some (.ok (v :: vs), w)

/-- The expressions of a `begin`; the last one is evaluated by `last`. -/
def evalSeq (ev last : CoreExpr → WalkWorld → Res ε Value) :
    List CoreExpr → WalkWorld → Res ε Value
  | [], w => some (.ok .unspecified, w.single)
  | [e], w => last e w
  | e :: es, w => (ev e w).bind fun _ w => evalSeq ev last es w

/-- The initialisers of a `letrec`, each stored as it is computed. -/
def evalInits (ev : CoreExpr → WalkWorld → Res ε Value) (layer : ℕ) :
    List (Symbol × CoreExpr) → WalkWorld → Res ε Unit
  | [], w => some (.ok (), w)
  | (x, e) :: bs, w =>
    (ev e w).bind fun v w =>
      evalInits ev layer bs { w with layers := w.layers.define layer x v }

end Lists

/-- `set_existing`, or a definition in the top frame. -/
def setOrDefine (top : Layers.Ref) (w : WalkWorld) (env : Env) (x : Symbol) (v : Value) :
    WalkWorld :=
  match w.layers.setExisting env x v with
  | some s => { w with layers := s }.record x v
  | none => { w with layers := w.layers.define top.id x v }.record x v

/-- `Frame::child` with every name of a `letrec` bound to the unspecified value. -/
def letrecScope (names : List Symbol) (w : WalkWorld) : Layers.Ref × WalkWorld :=
  (w.newLayer.1, { w.newLayer.2 with
    layers := w.newLayer.2.layers.defineAll w.newLayer.1.id
      (names.map fun x => (x, Value.unspecified)) })

/-- `accepts_arity`. -/
def Params.acceptsArity (ps : Params) (n : ℕ) : Bool :=
  if ps.rest.isSome then ps.fixed.length ≤ n else n == ps.fixed.length

section Eval

variable (B : Builtins) (top : Layers.Ref) (maxDepth : ℕ)

mutual

/-- **`eval`**: the depth guard around `eval_inner`. -/
def eval : ℕ → ℕ → CoreExpr → Env → WalkWorld → Res EvalError Value
  | 0, _, _, _, _ => none
  | n + 1, depth, e, env, w =>
    if maxDepth < depth + 1 then some (.error (.message (.message .stackOverflow)), w)
    else evalInner n (depth + 1) e env w
termination_by structural n _ _ _ _ => n

/-- **`eval_inner`**: tail positions stay at the same depth. -/
def evalInner : ℕ → ℕ → CoreExpr → Env → WalkWorld → Res EvalError Value
  | 0, _, _, _, _ => none
  | n + 1, depth, e, env, w =>
    match e with
    | .const v => some (.ok v, w.single)
    | .ref x =>
      match w.layers.get env x with
      | some v => some (.ok v, w.single)
      | none => some (.error (.message (.message (.undefinedVariable x))), w)
    | .set x e =>
      (eval n depth e env w).bind fun v w =>
        some (.ok .unspecified, (setOrDefine top w env x v).single)
    | .lambda ps body =>
      let p := w.newProc (.closure ⟨ps, body, env⟩)
      some (.ok p.1, p.2.single)
    | .ite c t a =>
      (eval n depth c env w).bind fun v w =>
        evalInner n depth (if v.isTruthy then t else a) env w
    | .begin es =>
      evalSeq (fun e w => eval n depth e env w) (fun e w => evalInner n depth e env w) es w
    | .letrec bs body =>
      let s := letrecScope (bs.map Prod.fst) w
      (evalInits (fun e w => eval n depth e (s.1 :: env) w) s.1.id bs s.2).bind fun _ w =>
        evalInner n depth body (s.1 :: env) w
    | .withMark k v body =>
      (eval n depth k env w).bind fun _ w => (eval n depth v env w).bind fun _ w =>
        evalInner n depth body env w
    | .app f args =>
      (eval n depth f env w).bind fun g w =>
        (evalAll (fun e w => eval n depth e env w) args w).bind fun vs w =>
          match w.procOf g with
          | none => some (.error (.message (.message .nonProcedure)), w)
          | some (a, .closure c) =>
            if c.params.acceptsArity vs.length then
              let b := bindArgs c.params.fixed c.params.rest none c.env (.procedure a) vs w
              evalInner n depth c.body b.1 b.2
            else some (.error (.message (.message .arityMismatch)), w)
          | some (_, .continuation id _ _) =>
            some (.error (.message .escape), w.setEscape id (vs.headD .unspecified))
          | some (_, p) => (callBuiltinProc n depth p vs w).mapErr (builtinErrToEval B)
termination_by structural n _ _ _ _ => n

/-- **`apply_procedure`.** -/
def applyProcedure : ℕ → ℕ → Value → List Value → WalkWorld → Res EvalError Value
  | 0, _, _, _, _ => none
  | n + 1, depth, f, args, w =>
    match w.procOf f with
    | none => some (.error (.message (.message .nonProcedure)), w)
    | some (a, .closure c) =>
      if c.params.acceptsArity args.length then
        let b := bindArgs c.params.fixed c.params.rest none c.env (.procedure a) args w
        eval n depth c.body b.1 b.2
      else some (.error (.message (.message .arityMismatch)), w)
    | some (_, .continuation id _ _) =>
      some (.error (.message .escape), w.setEscape id (args.headD .unspecified))
    | some (_, p) => (callBuiltinProc n depth p args w).mapErr (builtinErrToEval B)
termination_by structural n _ _ _ _ => n

/-- The call of a builtin. -/
def callBuiltinProc : ℕ → ℕ → Proc WalkClosure Unit → List Value → WalkWorld →
    Res BuiltinError Value
  | 0, _, _, _, _ => none
  | n + 1, depth, p, args, w =>
    match p with
    | .builtin b => some (callPure B b args w)
    | .values => some (bValues args w)
    | .raise => some (bRaise args w)
    | .apply => bApply (fun f vs w => applyProcedure n depth f vs w) args w
    | .callWithValues => bCallWithValues (fun f vs w => applyProcedure n depth f vs w) args w
    | .callCc => bCallCc (fun f vs w => applyProcedure n depth f vs w) args w
    | .dynamicWind => bDynamicWind (fun f vs w => applyProcedure n depth f vs w) args w
    | .withExceptionHandler =>
      bWithExceptionHandler (fun f vs w => applyProcedure n depth f vs w) args w
    | .higher h => runHigher n depth h (B.higherStart h args w.heap) w
    | _ => some (.error (.text (.message .unsupportedProcedure)), w)
termination_by structural n _ _ _ _ => n

/-- A higher-order builtin, from one callback to the next. -/
def runHigher : ℕ → ℕ → ℕ → HigherAct × Heap → WalkWorld → Res BuiltinError Value
  | 0, _, _, _, _ => none
  | n + 1, depth, h, act, w =>
    match act with
    | (.call f args k, hp) =>
      ((applyProcedure n depth f args { w with heap := hp }).mapErr propagateEvalErr).bind
        fun v w => runHigher n depth h (B.higherResume h k v w.heap) w
    | (.done v, hp) => some (.ok v, { w with heap := hp }.single)
    | (.doneValues vs, hp) => some (.ok .unspecified, { w with heap := hp }.stash vs)
    | (.fail cond, hp) => some (.error (.failed cond), { w with heap := hp })
termination_by structural n _ _ _ _ => n

end

end Eval

end CrabScheme
