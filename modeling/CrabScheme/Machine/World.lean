import CrabScheme.Core.Value
import CrabScheme.Lib.Layers

/-!
# The state shared by everything that runs

Environments, procedures, the heap and the side slots through which the virtual machine passes
multiple values, raised conditions and escapes. The types are generic in the closures `C` of a
tier and in the saved loops `L` that its continuations hold, so that the bytecode machine, the
expression machine it is compared with and the tree-walking evaluator share them.

The library of first-order and higher-order builtins is a parameter, `Builtins`: a first-order
builtin computes on the heap, a higher-order one is a resumable computation that asks for calls
of the procedures it was given.
-/

namespace CrabScheme

/-- An environment: a chain of binding layers. -/
abbrev Env := Layers.Chain

/-- The texts of errors that are no raised condition. -/
inductive Message
  | undefinedVariable (x : Symbol)
  | arityMismatch
  | nonProcedure
  | argumentCount
  | improperList
  | unsupportedProcedure
  | builtinFailed
  | emptyStack
  | stackUnderflow
  | noParentScope
  | badIndex
  | stackOverflow
  | uncaught
  | escapeInvoked
deriving DecidableEq

/-- **Error texts**, the errors of the virtual machine and of the builtins: the sentinel
`__escape__`, the sentinel `__raised__`, or a plain message. -/
inductive VmError
  | escape
  | raised
  | message (m : Message)
deriving DecidableEq

/-- What a first-order builtin returns. `values` is a builtin that stashes several values;
`fail` carries the condition object that describes the failure. -/
inductive PrimResult
  | value (v : Value)
  | values (vs : List Value)
  | fail (cond : Value)

/-- The suspended state of a higher-order builtin: where it is, and the values it holds. -/
structure HigherState where
  label : ℕ
  saved : List Value

/-- What a higher-order builtin does next. -/
inductive HigherAct
  | call (f : Value) (args : List Value) (k : HigherState)
  | done (v : Value)
  | doneValues (vs : List Value)
  | fail (cond : Value)

/-- **The builtin library.** `equal` is the structural equality `equal?`; `condition` is the
condition object an arithmetic failure is reported with, `describe` the one made from a plain
message. -/
structure Builtins where
  fp : FlonumOps
  equal : Heap → Value → Value → Bool
  prim : ℕ → List Value → Heap → PrimResult × Heap
  higherStart : ℕ → List Value → Heap → HigherAct × Heap
  higherResume : ℕ → HigherState → Value → Heap → HigherAct × Heap
  condition : Fx2 → ArithError → Heap → Value × Heap
  describe : Message → Heap → Value × Heap

/-- A library whose only builtins are the arithmetic ones. -/
def Builtins.bare : Builtins where
  fp := .coarse
  equal _ a b := a == b
  prim _ _ h := (.fail .unspecified, h)
  higherStart _ _ h := (.fail .unspecified, h)
  higherResume _ _ _ h := (.fail .unspecified, h)
  condition _ _ h := (.unspecified, h)
  describe _ h := (.unspecified, h)

/-- First-order builtins: the specialised arithmetic operations, and the rest by number. -/
inductive Builtin
  | arith (op : Fx2)
  | prim (id : ℕ)
deriving DecidableEq

/-- **Procedure objects.** A continuation holds the loop it was captured in and whether its
`call/cc` is still active. -/
inductive Proc (C L : Type)
  | closure (c : C)
  | continuation (id : ℕ) (snapshot : L) (inFlight : Bool)
  | builtin (b : Builtin)
  | higher (h : ℕ)
  | apply
  | values
  | callWithValues
  | callCc
  | dynamicWind
  | raise
  | withExceptionHandler

/-- Whether the value of the running code goes to a waiting `call-with-values`: it does not, it
does, or an `after` thunk runs in between. -/
inductive Due
  | idle
  | owed
  | held
deriving DecidableEq

/-- The state while the `after` thunk of a body runs. -/
def Due.during (d : Due) (completed : Bool) : Due :=
  match d with
  | .owed => if completed then .held else .idle
  | d => d

/-- **What a run leaves behind**, for the statements about it; no modelled function reads it.
`updates` are the assignments made, latest first. `result` says which values the value produced
last stands for, when they are several. `deliveries` pairs the values each consumer of
`call-with-values` was called with and the values its producer returned, and `dropped` counts
the steps that leave several values pending, or take them away, which are not the ones due. -/
structure Ghost where
  updates : List (Symbol × Value)
  result : Option (List Value)
  due : Due
  dropped : ℕ
  deliveries : List (List Value × List Value)

/-- **The shared state.** -/
structure World (C L : Type) where
  layers : Layers.Store Symbol Value
  procs : List (Proc C L)
  heap : Heap
  pendingValues : Option (List Value)
  pendingRaise : Option Value
  pendingEscape : Option (ℕ × Value)
  nextCont : ℕ
  ghost : Ghost

namespace World

variable {C L : Type}

/-- A world without environments or procedures. -/
def blank : World C L :=
  ⟨.empty, [], [], none, none, none, 1, ⟨[], none, .idle, 0, []⟩⟩

/-- A world with one layer, which binds names to procedures. -/
def boot (ps : List (Symbol × Proc C L)) : World C L :=
  { (blank : World C L) with
    layers := Layers.Store.empty.alloc.defineAll 0
      (ps.zipIdx.map fun p => (p.1.1, Value.procedure p.2))
    procs := ps.map Prod.snd }

/-- A single value was produced; several that are pending and due were not returned. -/
def single (w : World C L) : World C L :=
  { w with ghost := { w.ghost with
      result := none
      dropped := w.ghost.dropped +
        if w.ghost.due = .owed ∧ w.pendingValues.isSome then 1 else 0 } }

/-- `set_pending_values`, at the point where several values are returned; several that are held
are lost. -/
def stash (w : World C L) (vs : List Value) : World C L :=
  { w with
    pendingValues := some vs
    ghost := { w.ghost with
      result := some vs
      dropped := w.ghost.dropped + if w.ghost.due = .held then 1 else 0 } }

/-- `call-with-values` takes the pending values and calls its producer. -/
def startProducer (w : World C L) : World C L :=
  { w with
    pendingValues := none
    ghost := { w.ghost with
      due := .owed
      dropped := w.ghost.dropped + if w.ghost.due = .held then 1 else 0 } }

/-- The values a producer that returned `v` hands to the consumer. -/
def produced (w : World C L) (v : Value) : List Value := w.pendingValues.getD [v]

/-- The pending values are put back before the consumer is called. -/
def endProducer (w : World C L) (prev : Option (List Value)) (due : Due) (v : Value) :
    World C L :=
  { w with
    pendingValues := prev
    ghost := { w.ghost with
      due := due
      deliveries := (w.produced v, w.ghost.result.getD [v]) :: w.ghost.deliveries } }

/-- The state `due` is put back. -/
def setDue (w : World C L) (due : Due) : World C L :=
  { w with ghost := { w.ghost with due := due } }

/-- The value produced last stands for the given values again. -/
def setResult (w : World C L) (result : Option (List Value)) : World C L :=
  { w with ghost := { w.ghost with result := result } }

/-- One more assignment is recorded. -/
def record (w : World C L) (x : Symbol) (v : Value) : World C L :=
  { w with ghost := { w.ghost with updates := (x, v) :: w.ghost.updates } }

/-- `set_existing`, or `define_root().define` for an unbound name. -/
def assign (w : World C L) (env : Env) (x : Symbol) (v : Value) : World C L :=
  { w with layers := w.layers.assign env x v }.record x v

/-- `define_root().define`. -/
def defineGlobal (w : World C L) (env : Env) (x : Symbol) (v : Value) : World C L :=
  { w with layers := w.layers.defineGlobal env x v }.record x v

/-- `Env::define` on the innermost layer. -/
def defineLocal (w : World C L) (env : Env) (x : Symbol) (v : Value) : World C L :=
  match env with
  | [] => w
  | r :: _ => { w with layers := w.layers.define r.id x v }

/-- `Env::child`: the reference of the new layer, and the world that has it. -/
def newLayer (w : World C L) : Layers.Ref × World C L :=
  (⟨w.layers.size, false⟩, { w with layers := w.layers.alloc })

/-- A new procedure object. -/
def newProc (w : World C L) (p : Proc C L) : Value × World C L :=
  (.procedure w.procs.length, { w with procs := w.procs ++ [p] })

/-- The arguments beyond the fixed ones as a list. -/
def newList (w : World C L) (vs : List Value) : Value × World C L :=
  let p := allocList w.heap vs
  (p.1, { w with heap := p.2 })

/-- The originating `call/cc` of a continuation has returned. -/
def endFlight (w : World C L) (k : ℕ) : World C L :=
  { w with procs := w.procs.modify k fun p =>
      match p with
      | .continuation id l _ => .continuation id l false
      | p => p }

/-- `set_pending_raise` and the error that goes with it. -/
def setRaise (w : World C L) (cond : Value) : World C L := { w with pendingRaise := some cond }

/-- `if let Some(prev) = prev { set_pending_raise(prev) }`. -/
def restoreRaise (w : World C L) (prev : Option Value) : World C L :=
  { w with pendingRaise := prev.or w.pendingRaise }

/-- `set_pending_escape`. -/
def setEscape (w : World C L) (id : ℕ) (v : Value) : World C L :=
  { w with pendingEscape := some (id, v) }

/-- The procedure object of a value. -/
def procOf (w : World C L) : Value → Option (ℕ × Proc C L)
  | .procedure a => w.procs[a]?.map fun p => (a, p)
  | _ => none

end World

/-- The environment a closure body runs in: the parameters, the list of further arguments, and
last the closure itself under its `self_bind` name. -/
def bindArgs {C L : Type} (params : List Symbol) (rest selfBind : Option Symbol) (env : Env)
    (self : Value) (args : List Value) (w : World C L) : Env × World C L :=
  let r := w.newLayer.1
  let w₁ := w.newLayer.2
  let w₂ := { w₁ with layers := w₁.layers.defineAll r.id (params.zip args) }
  let w₃ :=
    match rest with
    | some x =>
      let p := w₂.newList (args.drop params.length)
      { p.2 with layers := p.2.layers.define r.id x p.1 }
    | none => w₂
  let w₄ :=
    match selfBind with
    | some x => { w₃ with layers := w₃.layers.define r.id x self }
    | none => w₃
  (r :: env, w₄)

end CrabScheme
