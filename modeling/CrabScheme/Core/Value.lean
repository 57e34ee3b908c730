import CrabScheme.Core.Number

/-!
# Values, the heap and the arithmetic builtins

`Value` is `cs_core::Value` with every shared object replaced by an address: pairs and other
heap objects live in a `Heap`, procedures in the procedure table of the running tier. The
second half of the file holds the two implementations of `+ - * < <= > >= =` that the tiers
choose between: the two-operand instructions of the virtual machine (`Fx2.apply`) and the
variadic builtins (`Fx2.builtin`).
-/

namespace CrabScheme

/-- An interned symbol. -/
structure Symbol where
  id : ℕ
deriving DecidableEq, Repr

/-- **Scheme values.** -/
inductive Value
  | fixnum (n : I64)
  | flonum (f : F64)
  | bigNumber (n : ℤ)
  | rational (q : ℚ)
  | boolean (b : Bool)
  | character (c : Char)
  | symbol (s : Symbol)
  | null
  | unspecified
  | eof
  | pair (a : ℕ)
  | object (a : ℕ)
  | procedure (a : ℕ)
deriving DecidableEq

/-- A heap object: a pair, or any other mutable object with its uninterpreted payload and the
values it holds. -/
inductive HeapObj
  | pair (car cdr : Value)
  | object (raw : ℕ) (fields : List Value)
deriving DecidableEq

/-- The heap; an address is an index. -/
abbrev Heap := List HeapObj

namespace Value

/-- Everything but `#f` counts as true. -/
def isTruthy : Value → Bool
  | .boolean false => false
  | _ => true

/-- A small integer literal. -/
def ofNat (n : ℕ)
    (h : n < 2 ^ 63 := by
      first | exact I64.zero_lt | exact I64.one_lt | exact I64.two_lt | exact I64.three_lt | decide) : Value := .fixnum (I64.ofNat n h)

/-- `Value::from_number`. -/
def fromNumber : Number → Value
  | .fixnum n => .fixnum n
  | .big n => .bigNumber n
  | .rat q => .rational q
  | .flonum f => .flonum f

/-- `Value::as_number`. -/
def asNumber : Value → Option Number
  | .fixnum n => some (.fixnum n)
  | .bigNumber n => some (.big n)
  | .rational q => some (.rat q)
  | .flonum f => some (.flonum f)
  | _ => none

end Value

/-! ## Lists on the heap -/

/-- `Value::list`: the values as a proper list; the last cell is allocated first. -/
def allocList (h : Heap) : List Value → Value × Heap
  | [] => (.null, h)
  | v :: vs =>
    let p := allocList h vs
    (.pair p.2.length, p.2 ++ [.pair v p.1])

/-- Walk a list for at most the given number of cells; `none` when they do not suffice, and an
error with the offending tail when the list is improper. -/
def collectUpTo (h : Heap) : ℕ → Value → Option (Except Value (List Value))
  | 0, _ => none
  | _ + 1, .null => some (.ok [])
  | n + 1, .pair a =>
    match h[a]? with
    | some (.pair car cdr) => (collectUpTo h n cdr).map fun r => r.map (car :: ·)
    | _ => some (.error (.pair a))
  | _ + 1, v => some (.error v)

/-- The walk over a list that `apply` makes. A walk longer than the heap revisits a cell, so
`none` stands for the walk over a circular list, which never ends. -/
def collectList (h : Heap) (v : Value) : Option (Except Value (List Value)) :=
  collectUpTo h (h.length + 1) v

/-! ## Specialised arithmetic -/

/-- The operations with a two-operand instruction. -/
inductive Fx2
  | add | sub | mul | lt | le | gt | ge | eq
deriving DecidableEq, Repr

/-- Why an arithmetic builtin fails: an argument that is no number, or no argument at all. -/
inductive ArithError
  | notNumber (v : Value)
  | arity
deriving DecidableEq

namespace Fx2

/-- The comparison `op` makes of an order; `=` has its own test. -/
def test : Fx2 → Ordering → Bool
  | .lt, o => o == .lt
  | .le, o => o != .gt
  | .gt, o => o == .gt
  | .ge, o => o != .lt
  | _, o => o == .eq

/-- The arms on two fixnums: checked machine arithmetic, or a comparison. -/
def fixnum (op : Fx2) (x y : I64) : Option Value :=
  match op with
  | .add => (I64.checked (x.val + y.val)).map .fixnum
  | .sub => (I64.checked (x.val - y.val)).map .fixnum
  | .mul => (I64.checked (x.val * y.val)).map .fixnum
  | op => some (.boolean (op.test (compare x.val y.val)))

/-- The operation on two numbers, as `generic_arith2` and `generic_cmp2` compute it. -/
def onNumbers (fp : FlonumOps) (op : Fx2) (a b : Number) : Value :=
  match op with
  | .add => .fromNumber (a.add fp b)
  | .sub => .fromNumber (a.sub fp b)
  | .mul => .fromNumber (a.mul fp b)
  | .eq => .boolean (a.eqValue fp b)
  | op => .boolean (op.test (a.cmp fp b))

/-- `generic_arith2` and `generic_cmp2`; the error is the first operand that is no number. -/
def generic (fp : FlonumOps) (op : Fx2) (a b : Value) : Except Value Value :=
  match a.asNumber, b.asNumber with
  | none, _ => .error a
  | some _, none => .error b
  | some x, some y => .ok (op.onNumbers fp x y)

/-- **The two-operand instruction**: the fixnum fast path, then the numeric tower. -/
def apply (fp : FlonumOps) (op : Fx2) (a b : Value) : Except Value Value :=
  match a, b with
  | .fixnum x, .fixnum y =>
    match op.fixnum x y with
    | some v => .ok v
    | none => op.generic fp a b
  | a, b => op.generic fp a b

/-- One argument of an arithmetic builtin, read as a number (`as_num`). -/
def asNum (v : Value) : Except ArithError Number :=
  match v.asNumber with
  | some n => .ok n
  | none => .error (.notNumber v)

/-- The accumulating loop of `b_add`, `b_sub` and `b_mul`. -/
def accumulate (f : Number → Number → Number) (acc : Number) :
    List Value → Except ArithError Number
  | [] => .ok acc
  | v :: vs => do
    let n ← asNum v
    accumulate f (f acc n) vs

/-- The loop of `cmp_chain`: neighbours must be in order. -/
def cmpChain (p : Number → Number → Bool) (prev : Number) :
    List Value → Except ArithError Bool
  | [] => .ok true
  | v :: vs => do
    let cur ← asNum v
    if p prev cur then cmpChain p cur vs else .ok false

/-- The loop of `b_num_eq`: every further argument equals the first. -/
def eqAll (p : Number → Number → Bool) (first : Number) :
    List Value → Except ArithError Bool
  | [] => .ok true
  | v :: vs => do
    let n ← asNum v
    if p first n then eqAll p first vs else .ok false

/-- **The variadic builtins** `b_add`, `b_sub`, `b_mul`, `b_num_eq` and the comparison chains. -/
def builtin (fp : FlonumOps) (op : Fx2) (args : List Value) : Except ArithError Value :=
  match op, args with
  | .add, args => .fromNumber <$> accumulate (Number.add fp) (.fixnum (I64.ofNat 0)) args
  | .mul, args => .fromNumber <$> accumulate (Number.mul fp) (.fixnum (I64.ofNat 1)) args
  | .sub, [] => .error .arity
  | .sub, [v] => do
    let n ← asNum v
    .ok (.fromNumber (n.neg fp))
  | .sub, v :: vs => do
    let n ← asNum v
    .fromNumber <$> accumulate (Number.sub fp) n vs
  | .eq, v :: w :: vs => do
    let n ← asNum v
    .boolean <$> eqAll (Number.eqValue fp) n (w :: vs)
  | op, v :: w :: vs => do
    let n ← asNum v
    .boolean <$> cmpChain (fun a b => op.test (a.cmp fp b)) n (w :: vs)
  | _, _ => .ok (.boolean true)

end Fx2

end CrabScheme
