import CrabScheme.Machine.Engine

/-!
# Bytecode and its dispatch loop

The instruction set of `cs-vm`, compiled lambdas and units, and `run_dispatch` as an engine: a
loop is a stack of frames over one operand stack. Source spans, profiling and native code
generation are left out; they do not take part in evaluation.
-/

namespace CrabScheme

/-- The fused compare-and-branch instructions, named by the comparison that takes the branch. -/
inductive BranchOp
  | ge | gt | le | lt | ne
deriving DecidableEq, Repr

/-- **Instructions.** `fx2` stands for `AddFx2` … `EqFx2` and `branchOn` for `BranchOnGeFx2` …
`BranchOnNeFx2`. -/
inductive Inst
  | const (idx : ℕ)
  | loadVar (x : Symbol)
  | setVar (x : Symbol)
  | defineGlobal (x : Symbol)
  | defineLocal (x : Symbol)
  | pop
  | jumpIfFalse (target : ℕ)
  | jump (target : ℕ)
  | call (n : ℕ)
  | tailCall (n : ℕ)
  | makeClosure (idx : ℕ)
  | ret
  | pushMark
  | enterScope
  | leaveScope
  | fx2 (op : Fx2)
  | branchOn (b : BranchOp) (target : ℕ)
deriving DecidableEq, Repr

/-- One operand of a leaf body: a parameter, or a constant. -/
inductive FastArg
  | param (i : ℕ)
  | const (v : Value)
deriving DecidableEq

/-- A body that is one two-operand operation on parameters and constants. -/
structure FastPrimopBody where
  op : Fx2
  arg0 : FastArg
  arg1 : FastArg
deriving DecidableEq

/-- A compiled lambda. -/
structure CompiledLambda where
  params : List Symbol
  rest : Option Symbol
  body : List Inst
  fast : Option FastPrimopBody
  selfBind : Option Symbol
deriving DecidableEq

/-- A compiled unit: its top-level code, its lambdas and the constant pool they share. -/
structure Bytecode where
  insts : List Inst
  lambdas : List CompiledLambda
  consts : List Value
deriving DecidableEq

/-- A call frame. -/
structure Frame where
  insts : List Inst
  ip : ℕ
  env : Env
  bc : Bytecode
  marks : List (Value × Value)
deriving DecidableEq

/-- The state of a dispatch loop: frames, innermost first, and operands, topmost first. -/
structure VmLoop where
  frames : List Frame
  stack : List Value
deriving DecidableEq

/-- A closure of the virtual machine. -/
structure VmClosure where
  bc : Bytecode
  lambdaIdx : ℕ
  env : Env
deriving DecidableEq

abbrev VmWorld := World VmClosure VmLoop
abbrev VmStep := LoopStep VmClosure VmLoop
abbrev VmState := State VmClosure VmLoop

/-- The comparison whose failure takes the branch. -/
def BranchOp.cond : BranchOp → Fx2
  | .ge => .lt
  | .gt => .le
  | .le => .gt
  | .lt => .ge
  | .ne => .eq

/-- The test on two fixnums that takes the branch. -/
def BranchOp.taken : BranchOp → ℤ → ℤ → Bool
  | .ge, a, b => a ≥ b
  | .gt, a, b => a > b
  | .le, a, b => a ≤ b
  | .lt, a, b => a < b
  | .ne, a, b => a ≠ b

section Dispatch

variable (B : Builtins)

/-- The current frame is popped; the loop returns the top operand when it was the last. -/
def popFrame (fs : List Frame) (st : List Value) (w : VmWorld) : VmStep :=
  match fs, st with
  | [], v :: _ => .halt (.ok v) w
  | [], [] => .halt (.error (.message .emptyStack)) w
  | fs, st => .next ⟨fs, st⟩ w

/-- An arithmetic instruction met an operand that is no number. -/
def raiseArith {C L : Type} (op : Fx2) (v : Value) (w : World C L) : LoopStep C L :=
  let c := B.condition op (.notNumber v) w.heap
  .halt (.error .raised) ({ w with heap := c.2 }.setRaise c.1)

/-- A two-operand instruction. -/
def execFx2 (op : Fx2) (f : Frame) (fs : List Frame) (st : List Value) (w : VmWorld) : VmStep :=
  match st with
  | b :: a :: st =>
    match op.apply B.fp a b with
    | .ok v => .next ⟨f :: fs, v :: st⟩ w.single
    | .error v => raiseArith B op v w
  | _ => .halt (.error (.message .stackUnderflow)) w

/-- A fused compare-and-branch: the fixnum test, or the original comparison by the numeric
tower. -/
def execBranch (b : BranchOp) (target : ℕ) (f : Frame) (fs : List Frame) (st : List Value)
    (w : VmWorld) : VmStep :=
  match st with
  | .fixnum y :: .fixnum x :: st =>
    .next ⟨(if b.taken x.val y.val then { f with ip := target } else f) :: fs, st⟩ w
  | y :: x :: st =>
    match b.cond.generic B.fp x y with
    | .ok v => .next ⟨(if v.isTruthy then f else { f with ip := target }) :: fs, st⟩ w
    | .error v => raiseArith B b.cond v w
  | _ => .halt (.error (.message .stackUnderflow)) w

/-- `PushMark`: the mark for an equal key on this frame is replaced. -/
def upsertMark (h : Heap) (key val : Value) : List (Value × Value) → List (Value × Value)
  | [] => [(key, val)]
  | (k, v) :: ms => if B.equal h k key then (k, val) :: ms else (k, v) :: upsertMark h key val ms

/-- The top operand is popped; an empty operand stack is an error. -/
def popping (st : List Value) (w : VmWorld) (k : Value → List Value → VmStep) : VmStep :=
  match st with
  | v :: st => k v st
  | [] => .halt (.error (.message .stackUnderflow)) w

/-- The operator under `n` operands is called. -/
def execCall (n : ℕ) (tail : Bool) (f : Frame) (fs : List Frame) (st : List Value)
    (w : VmWorld) : VmStep :=
  match st[n]? with
  | some g => .call g (st.take n).reverse tail ⟨f :: fs, st.drop (n + 1)⟩ w
  | none => .halt (.error (.message .stackUnderflow)) w

/-- **One instruction**; `f` is the current frame with its instruction pointer already advanced,
`fs` the frames below it. -/
def exec (i : Inst) (f : Frame) (fs : List Frame) (st : List Value) (w : VmWorld) : VmStep :=
  match i with
  | .const idx =>
    match f.bc.consts[idx]? with
    | some v => .next ⟨f :: fs, v :: st⟩ w.single
    | none => .halt (.error (.message .badIndex)) w
  | .loadVar x =>
    match w.layers.get f.env x with
    | some v => .next ⟨f :: fs, v :: st⟩ w.single
    | none => .halt (.error (.message (.undefinedVariable x))) w
  | .setVar x => popping st w fun v st => .next ⟨f :: fs, st⟩ (w.assign f.env x v)
  | .defineGlobal x => popping st w fun v st => .next ⟨f :: fs, st⟩ (w.defineGlobal f.env x v)
  | .defineLocal x => popping st w fun v st => .next ⟨f :: fs, st⟩ (w.defineLocal f.env x v)
  | .enterScope => .next ⟨{ f with env := w.newLayer.1 :: f.env } :: fs, st⟩ w.newLayer.2
  | .leaveScope =>
    match f.env with
    | _ :: r :: env => .next ⟨{ f with env := r :: env } :: fs, st⟩ w
    | _ => .halt (.error (.message .noParentScope)) w
  | .pushMark =>
    popping st w fun val st => popping st w fun key st =>
      .next ⟨{ f with marks := upsertMark B w.heap key val f.marks } :: fs, st⟩ w
  | .pop => popping st w fun _ st => .next ⟨f :: fs, st⟩ w
  | .jumpIfFalse target =>
    popping st w fun v st =>
      .next ⟨(if v.isTruthy then f else { f with ip := target }) :: fs, st⟩ w
  | .jump target => .next ⟨{ f with ip := target } :: fs, st⟩ w
  | .call n => execCall n false f fs st w
  | .tailCall n => execCall n true f fs st w
  | .makeClosure idx =>
    let p := w.newProc (.closure ⟨f.bc, idx, f.env⟩)
    .next ⟨f :: fs, p.1 :: st⟩ p.2.single
  | .ret => popFrame fs st w
  | .fx2 op => execFx2 B op f fs st w
  | .branchOn b target => execBranch B b target f fs st w

variable {B} in
lemma exec_eq_call {i : Inst} {f : Frame} {fs : List Frame} {st : List Value} {w w' : VmWorld}
    {g : Value} {args : List Value} {tail : Bool} {l : VmLoop}
    (h : exec B i f fs st w = .call g args tail l w') :
    ∃ n, (i = .call n ∧ tail = false ∨ i = .tailCall n ∧ tail = true) ∧ st[n]? = some g ∧
      args = (st.take n).reverse ∧ l = ⟨f :: fs, st.drop (n + 1)⟩ ∧ w' = w := by
  have hcall : ∀ n t, execCall n t f fs st w = .call g args tail l w' → st[n]? = some g ∧
      args = (st.take n).reverse ∧ tail = t ∧ l = ⟨f :: fs, st.drop (n + 1)⟩ ∧ w' = w := by
    intro n t h
    unfold execCall at h
    split at h
    · rename_i g' hg
      cases h
      exact ⟨hg, rfl, rfl, rfl, rfl⟩
    · cases h
  cases i with
  | call n =>
    obtain ⟨h1, h2, h3, h4, h5⟩ := hcall n false h
    exact ⟨n, .inl ⟨rfl, h3⟩, h1, h2, h4, h5⟩
  | tailCall n =>
    obtain ⟨h1, h2, h3, h4, h5⟩ := hcall n true h
    exact ⟨n, .inr ⟨rfl, h3⟩, h1, h2, h4, h5⟩
  | _ =>
    simp only [exec, execFx2, execBranch, popFrame, popping] at h
    repeat' split at h
    all_goals cases h

/-- One iteration of `run_dispatch`. A frame whose instructions run out is popped. -/
def dispatch (l : VmLoop) (w : VmWorld) : VmStep :=
  match l.frames with
  | [] => .halt (.error (.message .stackUnderflow)) w
  | f :: fs =>
    match f.insts[f.ip]? with
    | some i => exec B i { f with ip := f.ip + 1 } fs l.stack w
    | none => popFrame fs l.stack w

/-- The result of a native call is pushed, and the frame of a tail call is popped. -/
def VmLoop.deliver (l : VmLoop) (tail : Bool) (v : Value) : VmLoop ⊕ Except VmError Value :=
  if tail then
    match l.frames.tail with
    | [] => .inr (.ok v)
    | fs => .inl ⟨fs, v :: l.stack⟩
  else .inl ⟨l.frames, v :: l.stack⟩

/-- `lambda_arity_ok`. -/
def CompiledLambda.arityOk (lam : CompiledLambda) (n : ℕ) : Bool :=
  if lam.rest.isSome then lam.params.length ≤ n else n == lam.params.length

/-- An operand of a leaf body. -/
def FastArg.resolve (args : List Value) : FastArg → Option Value
  | .param i => args[i]?
  | .const v => some v

/-- `apply_fast_primop`: a leaf body runs on the arguments, without a frame. -/
def applyFastPrimop {C L : Type} (fp : FastPrimopBody) (args : List Value) (w : World C L) :
    Except VmError Value × World C L :=
  match fp.arg0.resolve args, fp.arg1.resolve args with
  | some a, some b =>
    match fp.op.apply B.fp a b with
    | .ok v => (.ok v, w.single)
    | .error v =>
      let c := B.condition fp.op (.notNumber v) w.heap
      (.error .raised, { w with heap := c.2 }.setRaise c.1)
  | _, _ => (.error (.message .badIndex), w)

/-- The result of a leaf body called by the loop. -/
def deliverFast (l : VmLoop) (tail : Bool) (r : Except VmError Value × VmWorld) : VmStep :=
  match r.1 with
  | .ok v =>
    match l.deliver tail v with
    | .inl l' => .next l' r.2
    | .inr res => .halt res r.2
  | .error e => .halt (.error e) r.2

/-- A closure body is entered: a tail call reuses the frame and keeps its marks, another call
pushes a frame. -/
def pushBody (lam : CompiledLambda) (bc : Bytecode) (tail : Bool) (f : Frame) (fs : List Frame)
    (st : List Value) (b : Env × VmWorld) : VmStep :=
  if tail then
    .next ⟨{ f with insts := lam.body, ip := 0, env := b.1, bc := bc } :: fs, st⟩ b.2
  else .next ⟨⟨lam.body, 0, b.1, bc, []⟩ :: f :: fs, st⟩ b.2

/-- A closure is called by the loop. -/
def VmLoop.enter (l : VmLoop) (tail : Bool) (c : VmClosure) (a : ℕ) (args : List Value)
    (w : VmWorld) : VmStep :=
  match c.bc.lambdas[c.lambdaIdx]?, l.frames with
  | some lam, f :: fs =>
    if lam.arityOk args.length then
      match lam.fast with
      | some fp => deliverFast l tail (applyFastPrimop B fp args w)
      | none =>
        pushBody lam c.bc tail f fs l.stack
          (bindArgs lam.params lam.rest lam.selfBind c.env (.procedure a) args w)
    else .halt (.error (.message .arityMismatch)) w
  | _, _ => .halt (.error (.message .badIndex)) w

/-- A closure is called by native code, in a loop of its own (`run_with_entry`). -/
def startClosure (c : VmClosure) (a : ℕ) (args : List Value) (w : VmWorld) : VmStep :=
  match c.bc.lambdas[c.lambdaIdx]? with
  | some lam =>
    if lam.arityOk args.length then
      match lam.fast with
      | some fp => .halt (applyFastPrimop B fp args w).1 (applyFastPrimop B fp args w).2
      | none =>
        let b := bindArgs lam.params lam.rest lam.selfBind c.env (.procedure a) args w
        .next ⟨[⟨lam.body, 0, b.1, c.bc, []⟩], []⟩ b.2
    else .halt (.error (.message .arityMismatch)) w
  | none => .halt (.error (.message .badIndex)) w

/-- **The virtual machine**, as an engine. -/
def vmEngine : Engine VmClosure VmLoop where
  step := dispatch B
  deliver := VmLoop.deliver
  resume l v := { l with stack := v :: l.stack }
  enter := VmLoop.enter B
  start := startClosure B

/-- **One step of the virtual machine.** -/
def vmNext (s : VmState) : Option VmState := (vmEngine B).next B s

/-- `run`: the machine about to run a unit in an environment. -/
def vmStart (bc : Bytecode) (env : Env) (w : VmWorld) : VmState :=
  ⟨.run ⟨[⟨bc.insts, 0, env, bc, []⟩], []⟩, [], w⟩

end Dispatch

end CrabScheme
