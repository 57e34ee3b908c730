import CrabScheme.Core.Expr
import CrabScheme.Vm.Peephole

/-!
# The bytecode compiler

`compile_expr` of `cs-vm`. The Rust function appends to one instruction buffer and grows the
tables of lambdas and constants as it goes; here each case is a *code generator*, a function of
the position its code starts at and of the tables, and the cases of the compiler combine
generators. The passes that the compiler can do without are switches of `CompileOpts`, so that a
unit compiled with a pass can be compared with the same unit compiled without it.
-/

namespace CrabScheme

/-! ## Analyses -/

mutual

/-- `collect_assigned_names`: every target of a `set!`. -/
def collectAssignedNames : CoreExpr → List Symbol
  | .const _ => []
  | .ref _ => []
  | .set x e => x :: collectAssignedNames e
  | .lambda _ b => collectAssignedNames b
  | .app f args => collectAssignedNames f ++ collectAssignedList args
  | .ite c t a => collectAssignedNames c ++ collectAssignedNames t ++ collectAssignedNames a
  | .begin es => collectAssignedList es
  | .letrec bs b => collectAssignedBindings bs ++ collectAssignedNames b
  | .withMark k v b => collectAssignedNames k ++ collectAssignedNames v ++ collectAssignedNames b

/-- The assigned names of a list of expressions. -/
def collectAssignedList : List CoreExpr → List Symbol
  | [] => []
  | e :: es => collectAssignedNames e ++ collectAssignedList es

/-- The assigned names of a list of initialisers. -/
def collectAssignedBindings : List (Symbol × CoreExpr) → List Symbol
  | [] => []
  | (_, e) :: bs => collectAssignedNames e ++ collectAssignedBindings bs

end

mutual

/-- `collect_ref_names`: every name referenced or assigned, shadowed or not. -/
def collectRefNames : CoreExpr → List Symbol
  | .const _ => []
  | .ref x => [x]
  | .set x e => x :: collectRefNames e
  | .lambda _ b => collectRefNames b
  | .app f args => collectRefNames f ++ collectRefList args
  | .ite c t a => collectRefNames c ++ collectRefNames t ++ collectRefNames a
  | .begin es => collectRefList es
  | .letrec bs b => collectRefBindings bs ++ collectRefNames b
  | .withMark k v b => collectRefNames k ++ collectRefNames v ++ collectRefNames b

/-- The names of a list of expressions. -/
def collectRefList : List CoreExpr → List Symbol
  | [] => []
  | e :: es => collectRefNames e ++ collectRefList es

/-- The names of a list of initialisers. -/
def collectRefBindings : List (Symbol × CoreExpr) → List Symbol
  | [] => []
  | (_, e) :: bs => collectRefNames e ++ collectRefBindings bs

end

/-- The index a name stands for; of several bindings of one name the last one counts. -/
def indexOf (names : List Symbol) (x : Symbol) : Option ℕ :=
  ((List.range names.length).filter fun i => names[i]? == some x).getLast?

/-- The sibling bindings that each binding refers to, itself apart. -/
def siblingDeps (bindings : List (Symbol × CoreExpr)) : List (List ℕ) :=
  let names := bindings.map Prod.fst
  bindings.zipIdx.map fun b =>
    ((collectRefNames b.1.2).filterMap (indexOf names)).filter (· ≠ b.2)

/-- Kahn's algorithm: the first unplaced binding whose dependencies have all been placed comes
next. -/
def topoLoop (deps : List (List ℕ)) : ℕ → List ℕ → Option (List ℕ)
  | 0, placed => some placed
  | n + 1, placed =>
    match (List.range deps.length).find? fun i =>
      !placed.contains i && (deps.getD i []).all placed.contains with
    | some i => topoLoop deps n (placed ++ [i])
    | none => none

/-- `letrec_topo_order`. -/
def letrecTopoOrder (bindings : List (Symbol × CoreExpr)) : Option (List ℕ) :=
  topoLoop (siblingDeps bindings) bindings.length []

/-- The order in which a `letrec` builds its closures one scope at a time: all initialisers are
lambdas, no bound name is assigned, and siblings do not refer to each other in a circle. -/
def letrecOrder (bindings : List (Symbol × CoreExpr)) (body : CoreExpr) : Option (List ℕ) :=
  let assigned := collectAssignedBindings bindings ++ collectAssignedNames body
  if bindings.all (fun b => b.2.isLambda) && bindings.all (fun b => !assigned.contains b.1) then
    letrecTopoOrder bindings
  else none

/-! ## Code generators -/

/-- The tables a unit grows while it is compiled. -/
structure Pool where
  lambdas : List CompiledLambda
  consts : List Value

/-- **Code generators**: from the position of the first instruction and the tables so far to
the code and the tables after it. -/
abbrev Gen := ℕ → Pool → List Inst × Pool

namespace Gen

/-- One instruction. -/
def emit (i : Inst) : Gen := fun _ p => ([i], p)

/-- No code. -/
def skip : Gen := fun _ p => ([], p)

/-- One generator after another. -/
def andThen (g h : Gen) : Gen := fun pos p =>
  let a := g pos p
  let b := h (pos + a.1.length) a.2
  (a.1 ++ b.1, b.2)

/-- `intern_const` and the instruction that pushes the constant. -/
def const (v : Value) : Gen := fun _ p =>
  ([.const p.consts.length], { p with consts := p.consts ++ [v] })

/-- A two-way branch: after the code of the condition, `test` goes to the alternative. -/
def branch (cond : Gen) (test : ℕ → Inst) (thn alt : Gen) : Gen := fun pos p =>
  let c := cond pos p
  let t := thn (pos + c.1.length + 1) c.2
  let altStart := pos + c.1.length + 1 + t.1.length + 1
  let a := alt altStart t.2
  (c.1 ++ test altStart :: t.1 ++ .jump (altStart + a.1.length) :: a.1, a.2)

/-- Several generators in order. -/
def all : List Gen → Gen
  | [] => skip
  | g :: gs => g.andThen (all gs)

end Gen

/-- `detect_fast_primop`: one operand of a leaf body; the index of a parameter is kept in eight
bits. -/
def fastArg (params : List Symbol) (consts : List Value) : Inst → Option FastArg
  | .loadVar x => (params.idxOf? x).map fun i => .param (i % 256)
  | .const idx => consts[idx]?.map .const
  | _ => none

/-- `detect_fast_primop`. -/
def detectFastPrimop (body : List Inst) (params : List Symbol) (consts : List Value) :
    Option FastPrimopBody :=
  match body with
  | [i, j, .fx2 op, .ret] =>
    match fastArg params consts i, fastArg params consts j with
    | some a, some b => some ⟨op, a, b⟩
    | _, _ => none
  | _ => none

/-- **Compiler switches**: the passes that can be left out, and the maps a unit is compiled
with. -/
structure CompileOpts where
  inlineLet : Bool
  orderLetrec : Bool
  globals : Symbol → Option Value
  primops : Symbol → Option Fx2
  peephole : List Inst → List Value → List Inst × List Value

namespace CompileOpts

variable (o : CompileOpts)

/-- The constant a global reference is folded to: a procedure that is not locally bound. -/
def folded (scope : List Symbol) (x : Symbol) : Option Value :=
  if scope.contains x then none
  else
    match o.globals x with
    | some (.procedure a) => some (.procedure a)
    | _ => none

/-- The operation an unshadowed primop name stands for. -/
def primop (scope : List Symbol) : CoreExpr → Option Fx2
  | .ref x => if scope.contains x then none else o.primops x
  | _ => none

/-- The operation that a call with `n` arguments is specialised to: any operation on two
arguments, and a chain of additions, subtractions or multiplications on more. -/
def specialised (scope : List Symbol) (func : CoreExpr) (n : ℕ) : Option Fx2 :=
  match o.primop scope func with
  | none => none
  | some op =>
    if n = 2 then some op
    else if 3 ≤ n then
      match op with
      | .add => some .add
      | .sub => some .sub
      | .mul => some .mul
      | _ => none
    else none

/-- The variable of a single-binding `let`, when lets are inlined. -/
def inlined (func : CoreExpr) (n : ℕ) : Option Symbol :=
  match func with
  | .lambda ⟨[x], none⟩ _ => if o.inlineLet && n == 1 then some x else none
  | _ => none

/-- `match_primop_2arg` and `branch_on_not`: the instruction a condition is fused with. -/
def fused (scope : List Symbol) : CoreExpr → Option BranchOp
  | .app func [_, _] =>
    match o.primop scope func with
    | some .lt => some .ge
    | some .le => some .gt
    | some .gt => some .le
    | some .ge => some .lt
    | some .eq => some .ne
    | _ => none
  | _ => none

/-- The order in which a `letrec` is taken apart, when it is. -/
def ordered (bindings : List (Symbol × CoreExpr)) (body : CoreExpr) : Option (List ℕ) :=
  if o.orderLetrec then letrecOrder bindings body else none

/-- A compiled body becomes a lambda of the unit, and its closure is made. -/
def finishLambda (params : Params) (body : Gen) : Gen := fun _ p =>
  let c := body.andThen (.emit .ret) 0 p
  let b := o.peephole c.1 c.2.consts
  let fast := detectFastPrimop b.1 params.fixed b.2
  ([.makeClosure c.2.lambdas.length],
    ⟨c.2.lambdas ++ [⟨params.fixed, params.rest, b.1, fast, none⟩], b.2⟩)

/-- **The switches of the runtime** (`compile_program_via_vm`): the globals are a snapshot of the
environment the unit will run in. -/
def runtime {C L : Type} (primops : Symbol → Option Fx2) (env : Env) (w : World C L) :
    CompileOpts where
  inlineLet := true
  orderLetrec := true
  globals := w.layers.get env
  primops := primops
  peephole := CrabScheme.peephole

end CompileOpts

/-- The lambda compiled last gets a name that its calls bind to the closure. -/
def selfBound (x : Symbol) (g : Gen) : Gen := fun pos p =>
  let a := g pos p
  (a.1, { a.2 with lambdas := a.2.lambdas.modify (a.2.lambdas.length - 1) fun l =>
      { l with selfBind := some x } })

/-- The closures of a `letrec`, built in the given order, each before the scope that binds
it. -/
def genOrdered (names : List Symbol) (gens : List Gen) : List ℕ → Gen
  | [] => .skip
  | i :: order =>
    match names[i]?, gens[i]? with
    | some x, some g =>
      ((selfBound x g).andThen ((Gen.emit .enterScope).andThen (.emit (.defineLocal x)))).andThen
        (genOrdered names gens order)
    | _, _ => genOrdered names gens order

/-- The bindings of a `letrec` scope, before its initialisers run. -/
def genPredefine : List Symbol → Gen
  | [] => .skip
  | x :: xs => ((Gen.const .unspecified).andThen (.emit (.defineLocal x))).andThen (genPredefine xs)

section Compile

variable (o : CompileOpts)

mutual

/-- **`compile_expr`.** `scope` lists the locally bound names and `tail` says whether the
expression is in tail position. -/
def compileExpr : CoreExpr → List Symbol → Bool → Gen
  | .const v, _, _ => .const v
  | .ref x, scope, _ =>
    match o.folded scope x with
    | some v => .const v
    | none => .emit (.loadVar x)
  | .set x e, scope, _ =>
    (compileExpr e scope false).andThen ((Gen.emit (.setVar x)).andThen (.const .unspecified))
  | .ite c t a, scope, tail =>
    match o.fused scope c with
    | some b =>
      .branch (compileOperands c scope) (.branchOn b) (compileExpr t scope tail)
        (compileExpr a scope tail)
    | none =>
      .branch (compileExpr c scope false) .jumpIfFalse (compileExpr t scope tail)
        (compileExpr a scope tail)
  | .begin es, scope, tail => compileSeq es scope tail
  | .withMark k v b, scope, tail =>
    (compileExpr k scope false).andThen ((compileExpr v scope false).andThen
      ((Gen.emit .pushMark).andThen (compileExpr b scope tail)))
  | .app f args, scope, tail =>
    match o.specialised scope f args.length with
    | some op => compileFold op args scope
    | none =>
      match o.inlined f args.length with
      | some x =>
        (Gen.emit .enterScope).andThen ((compileArgs args (x :: scope)).andThen
          ((Gen.emit (.defineLocal x)).andThen ((compileBody f (x :: scope) tail).andThen
            (.emit .leaveScope))))
      | none =>
        (compileExpr f scope false).andThen ((compileArgs args scope).andThen
          (.emit (if tail then .tailCall args.length else .call args.length)))
  | .lambda ps b, scope, _ => o.finishLambda ps (compileExpr b (ps.names ++ scope) true)
  | .letrec bs b, scope, tail =>
    let names := bs.map Prod.fst
    match o.ordered bs b with
    | some order =>
      (genOrdered names (compileEach bs (names ++ scope)) order).andThen
        ((compileExpr b (names ++ scope) tail).andThen
          (.all (List.replicate order.length (.emit .leaveScope))))
    | none =>
      (Gen.emit .enterScope).andThen ((genPredefine names).andThen
        ((compileInits bs (names ++ scope)).andThen
          ((compileExpr b (names ++ scope) tail).andThen (.emit .leaveScope))))

/-- The operands of a fused condition. -/
def compileOperands : CoreExpr → List Symbol → Gen
  | .app _ args, scope => compileArgs args scope
  | _, _ => .skip

/-- The body of an inlined `let`. -/
def compileBody : CoreExpr → List Symbol → Bool → Gen
  | .lambda _ b, scope, tail => compileExpr b scope tail
  | _, _, _ => .skip

/-- Arguments, left to right. -/
def compileArgs : List CoreExpr → List Symbol → Gen
  | [], _ => .skip
  | e :: es, scope => (compileExpr e scope false).andThen (compileArgs es scope)

/-- A specialised call: the first argument, then the operation after each further one. -/
def compileFold (op : Fx2) : List CoreExpr → List Symbol → Gen
  | [], _ => .skip
  | e :: es, scope => (compileExpr e scope false).andThen (compileFoldRest op es scope)

/-- The further arguments of a specialised call. -/
def compileFoldRest (op : Fx2) : List CoreExpr → List Symbol → Gen
  | [], _ => .skip
  | e :: es, scope =>
    (compileExpr e scope false).andThen ((Gen.emit (.fx2 op)).andThen
      (compileFoldRest op es scope))

/-- The expressions of a `begin`; all but the last are popped. -/
def compileSeq : List CoreExpr → List Symbol → Bool → Gen
  | [], _, _ => .const .unspecified
  | [e], scope, tail => compileExpr e scope tail
  | e :: es, scope, tail =>
    (compileExpr e scope false).andThen ((Gen.emit .pop).andThen (compileSeq es scope tail))

/-- The initialisers of a `letrec`, each stored as it is computed. -/
def compileInits : List (Symbol × CoreExpr) → List Symbol → Gen
  | [], _ => .skip
  | (x, e) :: bs, scope =>
    (compileExpr e scope false).andThen ((Gen.emit (.defineLocal x)).andThen
      (compileInits bs scope))

/-- A generator for each initialiser. -/
def compileEach : List (Symbol × CoreExpr) → List Symbol → List Gen
  | [], _ => []
  | (_, e) :: bs, scope => compileExpr e scope false :: compileEach bs scope

end

/-- **`compile_with_globals_and_primops`**: the names the unit assigns count as locally bound. -/
def compileUnit (e : CoreExpr) : Bytecode :=
  let c := (compileExpr o e (collectAssignedNames e) true).andThen (.emit .ret) 0 ⟨[], []⟩
  let b := o.peephole c.1 c.2.consts
  ⟨b.1, c.2.lambdas, b.2⟩

end Compile

end CrabScheme
