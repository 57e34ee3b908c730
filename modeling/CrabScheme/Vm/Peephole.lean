import CrabScheme.Vm.Bytecode

/-!
# The peephole pass

`peephole` runs once on every compiled body. Its first two parts mark instructions of the body
as kept, replaced or deleted, and then compact the body and remap its branch targets; the third
part redirects branches that land on a jump. The marks are the pair `deleted`/`replace` of the
Rust code in one list: `none` is a deleted instruction.
-/

namespace CrabScheme

/-- The target of a jump or branch. -/
def Inst.branchTarget : Inst → Option ℕ
  | .jump t => some t
  | .jumpIfFalse t => some t
  | .branchOn _ t => some t
  | _ => none

/-- A jump or branch with its target changed. -/
def Inst.mapTarget (f : ℕ → ℕ) : Inst → Inst
  | .jump t => .jump (f t)
  | .jumpIfFalse t => .jumpIfFalse (f t)
  | .branchOn b t => .branchOn b (f t)
  | i => i

/-- `old_to_new`: a target moves to the next surviving instruction. -/
def oldToNew (marks : List (Option Inst)) (t : ℕ) : ℕ :=
  (marks.take t).countP Option.isSome

/-- `compact` and `remap_targets`; a body with nothing deleted is left alone. -/
def compact (marks : List (Option Inst)) : List Inst :=
  if marks.all Option.isSome then marks.reduceOption
  else marks.reduceOption.map (Inst.mapTarget (oldToNew marks))

/-- `as_fixnum_const`. -/
def asFixnumConst (consts : List Value) : Inst → Option I64
  | .const idx =>
    match consts[idx]? with
    | some (.fixnum n) => some n
    | _ => none
  | _ => none

/-- `fold_fixnum_op`, on the operands of a window of three instructions. -/
def foldWindow (consts : List Value) (i j k : Inst) : Option Value :=
  match k, asFixnumConst consts i, asFixnumConst consts j with
  | .fx2 op, some a, some b => op.fixnum a b
  | _, _, _ => none

/-- The scan of `peephole_fold_consts`: the marks, and the pool with the folded constants. -/
def foldMarks : List Inst → List Value → List (Option Inst) × List Value
  | i :: j :: k :: rest, consts =>
    match foldWindow consts i j k with
    | some v =>
      let r := foldMarks rest (consts ++ [v])
      (some (.const consts.length) :: none :: none :: r.1, r.2)
    | none =>
      let r := foldMarks (j :: k :: rest) consts
      (some i :: r.1, r.2)
  | insts, consts => (insts.map some, consts)

/-- `peephole_fold_consts`. -/
def foldConsts (insts : List Inst) (consts : List Value) : List Inst × List Value :=
  (compact (foldMarks insts consts).1, (foldMarks insts consts).2)

/-- `SetVar`, the unspecified constant and `Pop`, in a row. -/
def deadSetWindow (consts : List Value) (i j k : Inst) : Bool :=
  match i, j, k with
  | .setVar _, .const idx, .pop => consts[idx]? == some .unspecified
  | _, _, _ => false

/-- The scan of `peephole_cancel_dead_set`. -/
def deadSetMarks (consts : List Value) : List Inst → List (Option Inst)
  | i :: j :: k :: rest =>
    if deadSetWindow consts i j k then some i :: none :: none :: deadSetMarks consts rest
    else some i :: deadSetMarks consts (j :: k :: rest)
  | insts => insts.map some

/-- `peephole_cancel_dead_set`. -/
def cancelDeadSet (insts : List Inst) (consts : List Value) : List Inst :=
  compact (deadSetMarks consts insts)

/-- The inner loop of `peephole_thread_jumps`: follow jumps to jumps. -/
def chaseJumps (insts : List Inst) : ℕ → ℕ → ℕ
  | 0, t => t
  | hops + 1, t =>
    match insts[t]? with
    | some (.jump t') => if t' = t then t else chaseJumps insts hops t'
    | _ => t

/-- The redirection of one instruction, in place. -/
def threadAt (insts : List Inst) (i : ℕ) : List Inst :=
  insts.modify i (Inst.mapTarget (chaseJumps insts (insts.length + 1)))

/-- `peephole_thread_jumps`. -/
def threadJumps (insts : List Inst) : List Inst :=
  (List.range insts.length).foldl threadAt insts

/-- **`peephole`.** -/
def peephole (insts : List Inst) (consts : List Value) : List Inst × List Value :=
  let f := foldConsts insts consts
  (threadJumps (cancelDeadSet f.1 f.2), f.2)

end CrabScheme
