import CrabScheme.Machine.Simulation
import CrabScheme.Vm.Bytecode

/-!
# Runs of the dispatch loop

Iterations of `run_dispatch` and chains of jumps, as runs of the virtual machine under any
contexts.

## Main results

* `runs_of_hops` — a chain of jumps is a run.
-/

namespace CrabScheme

/-- Positions that a chain of jumps leads to. -/
inductive Hops (insts : List Inst) : ℕ → ℕ → Prop
  | refl (t : ℕ) : Hops insts t t
  | jump {t t' t'' : ℕ} : insts[t]? = some (.jump t') → Hops insts t' t'' → Hops insts t t''

lemma Hops.trans {insts : List Inst} {t t' t'' : ℕ} (h : Hops insts t t')
    (h' : Hops insts t' t'') : Hops insts t t'' := by
  induction h with
  | refl => exact h'
  | jump hj _ ih => exact .jump hj (ih h')

lemma runs_of_dispatch {B : Builtins} {l l2 : VmLoop} {w w2 : VmWorld}
    (h : dispatch B l w = .next l2 w2) : (vmEngine B).Runs B l w l2 w2 :=
  Engine.runs_of_step (E := vmEngine B) h

lemma runs_of_hops {B : Builtins} {insts : List Inst} {t t' : ℕ} (h : Hops insts t t') (env : Env)
    (bc : Bytecode) (marks : List (Value × Value)) (fs : List Frame) (st : List Value)
    (w : VmWorld) :
    (vmEngine B).Runs B ⟨⟨insts, t, env, bc, marks⟩ :: fs, st⟩ w
      ⟨⟨insts, t', env, bc, marks⟩ :: fs, st⟩ w := by
  induction h with
  | refl t => exact .refl _ _
  | jump hj _ ih =>
    refine Engine.Runs.trans (Engine.runs_of_step ?_) ih
    simp only [vmEngine, dispatch, hj, exec]

end CrabScheme
