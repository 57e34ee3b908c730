import CrabScheme.Vm.Generators
import CrabScheme.Vm.PeepholeSound

/-!
# The peephole pass on compiled code

The code that `compileExpr` emits refers to constants of the pool it leaves behind, in the body
being compiled and in every lambda of the unit. With that the pass preserves the behaviour of
every body in which no branch lands inside a rewritten window. Such a branch is emitted when an
`if` whose alternative ends in a constant is the first operand of a folded operation, and when an
assignment is an alternative in a `begin`.

## Main results

* `compileExpr_valid` — compiled code refers to constants of its pool.
* `peephole_preserves` — the pass on compiled code.
* `folded_window_skipped` — what goes wrong otherwise.
-/

namespace CrabScheme

open Transition

/-- Every lambda of the unit refers to constants of the pool. -/
def Pool.Valid (p : Pool) : Prop := ∀ lam ∈ p.lambdas, lam.InPool p.consts.length = true

lemma Pool.valid_empty : (⟨[], []⟩ : Pool).Valid := fun _ h => (List.not_mem_nil h).elim

namespace Gen

/-- A generator that only grows the pool and refers to its constants. -/
def Valid (g : Gen) : Prop :=
  ∀ pos p, p.Valid → (g pos p).2.Valid ∧ p.consts.length ≤ (g pos p).2.consts.length ∧
    ∀ i ∈ (g pos p).1, i.InPool (g pos p).2.consts.length = true

lemma valid_emit {i : Inst} (hi : ∀ n, i.InPool n = true) : (emit i).Valid := by
  intro pos p hp
  refine ⟨hp, le_rfl, ?_⟩
  intro j hj
  rw [List.mem_singleton.mp hj]
  exact hi _

lemma valid_skip : skip.Valid := fun _ _ hp => ⟨hp, le_rfl, nofun⟩

lemma valid_const (v : Value) : (const v).Valid := by
  intro pos p hp
  have hlen : p.consts.length ≤ (p.consts ++ [v]).length := by simp
  refine ⟨fun lam hlam => CompiledLambda.inPool_mono hlen (hp lam hlam), hlen, ?_⟩
  intro i hi
  rw [List.mem_singleton.mp hi]
  simp [Inst.InPool, const]

lemma valid_andThen {g h : Gen} (hg : g.Valid) (hh : h.Valid) : (g.andThen h).Valid := by
  intro pos p hp
  obtain ⟨hp1, hle1, hin1⟩ := hg pos p hp
  obtain ⟨hp2, hle2, hin2⟩ := hh (pos + (g pos p).1.length) _ hp1
  refine ⟨hp2, hle1.trans hle2, ?_⟩
  intro i hi
  rcases List.mem_append.mp hi with hi | hi
  · exact Inst.inPool_mono hle2 (hin1 i hi)
  · exact hin2 i hi

lemma valid_branch {cond thn alt : Gen} {test : ℕ → Inst} (hcond : cond.Valid)
    (htest : ∀ t n, (test t).InPool n = true) (hthn : thn.Valid) (halt : alt.Valid) :
    (branch cond test thn alt).Valid := by
  intro pos p hp
  obtain ⟨hp1, hle1, hin1⟩ := hcond pos p hp
  obtain ⟨hp2, hle2, hin2⟩ := hthn (pos + (cond pos p).1.length + 1) _ hp1
  obtain ⟨hp3, hle3, hin3⟩ := halt (pos + (cond pos p).1.length + 1 +
    (thn (pos + (cond pos p).1.length + 1) (cond pos p).2).1.length + 1) _ hp2
  refine ⟨hp3, hle1.trans (hle2.trans hle3), ?_⟩
  intro i hi
  simp only [branch, List.mem_append, List.mem_cons] at hi
  rcases hi with (hi | hi | hi) | hi | hi
  · exact Inst.inPool_mono (hle2.trans hle3) (hin1 i hi)
  · rw [hi]
    exact htest _ _
  · exact Inst.inPool_mono hle3 (hin2 i hi)
  · rw [hi]
    rfl
  · exact hin3 i hi

end Gen

/-- A body and its last instruction, as they are handed to the pass. -/
def emitted (body : Gen) (p : Pool) : List Inst × Pool := body.andThen (.emit .ret) 0 p

lemma Gen.Valid.emitted {body : Gen} (h : body.Valid) {p : Pool} (hp : p.Valid) :
    (emitted body p).2.Valid ∧ p.consts.length ≤ (CrabScheme.emitted body p).2.consts.length ∧
      ∀ i ∈ (CrabScheme.emitted body p).1,
        i.InPool (CrabScheme.emitted body p).2.consts.length = true :=
  Gen.valid_andThen h (Gen.valid_emit fun _ => rfl) 0 p hp

section Compile

variable (o : CompileOpts)

lemma valid_finishLambda (params : Params) {body : Gen} (h : body.Valid) :
    ({ o with peephole := peephole }.finishLambda params body).Valid := by
  intro pos p hp
  obtain ⟨hp1, hle, hin⟩ := h.emitted hp
  obtain ⟨⟨more, hmore⟩, hin2⟩ := peephole_inPool hin
  have hle2 : (emitted body p).2.consts.length ≤
      (peephole (emitted body p).1 (emitted body p).2.consts).2.length := by simp [hmore]
  refine ⟨?_, hle.trans hle2, ?_⟩
  · intro lam hlam
    rcases List.mem_append.mp hlam with hlam | hlam
    · exact CompiledLambda.inPool_mono hle2 (hp1 lam hlam)
    · rw [List.mem_singleton.mp hlam]
      exact List.all_eq_true.mpr hin2
  · intro i hi
    rw [List.mem_singleton.mp hi]
    rfl

lemma valid_selfBound (x : Symbol) {g : Gen} (h : g.Valid) : (selfBound x g).Valid := by
  intro pos p hp
  obtain ⟨hp1, hle, hin⟩ := h pos p hp
  refine ⟨?_, hle, hin⟩
  intro lam hlam
  obtain ⟨n, hn⟩ := List.getElem?_of_mem hlam
  simp only [selfBound, List.getElem?_modify] at hn
  obtain ⟨lam0, hlam0, rfl⟩ := Option.map_eq_some_iff.mp hn
  have hin0 := hp1 lam0 (List.mem_of_getElem? hlam0)
  split
  · exact hin0
  · exact hin0

/-- **Compiled code refers to constants of its pool.** -/
theorem compileExpr_valid (e : CoreExpr) (scope : List Symbol) (tail : Bool) :
    (compileExpr { o with peephole := peephole } e scope tail).Valid := by
  have hfree : ∀ {i : Inst}, i.Free = true → ∀ n, i.InPool n = true := by
    intro i hi n
    cases i with
    | const idx => cases hi
    | _ => rfl
  have hclosed : Gen.Closed { o with peephole := peephole } Gen.Valid := {
    skip := Gen.valid_skip
    emit := fun hi => Gen.valid_emit (hfree hi)
    const := Gen.valid_const
    andThen := Gen.valid_andThen
    branch := fun htest hc ht ha => Gen.valid_branch hc (fun t n => hfree (htest t) n) ht ha
    lambda := fun ps hg => valid_finishLambda o ps hg
    selfBound := fun x ps hg => valid_selfBound x (valid_finishLambda o ps hg) }
  exact compileExpr_closed hclosed e scope tail

end Compile

/-! ## The pass on emitted code -/

/-- The code of an expression as it is handed to the pass, with the tables at that point. -/
def emittedCode (o : CompileOpts) (e : CoreExpr) (scope : List Symbol) (tail : Bool) (p : Pool) :
    List Inst × Pool :=
  emitted (compileExpr { o with peephole := peephole } e scope tail) p

/-- The machine about to run code that did not go through the pass. -/
def Setting.before (S : Setting) (c : List Inst × Pool) : VmState :=
  S.start c.1 c.2.lambdas c.2.consts

/-- The machine about to run what the pass makes of the code. -/
def Setting.after (S : Setting) (c : List Inst × Pool) : VmState :=
  S.start (peephole c.1 c.2.consts).1 c.2.lambdas (peephole c.1 c.2.consts).2

/-- **The peephole pass preserves the behaviour of compiled code** in which no branch lands
inside a rewritten window: for every expression, compiled in any scope and with any tables of the
unit so far, and wherever the code is started. -/
theorem peephole_preserves (B : Builtins) (o : CompileOpts) (e : CoreExpr) (scope : List Symbol)
    (tail : Bool) (p : Pool) (hp : p.Valid) (S : Setting)
    (h : jumpInside (emittedCode o e scope tail p).2.consts (emittedCode o e scope tail p).1 =
      false) :
    Indistinguishable B (S.after (emittedCode o e scope tail p))
      (S.before (emittedCode o e scope tail p)) := by
  obtain ⟨hp', _, hin⟩ := (compileExpr_valid o e scope tail).emitted hp
  exact peephole_indistinguishable B S hin hp' h

section Programs

private def plusName : Symbol := ⟨0⟩
private def condName : Symbol := ⟨1⟩

/-- Compiled with the primop `+`. -/
def plusOpts : CompileOpts :=
  .runtime (fun x => if x = plusName then some .add else none) [⟨0, false⟩]
    (World.blank : VmWorld)

/-- The top level, in an environment where `c` is true. -/
def atTop : Setting where
  env := [⟨0, false⟩]
  marks := []
  frames := []
  stack := []
  ctxs := []
  world := { (World.blank : VmWorld) with
    layers := Layers.Store.empty.alloc.define 0 condName (.boolean true) }

/-- `(if c (+ 1 2) 3)` -/
def sumInBranch : CoreExpr :=
  .ite (.ref condName) (.app (.ref plusName) [.const (.ofNat 1), .const (.ofNat 2)])
    (.const (.ofNat 3))

/-- `(+ (if c 1 2) 3)` -/
def branchInSum : CoreExpr :=
  .app (.ref plusName)
    [.ite (.ref condName) (.const (.ofNat 1)) (.const (.ofNat 2)), .const (.ofNat 3)]

private lemma jumpInside_sumInBranch :
    jumpInside (emittedCode plusOpts sumInBranch [] true ⟨[], []⟩).2.consts
      (emittedCode plusOpts sumInBranch [] true ⟨[], []⟩).1 = false := by decide

theorem peephole_preserves_sum :
    jumpInside (emittedCode plusOpts sumInBranch [] true ⟨[], []⟩).2.consts
        (emittedCode plusOpts sumInBranch [] true ⟨[], []⟩).1 = false ∧
      Indistinguishable .bare (atTop.after (emittedCode plusOpts sumInBranch [] true ⟨[], []⟩))
        (atTop.before (emittedCode plusOpts sumInBranch [] true ⟨[], []⟩)) :=
  ⟨jumpInside_sumInBranch, peephole_preserves .bare plusOpts sumInBranch [] true ⟨[], []⟩
    Pool.valid_empty atTop jumpInside_sumInBranch⟩

/-- **A branch that skips an addition.** The alternative of the `if` and the second operand are
folded to one constant, and the jump at the end of the first alternative then skips the addition:
the unit returns `1`, where the code before the pass returns `4`. -/
theorem folded_window_skipped :
    (runFor (vmNext .bare) 9
        (atTop.after (emittedCode plusOpts branchInSum [] true ⟨[], []⟩))).outcome =
        some (.ok (.ofNat 1)) ∧
      (runFor (vmNext .bare) 9
        (atTop.before (emittedCode plusOpts branchInSum [] true ⟨[], []⟩))).outcome =
        some (.ok (.ofNat 4)) :=
  ⟨rfl, rfl⟩

end Programs

end CrabScheme
