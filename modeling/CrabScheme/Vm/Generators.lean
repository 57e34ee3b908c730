import CrabScheme.Vm.Compiler

/-!
# Properties of code generators

A property of generators that the combinators of the compiler preserve holds of the code of every
expression.

## Main results

* `compileExpr_closed` — the induction rule of the compiler.
-/

namespace CrabScheme

/-! ## Induction -/

/-- Instructions that refer to neither table of the unit. -/
def Inst.Free : Inst → Bool
  | .const _ => false
  | .makeClosure _ => false
  | _ => true

/-- **Properties that the combinators of the compiler preserve.** -/
structure Gen.Closed (o : CompileOpts) (Φ : Gen → Prop) : Prop where
  skip : Φ .skip
  emit : ∀ {i}, i.Free = true → Φ (.emit i)
  const : ∀ v, Φ (.const v)
  andThen : ∀ {g h}, Φ g → Φ h → Φ (g.andThen h)
  branch : ∀ {c t a} {test : ℕ → Inst}, (∀ n, (test n).Free = true) → Φ c → Φ t → Φ a →
    Φ (.branch c test t a)
  lambda : ∀ {g} (ps : Params), Φ g → Φ (o.finishLambda ps g)
  selfBound : ∀ {g} (x : Symbol) (ps : Params), Φ g → Φ (selfBound x (o.finishLambda ps g))

section Compile

variable {o : CompileOpts} {Φ : Gen → Prop}

lemma Gen.Closed.all (hΦ : Gen.Closed o Φ) {gs : List Gen} (h : ∀ g ∈ gs, Φ g) : Φ (.all gs) := by
  induction gs with
  | nil => exact hΦ.skip
  | cons g gs ih =>
    exact hΦ.andThen (h g List.mem_cons_self) (ih fun g' hg' => h g' (List.mem_cons_of_mem _ hg'))

lemma Gen.Closed.predefine (hΦ : Gen.Closed o Φ) (names : List Symbol) : Φ (genPredefine names) := by
  induction names with
  | nil => exact hΦ.skip
  | cons x names ih => exact hΦ.andThen (hΦ.andThen (hΦ.const _) (hΦ.emit rfl)) ih

lemma isLambda_of_ordered {bs : List (Symbol × CoreExpr)} {b : CoreExpr} {order : List ℕ}
    (h : o.ordered bs b = some order) : ∀ p ∈ bs, p.2.isLambda = true := by
  unfold CompileOpts.ordered letrecOrder at h
  split at h
  · dsimp only at h
    split at h
    · rename_i hall
      exact List.all_eq_true.mp (Bool.and_eq_true_iff.mp hall).1
    · cases h
  · cases h

lemma Gen.Closed.ordered (hΦ : Gen.Closed o Φ) (names : List Symbol) {gens : List Gen}
    (h : ∀ g ∈ gens, ∀ x, Φ (CrabScheme.selfBound x g)) (order : List ℕ) :
    Φ (genOrdered names gens order) := by
  induction order with
  | nil => exact hΦ.skip
  | cons i order ih =>
    rw [genOrdered]
    split
    · rename_i x g _ hg
      exact hΦ.andThen (hΦ.andThen (h g (List.mem_of_getElem? hg) x)
        (hΦ.andThen (hΦ.emit rfl) (hΦ.emit rfl))) ih
    · exact ih

variable (hΦ : Gen.Closed o Φ)

include hΦ

mutual

/-- **The induction rule of the compiler.** -/
theorem compileExpr_closed (e : CoreExpr) (scope : List Symbol)
    (tail : Bool) : Φ (compileExpr o e scope tail) := by
  cases e with
  | const v => exact hΦ.const v
  | ref x =>
    rw [compileExpr]
    split
    · exact hΦ.const _
    · exact hΦ.emit rfl
  | set x e =>
    rw [compileExpr]
    exact hΦ.andThen (compileExpr_closed e scope false) (hΦ.andThen (hΦ.emit rfl) (hΦ.const _))
  | ite c t a =>
    rw [compileExpr]
    split
    · exact hΦ.branch (fun _ => rfl) (compileOperands_closed c scope)
        (compileExpr_closed t scope tail) (compileExpr_closed a scope tail)
    · exact hΦ.branch (fun _ => rfl) (compileExpr_closed c scope false)
        (compileExpr_closed t scope tail) (compileExpr_closed a scope tail)
  | begin es =>
    rw [compileExpr]
    exact compileSeq_closed es scope tail
  | withMark k v b =>
    rw [compileExpr]
    exact hΦ.andThen (compileExpr_closed k scope false)
      (hΦ.andThen (compileExpr_closed v scope false)
        (hΦ.andThen (hΦ.emit rfl) (compileExpr_closed b scope tail)))
  | app f args =>
    rw [compileExpr]
    split
    · exact compileFold_closed _ args scope
    · split
      · rename_i x _
        exact hΦ.andThen (hΦ.emit rfl) (hΦ.andThen (compileArgs_closed args (x :: scope))
          (hΦ.andThen (hΦ.emit rfl) (hΦ.andThen (compileBody_closed f (x :: scope) tail)
            (hΦ.emit rfl))))
      · refine hΦ.andThen (compileExpr_closed f scope false)
          (hΦ.andThen (compileArgs_closed args scope) (hΦ.emit ?_))
        cases tail <;> rfl
  | lambda ps b =>
    rw [compileExpr]
    exact hΦ.lambda ps (compileExpr_closed b (ps.names ++ scope) true)
  | letrec bs b =>
    rw [compileExpr]
    split
    · rename_i order horder
      refine hΦ.andThen (hΦ.ordered _ (compileEach_closed bs _ (isLambda_of_ordered horder)) _)
        (hΦ.andThen (compileExpr_closed b _ tail) (hΦ.all ?_))
      intro g hg
      rw [List.eq_of_mem_replicate hg]
      exact hΦ.emit rfl
    · exact hΦ.andThen (hΦ.emit rfl) (hΦ.andThen (hΦ.predefine _)
        (hΦ.andThen (compileInits_closed bs _)
          (hΦ.andThen (compileExpr_closed b _ tail) (hΦ.emit rfl))))

theorem compileOperands_closed (c : CoreExpr) (scope : List Symbol) :
    Φ (compileOperands o c scope) := by
  cases c with
  | app f args =>
    exact compileArgs_closed args scope
  | _ => exact hΦ.skip

theorem compileBody_closed (f : CoreExpr) (scope : List Symbol)
    (tail : Bool) : Φ (compileBody o f scope tail) := by
  cases f with
  | lambda ps b =>
    exact compileExpr_closed b scope tail
  | _ => exact hΦ.skip

theorem compileArgs_closed (args : List CoreExpr) (scope : List Symbol) :
    Φ (compileArgs o args scope) := by
  cases args with
  | nil => exact hΦ.skip
  | cons e es =>
    exact hΦ.andThen (compileExpr_closed e scope false) (compileArgs_closed es scope)

theorem compileFold_closed (op : Fx2) (args : List CoreExpr)
    (scope : List Symbol) : Φ (compileFold o op args scope) := by
  cases args with
  | nil => exact hΦ.skip
  | cons e es =>
    exact hΦ.andThen (compileExpr_closed e scope false) (compileFoldRest_closed op es scope)

theorem compileFoldRest_closed (op : Fx2) (args : List CoreExpr)
    (scope : List Symbol) : Φ (compileFoldRest o op args scope) := by
  cases args with
  | nil => exact hΦ.skip
  | cons e es =>
    exact hΦ.andThen (compileExpr_closed e scope false)
      (hΦ.andThen (hΦ.emit rfl) (compileFoldRest_closed op es scope))

theorem compileSeq_closed (es : List CoreExpr) (scope : List Symbol)
    (tail : Bool) : Φ (compileSeq o es scope tail) := by
  match es with
  | [] => exact hΦ.const _
  | [e] =>
    rw [compileSeq]
    exact compileExpr_closed e scope tail
  | e :: e' :: es =>
    rw [compileSeq]
    · exact hΦ.andThen (compileExpr_closed e scope false)
        (hΦ.andThen (hΦ.emit rfl) (compileSeq_closed (e' :: es) scope tail))
    · nofun

theorem compileInits_closed (bs : List (Symbol × CoreExpr))
    (scope : List Symbol) : Φ (compileInits o bs scope) := by
  match bs with
  | [] => exact hΦ.skip
  | (x, e) :: bs =>
    exact hΦ.andThen (compileExpr_closed e scope false)
      (hΦ.andThen (hΦ.emit rfl) (compileInits_closed bs scope))

theorem compileEach_closed (bs : List (Symbol × CoreExpr))
    (scope : List Symbol) (hlam : ∀ p ∈ bs, p.2.isLambda = true) :
    ∀ g ∈ compileEach o bs scope, ∀ x, Φ (selfBound x g) := by
  match bs with
  | [] => exact nofun
  | (y, e) :: bs =>
    intro g hg x
    rcases List.mem_cons.mp hg with rfl | hg
    · have hy := hlam (y, e) List.mem_cons_self
      cases e with
      | lambda ps b =>
        exact hΦ.selfBound x ps (compileExpr_closed b (ps.names ++ scope) true)
      | _ => cases hy
    · exact compileEach_closed bs scope (fun p hp => hlam p (List.mem_cons_of_mem _ hp)) g hg x

end

end Compile

end CrabScheme
