import CrabScheme.Core.Number

/-!
# Exact arithmetic

The rest of the numeric tower's arithmetic: division, absolute value and the four integer
divisions. An exact number is *canonical* when it is the smallest representation of its value:
a fixnum if the integer fits a machine word, a rational only if it is not an integer. Every
operation computes the exact value in its canonical representation, with one exception: `neg` leaves
a big integer a big integer, and `2 ^ 63` is one whose negation fits a machine word.

## Main results

* `CanonicalNumber.eq_simplifyRational` — a canonical number is determined by its value.
* `ExactOp.correct_iff` — every operation is exact and canonical, except the negation
  of `2 ^ 63`.
-/

namespace CrabScheme

/-- The operations of `f64` that division and the integer conversions use, next to those of
`FlonumOps`. -/
structure DivisionOps extends FlonumOps where
  div : F64 → F64 → F64
  abs : F64 → F64
  isFinite : F64 → Bool
  /-- `f.fract() == 0.0` -/
  isWhole : F64 → Bool
  /-- `f as i64`, which saturates. -/
  asI64 : F64 → I64

/-- `NumError`. -/
inductive NumError
  | divisionByZero
deriving DecidableEq

namespace Number

variable (fp : DivisionOps)

/-- `is_exact`. -/
def isExact : Number → Bool
  | .flonum _ => false
  | _ => true

/-- `is_zero`. -/
def isZero : Number → Bool
  | .fixnum n => n.val == 0
  | .big n => n == 0
  | .rat q => q == 0
  | .flonum f => fp.eq f ⟨0⟩

/-- `Number::div`: only an exact division by an exact zero is an error. -/
def div (a b : Number) : Except NumError Number :=
  if b.isZero fp then
    if !a.isExact || !b.isExact then
      .ok (.flonum (fp.div (a.toF64 fp.toFlonumOps) (b.toF64 fp.toFlonumOps)))
    else .error .divisionByZero
  else
    match a.toRational, b.toRational with
    | some p, some q => .ok (simplifyRational (p / q))
    | _, _ => .ok (.flonum (fp.div (a.toF64 fp.toFlonumOps) (b.toF64 fp.toFlonumOps)))

/-- `Number::abs`. -/
def abs : Number → Number
  | .fixnum n =>
    match I64.checked |n.val| with
    | some i => .fixnum i
    | none => .big |n.val|
  | .big n => .big |n|
  | .rat q => .rat |q|
  | .flonum f => .flonum (fp.abs f)

/-- `to_bigint`: the integer a number stands for, if it is one. -/
def toBigint : Number → Option ℤ
  | .fixnum n => some n.val
  | .big n => some n
  | .rat q => if q.den = 1 then some q.num else none
  | .flonum f => if fp.isFinite f && fp.isWhole f then some (fp.asI64 f).val else none

/-- `simplify_bigint`. -/
def simplifyBigint (n : ℤ) : Number :=
  match I64.checked n with
  | some i => .fixnum i
  | none => .big n

/-- The common shape of the integer divisions: a zero divisor and an operand that is not an
integer are the same error. -/
def integerDivision (op : ℤ → ℤ → ℤ) (a b : Number) : Except NumError Number :=
  if b.isZero fp then .error .divisionByZero
  else
    match a.toBigint fp with
    | none => .error .divisionByZero
    | some x =>
      match b.toBigint fp with
      | none => .error .divisionByZero
      | some y => .ok (simplifyBigint (op x y))

/-- `Number::quotient`. -/
def quotient : Number → Number → Except NumError Number := integerDivision fp Int.tdiv

/-- `Number::remainder`. -/
def remainder : Number → Number → Except NumError Number := integerDivision fp Int.tmod

/-- The remainder of `modulo`: the truncating remainder, moved to the divisor's sign. -/
def floorRemainder (x y : ℤ) : ℤ :=
  let r := x.tmod y
  if (r < 0 ∧ 0 < y) ∨ (0 < r ∧ y < 0) then r + y else r

/-- `Number::modulo`. -/
def modulo : Number → Number → Except NumError Number := integerDivision fp floorRemainder

/-- `Number::floor_quotient`. -/
def floorQuotient : Number → Number → Except NumError Number :=
  integerDivision fp fun x y => (x - floorRemainder x y).tdiv y

/-- **Canonical numbers**: exact, a big integer only outside the range of a machine word, a
rational only if it is not an integer. -/
def Canonical : Number → Prop
  | .fixnum _ => True
  | .big n => I64.checked n = none
  | .rat q => q.den ≠ 1
  | .flonum _ => False

instance : DecidablePred Canonical := fun n =>
  match n with
  | .fixnum _ => isTrue trivial
  | .big n => inferInstanceAs (Decidable (I64.checked n = none))
  | .rat q => inferInstanceAs (Decidable (q.den ≠ 1))
  | .flonum _ => isFalse id

lemma eqValue_of_toRational {fp : FlonumOps} {a b : Number} {q : ℚ} (ha : a.toRational = some q)
    (hb : b.toRational = some q) : a.eqValue fp b = true := by
  cases a with
  | fixnum x =>
    cases b with
    | fixnum y =>
      have hxy : (x.val : ℚ) = y.val := by
        simp only [toRational, Option.some.injEq] at ha hb
        rw [ha, hb]
      simpa [eqValue] using hxy
    | _ => simp_all [eqValue]
  | _ => cases b <;> simp_all [eqValue, toRational]

lemma simplifyBigint_eq (n : ℤ) : simplifyBigint n = simplifyRational (n : ℚ) := by
  exact (if_pos (Rat.den_intCast n)).symm

lemma canonical_simplifyBigint (n : ℤ) : (simplifyBigint n).Canonical := by
  unfold simplifyBigint
  cases h : I64.checked n with
  | some i => trivial
  | none => exact h

lemma canonical_simplifyRational (q : ℚ) : (simplifyRational q).Canonical := by
  by_cases hden : q.den = 1
  · have hq : (q.num : ℚ) = q := (Rat.den_eq_one_iff q).mp hden
    rw [← hq]
    exact canonical_simplifyBigint q.num
  · rw [simplifyRational, if_neg hden]
    exact hden

end Number

/-- **Canonical exact numbers.** -/
structure CanonicalNumber where
  number : Number
  canonical : number.Canonical

namespace CanonicalNumber

/-- The rational a canonical number stands for. -/
def value (a : CanonicalNumber) : ℚ :=
  match a.number with
  | .fixnum n => n.val
  | .big n => n
  | .rat q => q
  | .flonum _ => 0

lemma toRational (a : CanonicalNumber) : a.number.toRational = some a.value := by
  obtain ⟨n, hn⟩ := a
  cases n with
  | flonum f => exact hn.elim
  | _ => rfl

lemma isExact (a : CanonicalNumber) : a.number.isExact = true := by
  obtain ⟨n, hn⟩ := a
  cases n with
  | flonum f => exact hn.elim
  | _ => rfl

lemma eq_simplifyRational (a : CanonicalNumber) : a.number = Number.simplifyRational a.value := by
  obtain ⟨n, hn⟩ := a
  cases n with
  | fixnum i => simp [value, Number.simplifyRational]
  | big n =>
    have hn' : I64.checked n = none := hn
    simp [value, Number.simplifyRational, hn']
  | rat q =>
    have hq : q.den ≠ 1 := hn
    simp [value, Number.simplifyRational, hq]
  | flonum f => exact hn.elim

lemma simplifyRational_iff {n : Number} {v : ℚ} :
    n.toRational = some v ∧ n.Canonical ↔ n = Number.simplifyRational v := by
  constructor
  · rintro ⟨hv, hn⟩
    have hvalue : value ⟨n, hn⟩ = v := Option.some.inj ((toRational ⟨n, hn⟩).symm.trans hv)
    exact hvalue ▸ eq_simplifyRational ⟨n, hn⟩
  · rintro rfl
    exact ⟨Number.toRational_simplifyRational v, Number.canonical_simplifyRational v⟩

end CanonicalNumber

/-! ### Integer division and rational division -/

/-- Rounding a rational towards zero. -/
def truncate (x : ℚ) : ℤ := if 0 ≤ x then ⌊x⌋ else ⌈x⌉

lemma floor_div_of_remainder {x y k r : ℤ} (hx : x = y * k + r)
    (hr : 0 ≤ r ∧ r < y ∨ y < r ∧ r ≤ 0) : ⌊(x : ℚ) / y⌋ = k := by
  have hy : (y : ℚ) ≠ 0 := by
    have : y ≠ 0 := by omega
    exact_mod_cast this
  have hdiv : (x : ℚ) / y = k + r / y := by
    rw [hx]
    push_cast
    field_simp
  rw [Int.floor_eq_iff]
  rcases hr with ⟨h0, hlt⟩ | ⟨hlt, h0⟩
  · have hy' : (0 : ℚ) < y := by exact_mod_cast h0.trans_lt hlt
    have h0' : (0 : ℚ) ≤ r := by exact_mod_cast h0
    have h1 : (r : ℚ) / y < 1 := (div_lt_one hy').2 (by exact_mod_cast hlt)
    have h2 : 0 ≤ (r : ℚ) / y := div_nonneg h0' hy'.le
    constructor <;> linarith
  · have hy' : (y : ℚ) < 0 := by exact_mod_cast hlt.trans_le h0
    have h0' : (r : ℚ) ≤ 0 := by exact_mod_cast h0
    have h1 : (r : ℚ) / y < 1 := (div_lt_one_of_neg hy').2 (by exact_mod_cast hlt)
    have h2 : 0 ≤ (r : ℚ) / y := div_nonneg_of_nonpos h0' hy'.le
    constructor <;> linarith

lemma tmod_bounds {y : ℤ} (x : ℤ) (hy : y ≠ 0) :
    (x.tmod y).natAbs < y.natAbs ∧ (0 ≤ x → 0 ≤ x.tmod y) ∧ (x ≤ 0 → x.tmod y ≤ 0) := by
  refine ⟨?_, fun h => Int.tmod_nonneg y h, fun h => ?_⟩
  · rw [Int.natAbs_tmod]
    exact Nat.mod_lt _ (by omega)
  · have := Int.tmod_nonneg y (Int.neg_nonneg_of_nonpos h)
    rw [Int.neg_tmod] at this
    omega

lemma floorRemainder_spec {y : ℤ} (x : ℤ) (hy : y ≠ 0) :
    ∃ k, x = y * k + Number.floorRemainder x y ∧
      (0 ≤ Number.floorRemainder x y ∧ Number.floorRemainder x y < y ∨
        y < Number.floorRemainder x y ∧ Number.floorRemainder x y ≤ 0) := by
  have hx : y * x.tdiv y + x.tmod y = x := Int.mul_tdiv_add_tmod x y
  obtain ⟨hlt, -, -⟩ := tmod_bounds x hy
  unfold Number.floorRemainder
  dsimp only
  split
  · exact ⟨x.tdiv y - 1, by rw [mul_sub]; omega, by omega⟩
  · exact ⟨x.tdiv y, by omega, by omega⟩

lemma floor_div_floorRemainder {y : ℤ} (x : ℤ) (hy : y ≠ 0) :
    x = y * ⌊(x : ℚ) / y⌋ + Number.floorRemainder x y := by
  obtain ⟨k, hx, hr⟩ := floorRemainder_spec x hy
  rwa [floor_div_of_remainder hx hr]

lemma truncate_div {y : ℤ} (x : ℤ) (hy : y ≠ 0) : truncate ((x : ℚ) / y) = x.tdiv y := by
  have hx : y * x.tdiv y + x.tmod y = x := Int.mul_tdiv_add_tmod x y
  obtain ⟨hlt, hpos, hneg⟩ := tmod_bounds x hy
  unfold truncate
  split
  · rename_i h0
    -- dividend and divisor have the same sign
    have hsign : 0 ≤ x ∧ 0 < y ∨ x ≤ 0 ∧ y < 0 := by
      rcases div_nonneg_iff.1 h0 with ⟨h1, h2⟩ | ⟨h1, h2⟩
      · have : 0 ≤ x ∧ 0 ≤ y := ⟨by exact_mod_cast h1, by exact_mod_cast h2⟩
        omega
      · have : x ≤ 0 ∧ y ≤ 0 := ⟨by exact_mod_cast h1, by exact_mod_cast h2⟩
        omega
    exact floor_div_of_remainder hx.symm (by omega)
  · rename_i h0
    have hsign : 0 ≤ x ∧ y < 0 ∨ x ≤ 0 ∧ 0 < y := by
      rcases div_neg_iff.1 (not_le.1 h0) with ⟨h1, h2⟩ | ⟨h1, h2⟩
      · have : 0 < x ∧ y < 0 := ⟨by exact_mod_cast h1, by exact_mod_cast h2⟩
        omega
      · have : x < 0 ∧ 0 < y := ⟨by exact_mod_cast h1, by exact_mod_cast h2⟩
        omega
    have hfloor : ⌊((-x : ℤ) : ℚ) / y⌋ = -x.tdiv y :=
      floor_div_of_remainder (r := -x.tmod y) (by rw [mul_neg]; omega) (by omega)
    rw [← neg_inj, ← Int.floor_neg, ← hfloor]
    push_cast
    rw [neg_div]

/-! ### The operations -/

/-- The exact operations. -/
inductive ExactOp
  | add | sub | mul | div | neg | abs | quotient | remainder | modulo | floorQuotient
deriving DecidableEq

namespace ExactOp

/-- What an operation runs; `neg` and `abs` look at the first operand only. -/
def apply (fp : DivisionOps) (op : ExactOp) (a b : Number) : Except NumError Number :=
  match op with
  | .add => .ok (a.add fp.toFlonumOps b)
  | .sub => .ok (a.sub fp.toFlonumOps b)
  | .mul => .ok (a.mul fp.toFlonumOps b)
  | .div => a.div fp b
  | .neg => .ok (a.neg fp.toFlonumOps)
  | .abs => .ok (a.abs fp)
  | .quotient => a.quotient fp b
  | .remainder => a.remainder fp b
  | .modulo => a.modulo fp b
  | .floorQuotient => a.floorQuotient fp b

/-- An integer operation on rationals: defined on two integers, the second not zero. -/
def onIntegers (f : ℚ → ℚ → ℚ) (p q : ℚ) : Option ℚ :=
  if p.den = 1 ∧ q.den = 1 ∧ q ≠ 0 then some (f p q) else none

/-- **The meaning of an operation**: the rational it stands for, where there is one. -/
def value (op : ExactOp) (p q : ℚ) : Option ℚ :=
  match op with
  | .add => some (p + q)
  | .sub => some (p - q)
  | .mul => some (p * q)
  | .div => if q = 0 then none else some (p / q)
  | .neg => some (-p)
  | .abs => some |p|
  | .quotient => onIntegers (fun p q => truncate (p / q)) p q
  | .remainder => onIntegers (fun p q => p - q * truncate (p / q)) p q
  | .modulo => onIntegers (fun p q => p - q * ⌊p / q⌋) p q
  | .floorQuotient => onIntegers (fun p q => ⌊p / q⌋) p q

/-- **Correctness of an operation at two canonical numbers**: it returns its meaning in canonical
form, and an error where it has no meaning. -/
def Correct (fp : DivisionOps) (op : ExactOp) (a b : CanonicalNumber) : Prop :=
  match op.value a.value b.value with
  | some v => ∃ r, op.apply fp a.number b.number = .ok r ∧ r.toRational = some v ∧ r.Canonical
  | none => op.apply fp a.number b.number = .error .divisionByZero

variable {fp : DivisionOps} {a b : CanonicalNumber}

lemma correct_of_eq {op : ExactOp} {v : ℚ} (hv : op.value a.value b.value = some v)
    (h : op.apply fp a.number b.number = .ok (Number.simplifyRational v)) :
    op.Correct fp a b := by
  rw [Correct, hv]
  exact ⟨_, h, CanonicalNumber.simplifyRational_iff.2 rfl⟩

/-! #### Integer division -/

lemma isZero_iff : b.number.isZero fp = true ↔ b.value = 0 := by
  obtain ⟨n, hn⟩ := b
  cases n with
  | flonum f => exact hn.elim
  | _ => simp [Number.isZero, CanonicalNumber.value]

lemma toBigint_eq : a.number.toBigint fp = if a.value.den = 1 then some a.value.num else none := by
  obtain ⟨n, hn⟩ := a
  cases n with
  | flonum f => exact hn.elim
  | rat q => rfl
  | _ => simp [Number.toBigint, CanonicalNumber.value]

lemma integerDivision_eq (op : ℤ → ℤ → ℤ) :
    Number.integerDivision fp op a.number b.number =
      if a.value.den = 1 ∧ b.value.den = 1 ∧ b.value ≠ 0 then
        .ok (Number.simplifyBigint (op a.value.num b.value.num))
      else .error .divisionByZero := by
  unfold Number.integerDivision
  rw [toBigint_eq, toBigint_eq]
  by_cases hzero : b.value = 0
  · rw [if_pos (isZero_iff.2 hzero), if_neg (by tauto)]
  · rw [if_neg (fun h => hzero (isZero_iff.1 h))]
    by_cases ha : a.value.den = 1 <;> by_cases hb : b.value.den = 1 <;> simp [ha, hb, hzero]

lemma correct_integerDivision {op : ExactOp} {f : ℚ → ℚ → ℚ} {g : ℤ → ℤ → ℤ}
    (hv : op.value = onIntegers f)
    (happly : op.apply fp = Number.integerDivision fp g)
    (hfg : ∀ x y : ℤ, y ≠ 0 → f x y = g x y) : op.Correct fp a b := by
  by_cases h : a.value.den = 1 ∧ b.value.den = 1 ∧ b.value ≠ 0
  · obtain ⟨ha, hb, hzero⟩ := h
    have hp : (a.value.num : ℚ) = a.value := (Rat.den_eq_one_iff _).mp ha
    have hq : (b.value.num : ℚ) = b.value := (Rat.den_eq_one_iff _).mp hb
    have hnum : b.value.num ≠ 0 := Rat.num_ne_zero.2 hzero
    refine correct_of_eq (v := g a.value.num b.value.num) ?_ ?_
    · rw [hv, onIntegers, if_pos ⟨ha, hb, hzero⟩, ← hfg _ _ hnum, hp, hq]
    · rw [happly, integerDivision_eq, if_pos ⟨ha, hb, hzero⟩, Number.simplifyBigint_eq]
  · rw [Correct, hv, onIntegers, if_neg h, happly, integerDivision_eq, if_neg h]

/-! #### Sign changes -/

lemma checked_neg_eq_none {n : ℤ} (hn : I64.checked n = none) (h : n ≠ 2 ^ 63) :
    I64.checked (-n) = none := by
  unfold I64.checked at *
  split at hn
  · cases hn
  · rw [dif_neg]
    omega

lemma checked_abs_eq_none {n : ℤ} (hn : I64.checked n = none) : I64.checked |n| = none := by
  unfold I64.checked at *
  split at hn
  · cases hn
  · rw [dif_neg]
    rcases abs_cases n with h | h <;> omega

lemma neg_eq (h : a.number ≠ .big (2 ^ 63)) :
    a.number.neg fp.toFlonumOps = Number.simplifyRational (-a.value) := by
  obtain ⟨n, hn⟩ := a
  cases n with
  | fixnum i =>
    rfl
  | big n =>
    have hn' : I64.checked (-n) = none := checked_neg_eq_none hn fun h0 => h (congrArg Number.big h0)
    rw [show -CanonicalNumber.value ⟨.big n, hn⟩ = ((-n : ℤ) : ℚ) by simp [CanonicalNumber.value],
      ← Number.simplifyBigint_eq, Number.simplifyBigint, hn']
    rfl
  | rat q =>
    have hq : q.den ≠ 1 := hn
    simp [Number.neg, CanonicalNumber.value, Number.simplifyRational, hq]
  | flonum f => exact hn.elim

lemma abs_eq : a.number.abs fp = Number.simplifyRational |a.value| := by
  obtain ⟨n, hn⟩ := a
  cases n with
  | fixnum i =>
    rw [show |CanonicalNumber.value ⟨.fixnum i, hn⟩| = ((|i.val| : ℤ) : ℚ) by simp [CanonicalNumber.value],
      ← Number.simplifyBigint_eq]
    rfl
  | big n =>
    rw [show |CanonicalNumber.value ⟨.big n, hn⟩| = ((|n| : ℤ) : ℚ) by simp [CanonicalNumber.value],
      ← Number.simplifyBigint_eq, Number.simplifyBigint, checked_abs_eq_none hn]
    rfl
  | rat q =>
    have hq : q.den ≠ 1 := hn
    simp [Number.abs, CanonicalNumber.value, Number.simplifyRational, hq]
  | flonum f => exact hn.elim

lemma not_canonical_neg (h : a.number = .big (2 ^ 63)) :
    ¬ (a.number.neg fp.toFlonumOps).Canonical := by
  rw [h]
  exact fun hc => absurd (show I64.checked (-2 ^ 63) = none from hc) (by decide)

/-- **Exact arithmetic is exact and canonical**, except for the negation of `2 ^ 63`: every
operation on canonical numbers returns the canonical form of what it means, and an error just
where it means nothing. -/
theorem correct_iff (fp : DivisionOps) (op : ExactOp) (a b : CanonicalNumber) :
    op.Correct fp a b ↔ ¬ (op = .neg ∧ a.number = .big (2 ^ 63)) := by
  constructor
  · rintro h ⟨rfl, ha⟩
    obtain ⟨r, hr, -, hcanonical⟩ := h
    cases hr
    exact not_canonical_neg ha hcanonical
  intro h
  cases op with
  | add =>
    exact correct_of_eq rfl (congrArg Except.ok
      (Number.arith_of_toRational (fun x y => Int.cast_add x y) a.toRational b.toRational))
  | sub =>
    exact correct_of_eq rfl (congrArg Except.ok
      (Number.arith_of_toRational (fun x y => Int.cast_sub x y) a.toRational b.toRational))
  | mul =>
    exact correct_of_eq rfl (congrArg Except.ok
      (Number.arith_of_toRational (fun x y => Int.cast_mul x y) a.toRational b.toRational))
  | div =>
    by_cases hzero : b.value = 0
    · simp [Correct, value, apply, Number.div, isZero_iff.2 hzero, hzero, CanonicalNumber.isExact]
    · refine correct_of_eq (if_neg hzero) ?_
      rw [apply, Number.div, if_neg (fun h0 => hzero (isZero_iff.1 h0)), a.toRational,
        b.toRational]
  | neg => exact correct_of_eq rfl (congrArg Except.ok (neg_eq fun ha => h ⟨rfl, ha⟩))
  | abs => exact correct_of_eq rfl (congrArg Except.ok abs_eq)
  | quotient =>
    exact correct_integerDivision rfl rfl fun x y hy => by rw [truncate_div x hy]
  | remainder =>
    refine correct_integerDivision rfl rfl fun x y hy => ?_
    rw [truncate_div x hy, Int.tmod_def]
    push_cast
    rfl
  | modulo =>
    refine correct_integerDivision rfl rfl fun x y hy => ?_
    rw [sub_eq_iff_eq_add']
    exact_mod_cast floor_div_floorRemainder x hy
  | floorQuotient =>
    refine correct_integerDivision rfl rfl fun x y hy => ?_
    have hx := floor_div_floorRemainder x hy
    rw [show x - Number.floorRemainder x y = y * ⌊(x : ℚ) / y⌋ by omega,
      Int.mul_tdiv_cancel_left _ hy]

/-- The big integer `2 ^ 63` is canonical and its negation is not. -/
theorem neg_two_pow_sixty_three :
    (Number.big (2 ^ 63)).Canonical ∧
      ¬ ((Number.big (2 ^ 63)).neg FlonumOps.coarse).Canonical := by
  decide

end ExactOp

end CrabScheme
