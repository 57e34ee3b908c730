import CrabScheme.Core.Arithmetic

/-!
# Integer division and integer square roots

The four families of integer division differ in where the remainder lies: with the sign of the
dividend, with the sign of the divisor, between zero and the divisor, or centered around zero.
The Euclidean and the centered quotient are the truncating one moved by one where its remainder
is out of place. The square root is Newton's iteration, which falls until it is the root.

## Main results

* `division_law` — dividend, divisor, quotient and remainder of every family.
* `exactIntegerSqrt_spec` — the iteration ends at the square root.
-/

namespace CrabScheme

/-- An exact integer in either of its forms. -/
inductive ExactInteger
  | fixnum (n : I64)
  | big (n : ℤ)

/-- The integer as a number. -/
def ExactInteger.number : ExactInteger → Number
  | .fixnum n => .fixnum n
  | .big n => .big n

/-- The integer itself. -/
def ExactInteger.value : ExactInteger → ℤ
  | .fixnum n => n.val
  | .big n => n

namespace Number

variable (fp : DivisionOps)

/-! ### The divisions -/

/-- The quotient of `euclid_div`. -/
def euclidQuotient (x y : ℤ) : ℤ :=
  let q := x.tdiv y
  let r := x - q * y
  if r < 0 then if 0 < y then q - 1 else q + 1 else q

/-- `Number::euclid_div`. -/
def euclidDiv : Number → Number → Except NumError Number := integerDivision fp euclidQuotient

/-- The common shape of the operations that start from another one's quotient. -/
def fromQuotient (quotient : Number → Number → Except NumError Number) (op : ℤ → ℤ → ℤ → ℤ)
    (a b : Number) : Except NumError Number := do
  let d ← quotient a b
  match a.toBigint fp, b.toBigint fp, d.toBigint fp with
  | some x, some y, some k => .ok (simplifyBigint (op x y k))
  | _, _, _ => .error .divisionByZero

/-- `Number::euclid_mod`. -/
def euclidMod : Number → Number → Except NumError Number :=
  fromQuotient fp (euclidDiv fp) fun x y k => x - k * y

/-- The quotient of `euclid_div0` from that of `euclid_div`. -/
def centeredQuotient (x y k : ℤ) : ℤ :=
  let m := x - k * y
  if 2 * m > y.natAbs ∨ 2 * m = y.natAbs ∧ y.natAbs % 2 = 0 then if 0 < y then k + 1 else k - 1 else k

/-- `Number::euclid_div0`. -/
def euclidDiv0 (a b : Number) : Except NumError Number :=
  if b.isZero fp then .error .divisionByZero
  else fromQuotient fp (euclidDiv fp) centeredQuotient a b

/-- `Number::euclid_mod0`. -/
def euclidMod0 : Number → Number → Except NumError Number :=
  fromQuotient fp (euclidDiv0 fp) fun x y k => x - k * y

variable {fp} {x y : ℤ}

lemma toBigint_number (a : ExactInteger) : a.number.toBigint fp = some a.value := by
  cases a <;> rfl

lemma isZero_number {b : ExactInteger} (hb : b.value ≠ 0) : b.number.isZero fp = false := by
  cases b <;> simp_all [ExactInteger.value, ExactInteger.number, isZero]

lemma toBigint_simplifyBigint (n : ℤ) : (simplifyBigint n).toBigint fp = some n := by
  unfold simplifyBigint
  cases h : I64.checked n with
  | some i => simp [toBigint, I64.val_of_checked h]
  | none => rfl

lemma integerDivision_number (a : ExactInteger) {b : ExactInteger} (hb : b.value ≠ 0)
    (op : ℤ → ℤ → ℤ) :
    integerDivision fp op a.number b.number = .ok (simplifyBigint (op a.value b.value)) := by
  simp [integerDivision, isZero_number hb, toBigint_number]

lemma fromQuotient_number {quotient : Number → Number → Except NumError Number} {k : ℤ}
    {a b : ExactInteger} (hq : quotient a.number b.number = .ok (simplifyBigint k))
    (op : ℤ → ℤ → ℤ → ℤ) : fromQuotient fp quotient op a.number b.number =
      .ok (simplifyBigint (op a.value b.value k)) := by
  simp [fromQuotient, hq, bind, Except.bind, toBigint_number, toBigint_simplifyBigint]

/-! ### Their quotients -/

lemma floorQuotient_mul (x : ℤ) (hy : y ≠ 0) :
    x = y * (x - floorRemainder x y).tdiv y + floorRemainder x y := by
  obtain ⟨k, hx, -⟩ := floorRemainder_spec x hy
  rw [show x - floorRemainder x y = y * k by omega, Int.mul_tdiv_cancel_left _ hy]
  exact hx

lemma euclidQuotient_bounds (x : ℤ) (hy : y ≠ 0) :
    0 ≤ x - euclidQuotient x y * y ∧ x - euclidQuotient x y * y < y.natAbs := by
  have hx : y * x.tdiv y + x.tmod y = x := Int.mul_tdiv_add_tmod x y
  rw [mul_comm] at hx
  obtain ⟨hlt, -, -⟩ := tmod_bounds x hy
  unfold euclidQuotient
  dsimp only
  split_ifs with hr hpos
  · rw [sub_mul]
    omega
  · rw [add_mul]
    omega
  · omega

lemma centeredQuotient_bounds {k : ℤ} (h0 : 0 ≤ x - k * y) (hlt : x - k * y < y.natAbs) :
    -y.natAbs ≤ 2 * (x - centeredQuotient x y k * y) ∧
      2 * (x - centeredQuotient x y k * y) < y.natAbs := by
  unfold centeredQuotient
  dsimp only
  split_ifs with hm hpos
  · rw [add_mul]
    omega
  · rw [sub_mul]
    omega
  · omega

/-! ### The law -/

/-- The families of integer division. -/
inductive Division
  | truncating | flooring | euclidean | centered

/-- The quotient of a family. -/
def Division.quotient (fp : DivisionOps) : Division → Number → Number → Except NumError Number
  | .truncating => Number.quotient fp
  | .flooring => floorQuotient fp
  | .euclidean => euclidDiv fp
  | .centered => euclidDiv0 fp

/-- The remainder of a family. -/
def Division.remainder (fp : DivisionOps) : Division → Number → Number → Except NumError Number
  | .truncating => Number.remainder fp
  | .flooring => modulo fp
  | .euclidean => euclidMod fp
  | .centered => euclidMod0 fp

/-- Where the remainder of a family lies, for a dividend and a divisor. -/
def Division.Bounds : Division → ℤ → ℤ → ℤ → Prop
  | .truncating, x, y, r => r.natAbs < y.natAbs ∧ (0 ≤ x → 0 ≤ r) ∧ (x ≤ 0 → r ≤ 0)
  | .flooring, _, y, r => r.natAbs < y.natAbs ∧ (0 < y → 0 ≤ r) ∧ (y < 0 → r ≤ 0)
  | .euclidean, _, y, r => 0 ≤ r ∧ r < y.natAbs
  | .centered, _, y, r => -y.natAbs ≤ 2 * r ∧ 2 * r < y.natAbs

/-- **The laws of integer division**, for exact integers of any size. -/
theorem division_law (fp : DivisionOps) (d : Division) (a : ExactInteger)
    (b : {b : ExactInteger // b.value ≠ 0}) :
    ∃ q r : ℤ, d.quotient fp a.number b.1.number = .ok (simplifyBigint q) ∧
      d.remainder fp a.number b.1.number = .ok (simplifyBigint r) ∧
        a.value = b.1.value * q + r ∧ d.Bounds a.value b.1.value r := by
  obtain ⟨b, hb⟩ := b
  dsimp only
  have hdiv : euclidDiv fp a.number b.number = .ok (simplifyBigint _) :=
    integerDivision_number a hb _
  obtain ⟨h0, hlt⟩ := euclidQuotient_bounds a.value hb
  cases d with
  | truncating =>
    obtain ⟨hlt, hpos, hneg⟩ := tmod_bounds a.value hb
    exact ⟨_, _, integerDivision_number a hb _, integerDivision_number a hb _,
      (Int.mul_tdiv_add_tmod _ _).symm, by omega, hpos, hneg⟩
  | flooring =>
    obtain ⟨-, -, hr⟩ := floorRemainder_spec a.value hb
    exact ⟨_, _, integerDivision_number a hb _, integerDivision_number a hb _,
      floorQuotient_mul _ hb, by omega, by omega, by omega⟩
  | euclidean => exact ⟨_, _, hdiv, fromQuotient_number hdiv _, by ring, h0, hlt⟩
  | centered =>
    have hdiv0 : euclidDiv0 fp a.number b.number = .ok (simplifyBigint
        (centeredQuotient a.value b.value (euclidQuotient a.value b.value))) := by
      rw [euclidDiv0, isZero_number hb]
      exact fromQuotient_number hdiv _
    exact ⟨_, _, hdiv0, fromQuotient_number hdiv0 _, by ring, centeredQuotient_bounds h0 hlt⟩

/-! ### The square root -/

/-- The loop of `exact_integer_sqrt`; it would panic at a zero. -/
def newton (n x : ℕ) : Option ℕ :=
  if x = 0 then none
  else
    let y := (x + n / x) / 2
    if y < x then newton n y else some x
termination_by x

/-- `Number::exact_integer_sqrt`. -/
def exactIntegerSqrt (fp : DivisionOps) (a : Number) : Option (Number × Number) :=
  match a.toBigint fp with
  | none => none
  | some n =>
    if n < 0 then none
    else if n = 0 then some (.fixnum (I64.ofNat 0), .fixnum (I64.ofNat 0))
    else
      (newton n.toNat (1 <<< (n.toNat.size / 2 + 1))).map fun x : ℕ =>
        (simplifyBigint x, simplifyBigint (n - x * x))

/-- A step of the iteration does not fall below the root. -/
lemma lt_newton_step {n x : ℕ} (hx : 0 < x) :
    n < ((x + n / x) / 2 + 1) * ((x + n / x) / 2 + 1) := by
  have hdiv : n < x * (n / x + 1) := Nat.lt_mul_div_succ n hx
  generalize n / x = q at *
  have hs : x + q + 1 ≤ 2 * ((x + q) / 2 + 1) := by omega
  -- the square of a sum is at least four times the product
  nlinarith [sq_nonneg ((x : ℤ) - (q + 1))]

lemma newton_spec {n : ℕ} (hn : 0 < n) (x : ℕ) (hx : 0 < x) (hlt : n < (x + 1) * (x + 1)) :
    ∃ s, newton n x = some s ∧ s * s ≤ n ∧ n < (s + 1) * (s + 1) := by
  induction x using Nat.strong_induction_on with
  | _ x ih =>
  rw [newton, if_neg hx.ne']
  dsimp only
  split_ifs with hy
  · have hstep := lt_newton_step (n := n) hx
    refine ih _ hy (Nat.pos_of_ne_zero fun h0 => ?_) hstep
    rw [h0] at hstep
    omega
  · refine ⟨x, rfl, ?_, hlt⟩
    have hle : x ≤ n / x := by omega
    exact (Nat.mul_le_mul_left x hle).trans (Nat.mul_div_le n x)

/-- **The integer square root is exact**, for every exact integer that is not negative. -/
theorem exactIntegerSqrt_spec (fp : DivisionOps) (a : {a : ExactInteger // 0 ≤ a.value}) :
    ∃ s r : ℤ, exactIntegerSqrt fp a.1.number = some (simplifyBigint s, simplifyBigint r) ∧
      (simplifyBigint s).Canonical ∧ (simplifyBigint r).Canonical ∧
        0 ≤ s ∧ s * s ≤ a.1.value ∧ a.1.value < (s + 1) * (s + 1) ∧ r = a.1.value - s * s := by
  obtain ⟨a, ha⟩ := a
  dsimp only
  rw [exactIntegerSqrt, toBigint_number]
  generalize a.value = n at *
  lift n to ℕ using ha
  by_cases h0 : n = 0
  · subst h0
    exact ⟨0, 0, rfl, canonical_simplifyBigint 0, canonical_simplifyBigint 0, by decide⟩
  obtain ⟨p, hp⟩ : ∃ p, p = 1 <<< (n.size / 2 + 1) := ⟨_, rfl⟩
  have hpow : p = 2 ^ (n.size / 2 + 1) := hp.trans (Nat.one_shiftLeft _)
  have hstart : n < (p + 1) * (p + 1) := by
    calc n < 2 ^ n.size := Nat.lt_size_self n
      _ ≤ 2 ^ (n.size / 2 + 1 + (n.size / 2 + 1)) := Nat.pow_le_pow_right (by decide) (by omega)
      _ = p * p := by rw [pow_add, hpow]
      _ ≤ (p + 1) * (p + 1) := Nat.mul_le_mul (Nat.le_succ p) (Nat.le_succ p)
  obtain ⟨s, hs, hle, hlt⟩ := newton_spec (by omega) p (hpow ▸ Nat.two_pow_pos _) hstart
  refine ⟨s, n - s * s, ?_, ?_, canonical_simplifyBigint _, Int.natCast_nonneg s, ?_, ?_, rfl⟩
  · simp [h0, ← hp, hs]
  · generalize (s : ℤ) = root
    exact canonical_simplifyBigint root
  · exact_mod_cast hle
  · exact_mod_cast hlt

end Number

end CrabScheme
