import Mathlib

/-!
# The numeric tower

Numbers as `cs-core` has them: 64-bit fixnums that overflow into big integers, rationals kept
in lowest terms, and double-precision flonums. Exact arithmetic is computed; the
floating-point unit is a parameter, `FlonumOps`, with the few laws proofs rely on collected in
`FlonumOps.Lawful`.
-/

namespace CrabScheme

/-- **Machine integers.** An integer in the range of `i64`. -/
structure I64 where
  val : ℤ
  lower : -2 ^ 63 ≤ val
  upper : val < 2 ^ 63
deriving DecidableEq

namespace I64

/-- The result of checked arithmetic: the integer if it fits in a machine word. -/
def checked (n : ℤ) : Option I64 :=
  if h : -2 ^ 63 ≤ n ∧ n < 2 ^ 63 then some ⟨n, h.1, h.2⟩ else none

lemma zero_lt : 0 < 2 ^ 63 := by decide

lemma one_lt : 1 < 2 ^ 63 := by decide

lemma two_lt : 2 < 2 ^ 63 := by decide

lemma three_lt : 3 < 2 ^ 63 := by decide

/-- A small literal as a machine integer. -/
def ofNat (n : ℕ)
    (h : n < 2 ^ 63 := by
      first | exact I64.zero_lt | exact I64.one_lt | exact I64.two_lt | exact I64.three_lt | decide) : I64 :=
  ⟨n, by omega, by omega⟩

lemma val_of_checked {n : ℤ} {i : I64} (h : checked n = some i) : i.val = n := by
  unfold checked at h
  split at h
  · cases h; rfl
  · cases h

@[simp] lemma checked_val (i : I64) : checked i.val = some i := by
  rw [checked, dif_pos ⟨i.lower, i.upper⟩]

end I64

/-- A double-precision number, given by its bits; all NaNs are taken as one value. -/
structure F64 where
  bits : BitVec 64
deriving DecidableEq

/-- The double `-0.0`. -/
def F64.negZero : F64 := ⟨0x8000000000000000#64⟩

/-- **The floating-point unit**, as the operations of `f64` the numeric tower uses. `ofRat`
rounds an exact number to the nearest double. -/
structure FlonumOps where
  add : F64 → F64 → F64
  sub : F64 → F64 → F64
  mul : F64 → F64 → F64
  neg : F64 → F64
  ofRat : ℚ → F64
  partialCmp : F64 → F64 → Option Ordering
  eq : F64 → F64 → Bool

/-- A floating-point unit that rounds every exact number to `0.0`. It obeys the laws and is
enough to evaluate programs on exact numbers. -/
def FlonumOps.coarse : FlonumOps where
  add f g := if f = F64.negZero then g else if g = F64.negZero then f else
    if f = ⟨0⟩ then g else f
  sub f _ := f
  mul _ g := g
  neg f := f
  ofRat _ := ⟨0⟩
  partialCmp _ _ := none
  eq f g := f == g

/-- **Numbers**: the arms of `cs_core::Number`. -/
inductive Number
  | fixnum (n : I64)
  | big (n : ℤ)
  | rat (q : ℚ)
  | flonum (f : F64)
deriving DecidableEq

namespace Number

/-- `simplify_rational`: the smallest exact representation of a rational. -/
def simplifyRational (q : ℚ) : Number :=
  if q.den = 1 then
    match I64.checked q.num with
    | some i => .fixnum i
    | none => .big q.num
  else .rat q

/-- The value of an exact number (`to_rational`); flonums have none. -/
def toRational : Number → Option ℚ
  | .fixnum n => some n.val
  | .big n => some n
  | .rat q => some q
  | .flonum _ => none

variable (fp : FlonumOps)

/-- `to_f64`. -/
def toF64 : Number → F64
  | .fixnum n => fp.ofRat n.val
  | .big n => fp.ofRat n
  | .rat q => fp.ofRat q
  | .flonum f => f

/-- The common shape of `add`, `sub` and `mul`: flonum arithmetic as soon as one operand is a
flonum, checked machine arithmetic on two fixnums, exact arithmetic otherwise. -/
def arith (ff : F64 → F64 → F64) (fi : ℤ → ℤ → ℤ) (fq : ℚ → ℚ → ℚ) (a b : Number) : Number :=
  match a, b with
  | .fixnum x, .fixnum y =>
    match I64.checked (fi x.val y.val) with
    | some i => .fixnum i
    | none => .big (fi x.val y.val)
  | a, b =>
    match a.toRational, b.toRational with
    | some p, some q => simplifyRational (fq p q)
    | _, _ => .flonum (ff (a.toF64 fp) (b.toF64 fp))

/-- `Number::add`. -/
def add : Number → Number → Number := arith fp fp.add (· + ·) (· + ·)

/-- `Number::sub`. -/
def sub : Number → Number → Number := arith fp fp.sub (· - ·) (· - ·)

/-- `Number::mul`. -/
def mul : Number → Number → Number := arith fp fp.mul (· * ·) (· * ·)

/-- `Number::neg`; a negated big integer is not simplified. -/
def neg : Number → Number
  | .fixnum n =>
    match I64.checked (-n.val) with
    | some i => .fixnum i
    | none => .big (-n.val)
  | .big n => .big (-n)
  | .rat q => .rat (-q)
  | .flonum f => .flonum (fp.neg f)

/-- The order of two exact numbers. -/
def cmpRat (p q : ℚ) : Ordering :=
  if p < q then .lt else if p = q then .eq else .gt

/-- `Number::cmp`; an unordered pair of flonums compares as equal. -/
def cmp (a b : Number) : Ordering :=
  match a, b with
  | .fixnum x, .fixnum y => compare x.val y.val
  | a, b =>
    match a.toRational, b.toRational with
    | some p, some q => cmpRat p q
    | _, _ => (fp.partialCmp (a.toF64 fp) (b.toF64 fp)).getD .eq

/-- `Number::eq_value`, the numeric equality of `=`. -/
def eqValue (a b : Number) : Bool :=
  match a, b with
  | .fixnum x, .fixnum y => x.val == y.val
  | a, b =>
    match a.toRational, b.toRational with
    | some p, some q => p == q
    | _, _ => fp.eq (a.toF64 fp) (b.toF64 fp)

/-! ### Sums from `0` and products from `1` -/

section Units

variable {fp}

lemma toRational_simplifyRational (q : ℚ) : (simplifyRational q).toRational = some q := by
  unfold simplifyRational
  split
  · rename_i hden
    have hq : (q.num : ℚ) = q := Rat.den_eq_one_iff q |>.mp hden
    cases h : I64.checked q.num with
    | some i => simp [toRational, I64.val_of_checked h, hq]
    | none => simp [toRational, hq]
  · rfl

lemma arith_of_toRational {ff : F64 → F64 → F64} {fi : ℤ → ℤ → ℤ} {fq : ℚ → ℚ → ℚ}
    (hcast : ∀ x y : ℤ, ((fi x y : ℤ) : ℚ) = fq x y) {a b : Number} {p q : ℚ}
    (ha : a.toRational = some p) (hb : b.toRational = some q) :
    arith fp ff fi fq a b = simplifyRational (fq p q) := by
  cases a with
  | fixnum x =>
    cases b with
    | fixnum y =>
      simp only [toRational, Option.some.injEq] at ha hb
      subst ha hb
      rw [← hcast, simplifyRational]
      simp [arith]
    | _ => simp_all [arith]
  | _ => cases b <;> simp_all [arith, toRational]

end Units

end Number

end CrabScheme
