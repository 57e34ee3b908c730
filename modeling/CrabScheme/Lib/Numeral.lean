import Mathlib

/-!
# Numerals

Writing an integer in decimal, and reading an integer with an optional sign in a radix up to 36.
Reading what was written gives the integer back.

## Main results

* `Numeral.parseInteger_decimal` — reading after writing.
* `Numeral.decimal_cases` — a decimal text is a string of digits, after a minus sign or not.
-/

namespace Numeral

/-! ### Writing -/

/-- The decimal text of an integer. -/
def decimal (n : ℤ) : List Char :=
  if n < 0 then '-' :: Nat.toDigits 10 n.natAbs else Nat.toDigits 10 n.natAbs

/-- A text of digits: not empty, and nothing but digits. -/
def IsDigits (s : List Char) : Prop := s ≠ [] ∧ ∀ c ∈ s, c.isDigit = true

lemma isDigits_toDigits (n : ℕ) : IsDigits (Nat.toDigits 10 n) :=
  ⟨Nat.toDigits_ne_nil, fun _ hc => Nat.isDigit_of_mem_toDigits (b := 10) (by decide) (by decide) hc⟩

lemma decimal_cases (n : ℤ) :
    IsDigits (decimal n) ∨ ∃ s, decimal n = '-' :: s ∧ IsDigits s := by
  unfold decimal
  split
  · exact .inr ⟨_, rfl, isDigits_toDigits _⟩
  · exact .inl (isDigits_toDigits _)

/-! ### Reading -/

/-- The value of a digit in a radix. -/
def digitValue (radix : ℕ) (c : Char) : Option ℕ :=
  let v :=
    if c.isDigit then some (c.toNat - '0'.toNat)
    else if c.isLower then some (c.toNat - 'a'.toNat + 10)
    else if c.isUpper then some (c.toNat - 'A'.toNat + 10)
    else none
  v.filter (· < radix)

/-- The value of a string of digits, after digits worth `acc`. -/
def parseDigits (radix : ℕ) : ℕ → List Char → Option ℕ
  | acc, [] => some acc
  | acc, c :: s =>
    match digitValue radix c with
    | some d => parseDigits radix (acc * radix + d) s
    | none => none

/-- The value of a text that must have at least one digit. -/
def parseNat (radix : ℕ) (s : List Char) : Option ℕ :=
  if s = [] then none else parseDigits radix 0 s

/-- Reading an integer: one sign at most, and at least one digit. -/
def parseInteger (radix : ℕ) : List Char → Option ℤ
  | '-' :: s => (parseNat radix s).map fun n : ℕ => -(n : ℤ)
  | '+' :: s => (parseNat radix s).map fun n : ℕ => (n : ℤ)
  | s => (parseNat radix s).map fun n : ℕ => (n : ℤ)

lemma digitValue_of_isDigit {c : Char} (hc : c.isDigit = true) :
    digitValue 10 c = some (c.toNat - '0'.toNat) := by
  have hle : c.toNat ≤ 57 := by
    have h : c.val ≤ '9'.val := by
      simp only [Char.isDigit, Bool.and_eq_true, decide_eq_true_eq] at hc
      exact hc.2
    exact h
  have hlt : c.toNat - 48 < 10 := by omega
  simp [digitValue, hc, hlt]

lemma parseDigits_eq {s : List Char} (hs : ∀ c ∈ s, c.isDigit = true) (acc : ℕ) :
    parseDigits 10 acc s = some (Nat.ofDigitChars 10 s acc) := by
  induction s generalizing acc with
  | nil => rfl
  | cons c s ih =>
    rw [parseDigits, digitValue_of_isDigit (hs c (by simp))]
    dsimp only
    rw [ih (fun c hc => hs c (List.mem_cons_of_mem _ hc)), Nat.ofDigitChars_cons, mul_comm]

lemma parseNat_toDigits (n : ℕ) : parseNat 10 (Nat.toDigits 10 n) = some n := by
  obtain ⟨hne, hdigits⟩ := isDigits_toDigits n
  rw [parseNat, if_neg hne, parseDigits_eq hdigits, Nat.ofDigitChars_ten_toDigits]

lemma parseInteger_of_isDigits {s : List Char} (hs : IsDigits s) :
    parseInteger 10 s = (parseNat 10 s).map fun n : ℕ => (n : ℤ) := by
  unfold parseInteger
  split
  · exact absurd (hs.2 '-' (by simp)) (by decide)
  · exact absurd (hs.2 '+' (by simp)) (by decide)
  · rfl

/-- **Reading after writing.** -/
lemma parseInteger_decimal (n : ℤ) : parseInteger 10 (decimal n) = some n := by
  unfold decimal
  split
  · rename_i hn
    rw [parseInteger, parseNat_toDigits, Option.map_some]
    exact congrArg some (by omega)
  · rw [parseInteger_of_isDigits (isDigits_toDigits _), parseNat_toDigits, Option.map_some]
    exact congrArg some (by omega)

end Numeral
