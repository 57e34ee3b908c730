import CrabScheme.Core.Value

/-!
# Values with contents, and the equivalence predicates

The reader, the writer, the equivalence predicates and the hash functions look inside strings,
vectors and bytevectors, so this part of the development has values whose heap objects carry
their contents. An address is an index into the store; what a slot holds is what reading it
returns.

`equal?` descends with a counter that starts at 64 and remembers pairs of addresses only once
the counter is used up. It does not end on circular vectors, so `equalRec` takes a bound on the
depth of the recursion and `Equal` asks for some bound under which the answer is `true`.

## Main results

* `Value.eq_iff` — `eq?` is identity, except that it is false of every number
  that is not a fixnum.
-/

namespace CrabScheme

/-- A NaN: the exponent is full and the fraction is not zero. -/
def F64.isNan (f : F64) : Bool :=
  f.bits.extractLsb' 52 11 == 0x7FF#11 && f.bits.extractLsb' 0 52 != 0#52

/-- The test `==` of two doubles: no NaN equals anything, and the two zeros are equal. -/
def F64.ieeeEq (f g : F64) : Bool :=
  !f.isNan && !g.isNan &&
    (f == g || ((f == ⟨0⟩ || f == F64.negZero) && (g == ⟨0⟩ || g == F64.negZero)))

end CrabScheme

namespace CrabScheme.Data

/-- **Scheme values.** The four numeric arms are one, as `as_number` and `from_number` have
them. -/
inductive Value
  | null
  | unspecified
  | eof
  | boolean (b : Bool)
  | character (c : Char)
  | symbol (s : Symbol)
  | identifier (name : Symbol) (mark : UInt64)
  | number (n : Number)
  | string (a : ℕ)
  | pair (a : ℕ)
  | vector (a : ℕ)
  | byteVector (a : ℕ)
  | procedure (a : ℕ)
  | hashtable (a : ℕ)
  | port (a : ℕ)
  | promise (a : ℕ)
deriving DecidableEq

/-- Heap objects. Of procedures, hashtables, ports and promises only the way they are printed
is kept. -/
inductive Object
  | string (s : List Char)
  | pair (car cdr : Value)
  | vector (items : List Value)
  | byteVector (bytes : List UInt8)
  | other (printed : List Char)
deriving DecidableEq

/-- The store; an address is an index. -/
abbrev Store := List Object

namespace Value

/-- `Value::as_number`. -/
def asNumber : Value → Option Number
  | .number n => some n
  | _ => none

/-- `eq?`: identity of heap values and equality of immediates; of the numbers only fixnums are
ever `eq?`. -/
def eq : Value → Value → Bool
  | .null, .null => true
  | .unspecified, .unspecified => true
  | .eof, .eof => true
  | .boolean x, .boolean y => x == y
  | .character x, .character y => x == y
  | .symbol x, .symbol y => x == y
  | .identifier n₁ m₁, .identifier n₂ m₂ => n₁ == n₂ && m₁ == m₂
  | .number (.fixnum x), .number (.fixnum y) => x == y
  | .string x, .string y => x == y
  | .pair x, .pair y => x == y
  | .vector x, .vector y => x == y
  | .byteVector x, .byteVector y => x == y
  | .procedure x, .procedure y => x == y
  | .hashtable x, .hashtable y => x == y
  | .port x, .port y => x == y
  | .promise x, .promise y => x == y
  | _, _ => false

variable (fp : FlonumOps)

/-- `eqv?`: numbers of the same exactness compare by value. -/
def eqv (a b : Value) : Bool :=
  match a.asNumber, b.asNumber with
  | some x, some y => (x.toRational.isSome == y.toRational.isSome) && x.eqValue fp y
  | _, _ => eq a b

lemma eq_iff {a b : Value} :
    eq a b = true ↔ a = b ∧ ∀ n, a = .number n → ∃ i, n = .fixnum i := by
  cases a <;> cases b <;> try simp [eq]
  rename_i x y
  cases x <;> cases y <;> simp

lemma eqv_of_eq {a b : Value} (h : eq a b = true) : eqv fp a b = true := by
  obtain ⟨rfl, hn⟩ := eq_iff.1 h
  cases a with
  | number n =>
    obtain ⟨i, rfl⟩ := hn n rfl
    simp [eqv, asNumber, Number.eqValue]
  | _ => exact h

lemma eq_number_of_asNumber {a : Value} {x : Number} (h : a.asNumber = some x) :
    a = .number x := by
  cases a <;> simp_all [asNumber]

lemma eq_of_eqv {a b : Value} (h : eqv fp a b = true) :
    a = b ∨ ∃ x y, a = .number x ∧ b = .number y := by
  unfold eqv at h
  split at h
  · rename_i x y hx hy
    exact .inr ⟨x, y, eq_number_of_asNumber hx, eq_number_of_asNumber hy⟩
  · exact .inl (eq_iff.1 h).1

end Value

/-! ### `equal?` -/

section Equal

variable (fp : FlonumOps) (h : Store)

/-- Pairs of addresses that a comparison has met. -/
abbrev Visited := List (ℕ × ℕ)

/-- A comparison of all items: it stops at the first that differ. -/
def allEqual (f : Value → Value → Visited → Option (Bool × Visited)) :
    List (Value × Value) → Visited → Option (Bool × Visited)
  | [], visited => some (true, visited)
  | (a, b) :: rest, visited =>
    match f a b visited with
    | some (true, visited) => allEqual f rest visited
    | r => r

/-- `equal_rec`; the first argument bounds the depth of the recursion. Once `fuel` is used up, a
pair of addresses met before counts as equal. -/
def equalRec : ℕ → Value → Value → Visited → ℕ → Option (Bool × Visited)
  | 0, _, _, _, _ => none
  | n + 1, a, b, visited, fuel =>
    if a.eqv fp b then some (true, visited)
    else
      match a, b with
      | .string x, .string y =>
        match h[x]?, h[y]? with
        | some (.string s), some (.string t) => some (s == t, visited)
        | _, _ => some (false, visited)
      | .pair x, .pair y =>
        match h[x]?, h[y]? with
        | some (.pair xa xd), some (.pair ya yd) =>
          if fuel = 0 ∧ (x, y) ∈ visited then some (true, visited)
          else
            let visited := if fuel = 0 then (x, y) :: visited else visited
            match equalRec n xa ya visited (fuel - 1) with
            | some (true, visited) => equalRec n xd yd visited (fuel - 1)
            | r => r
        | _, _ => some (false, visited)
      | .vector x, .vector y =>
        match h[x]?, h[y]? with
        | some (.vector xs), some (.vector ys) =>
          if xs.length ≠ ys.length then some (false, visited)
          else
            allEqual (fun a b visited => equalRec n a b visited (fuel - 1)) (xs.zip ys) visited
        | _, _ => some (false, visited)
      | .byteVector x, .byteVector y =>
        match h[x]?, h[y]? with
        | some (.byteVector s), some (.byteVector t) => some (s == t, visited)
        | _, _ => some (false, visited)
      | _, _ => some (false, visited)

/-- **`equal?` answers `true`.** -/
def Equal (a b : Value) : Prop :=
  ∃ n visited, equalRec fp h n a b [] 64 = some (true, visited)

end Equal

end CrabScheme.Data
