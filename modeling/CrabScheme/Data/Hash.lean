import CrabScheme.Lib.Numeral
import CrabScheme.Data.Equivalence

/-!
# Hashing values

`hash_value` hashes a value for a table that compares keys by `eq?`, `eqv?` or `equal?`. Values
that the predicate identifies must hash alike. The standard library's hasher is a parameter, a
function of the calls made on it: agreement should not depend on what it computes.

Agreement fails for numbers that are `eqv?` without being the same number: the two zeros of the
flonums, and an integer in two representations. It holds everywhere else, however deep the
values are nested: `equal?` starts to rely on addresses it has met only at depth 64, and
`hash_value` does not look below depth 16.

## Main results

* `hashValue_agrees_iff` — the hashes of equivalent values agree for every hasher
  just if their numbers are the same.
-/

namespace CrabScheme.Data

/-! ### The hash functions -/

/-- A call on a hasher. -/
inductive Write
  | u8 (b : UInt8)
  | u64 (w : UInt64)
  | i64 (n : I64)
  | usize (n : ℕ)
  | str (s : List Char)
  | bytes (bs : List UInt8)
deriving DecidableEq

/-- A hasher: what it answers after a sequence of calls. -/
abbrev Digest := List Write → UInt64

/-- The kinds of equivalence with a fixed hash. -/
inductive EqKind
  | eq | eqv | equal
deriving DecidableEq

/-- A machine integer as the word `n as u64`. -/
def wordOfInt (n : ℤ) : UInt64 := ⟨BitVec.ofInt 64 n⟩

/-- `hash_eq`. -/
def hashEq : Value → UInt64
  | .null => 0x1
  | .unspecified => 0x2
  | .eof => 0x3
  | .boolean b => if b then 0x11 else 0x10
  | .character c => 0x100 + UInt64.ofNat c.toNat
  | .symbol s => 0x200 + UInt64.ofNat s.id
  | .identifier name mark => 0x300 + UInt64.ofNat name.id + mark * 0x9E3779B97F4A7C15
  | .number (.fixnum n) => 0x400 + wordOfInt n.val
  | .number _ => 0x4FF
  | .string a => 0x500 + UInt64.ofNat a
  | .pair a => 0x600 + UInt64.ofNat a
  | .vector a => 0x700 + UInt64.ofNat a
  | .byteVector a => 0x800 + UInt64.ofNat a
  | .procedure a => 0x900 + UInt64.ofNat a
  | .hashtable a => 0xA00 + UInt64.ofNat a
  | .port a => 0xB00 + UInt64.ofNat a
  | .promise a => 0xC00 + UInt64.ofNat a

/-- The text of a rational in the arithmetic library: an integer has no denominator. -/
def rationalText (q : ℚ) : List Char :=
  if q.den = 1 then Numeral.decimal q.num
  else Numeral.decimal q.num ++ '/' :: Numeral.decimal q.den

/-- The calls of `hash_number`: a tag for the representation, and the number in it. -/
def numberWrites : Number → List Write
  | .fixnum i => [.u8 0, .i64 i]
  | .flonum f => [.u8 1, .u64 ⟨f.bits⟩]
  | .big n => [.u8 2, .str (Numeral.decimal n)]
  | .rat q => [.u8 3, .str (rationalText q)]

section Hash

variable (digest : Digest) (h : Store)

/-- `hash_eqv`. -/
def hashEqv (v : Value) : UInt64 :=
  match v.asNumber with
  | some n => digest (numberWrites n)
  | none => hashEq v

/-- `hash_equal`: a structural hash down to a depth. -/
def hashEqual : ℕ → Value → UInt64
  | 0, _ => 0xD
  | d + 1, v =>
    match v with
    | .string a =>
      match h[a]? with
      | some (.string s) => digest [.u8 10, .str s]
      | _ => hashEqv digest v
    | .pair a =>
      match h[a]? with
      | some (.pair car cdr) => digest [.u8 11, .u64 (hashEqual d car), .u64 (hashEqual d cdr)]
      | _ => hashEqv digest v
    | .vector a =>
      match h[a]? with
      | some (.vector items) =>
        digest (.u8 12 :: .usize items.length :: items.map fun item => .u64 (hashEqual d item))
      | _ => hashEqv digest v
    | .byteVector a =>
      match h[a]? with
      | some (.byteVector bytes) => digest [.u8 13, .usize bytes.length, .bytes bytes]
      | _ => hashEqv digest v
    | v => hashEqv digest v

/-- **`hash_value`.** -/
def hashValue (v : Value) : EqKind → UInt64
  | .eq => hashEq v
  | .eqv => hashEqv digest v
  | .equal => hashEqual digest h 16 v

end Hash

/-- The predicate of a kind holds of two values. -/
def EqKind.Holds (fp : FlonumOps) (h : Store) (a b : Value) : EqKind → Prop
  | .eq => a.eq b = true
  | .eqv => a.eqv fp b = true
  | .equal => Equal fp h a b

/-! ### The hasher of the standard library -/

namespace SipHash

/-- The state of SipHash. -/
structure State where
  v0 : UInt64
  v1 : UInt64
  v2 : UInt64
  v3 : UInt64

/-- Rotation to the left. -/
def rotl (x : UInt64) (n : UInt64) : UInt64 := (x <<< n) ||| (x >>> (64 - n))

/-- One SipRound. -/
def State.round (s : State) : State :=
  let v0 := s.v0 + s.v1
  let v2 := s.v2 + s.v3
  let v1 := rotl s.v1 13 ^^^ v0
  let v0 := rotl v0 32
  let v3 := rotl s.v3 16 ^^^ v2
  let v0 := v0 + v3
  let v2 := v2 + v1
  let v3 := rotl v3 21 ^^^ v0
  let v1 := rotl v1 17 ^^^ v2
  { v0 := v0, v1 := v1, v2 := rotl v2 32, v3 := v3 }

/-- Absorbing one word, with one round. -/
def State.absorb (s : State) (m : UInt64) : State :=
  let s := State.round { s with v3 := s.v3 ^^^ m }
  { s with v0 := s.v0 ^^^ m }

/-- The word of at most eight bytes, the first byte lowest. -/
def word (bs : List UInt8) : UInt64 :=
  bs.foldr (fun b w => (w <<< 8) ||| b.toUInt64) 0

/-- The words of a message: its blocks of eight bytes, and the rest with the length in the top
byte. The first argument bounds the number of blocks. -/
def blocks (length : ℕ) : ℕ → List UInt8 → List UInt64
  | n + 1, b0 :: b1 :: b2 :: b3 :: b4 :: b5 :: b6 :: b7 :: rest =>
    word [b0, b1, b2, b3, b4, b5, b6, b7] :: blocks length n rest
  | _, rest => [(UInt64.ofNat length <<< 56) ||| word rest]

/-- SipHash-1-3 with zero keys. -/
def hash (bs : List UInt8) : UInt64 :=
  let s : State :=
    { v0 := 0x736f6d6570736575, v1 := 0x646f72616e646f6d, v2 := 0x6c7967656e657261,
      v3 := 0x7465646279746573 }
  let s := (blocks bs.length bs.length bs).foldl State.absorb s
  let s := State.round (State.round (State.round { s with v2 := s.v2 ^^^ 0xff }))
  s.v0 ^^^ s.v1 ^^^ s.v2 ^^^ s.v3

/-- The bytes of a word, the lowest first. -/
def leBytes (w : UInt64) : List UInt8 :=
  (List.range 8).map fun i => (w >>> UInt64.ofNat (8 * i)).toUInt8

/-- The bytes a call feeds to the hasher. -/
def bytesOf : Write → List UInt8
  | .u8 b => [b]
  | .u64 w => leBytes w
  | .i64 n => leBytes (wordOfInt n.val)
  | .usize n => leBytes (UInt64.ofNat n)
  | .str s => (String.ofList s).toUTF8.toList ++ [0xFF]
  | .bytes bs => bs

/-- **`DefaultHasher`.** -/
def digest : Digest := fun ws => hash (ws.flatMap bytesOf)

end SipHash

/-! ### What the predicates leave open -/

section Alike

variable (fp : FlonumOps) (h : Store)

/-- Two values look alike down to a depth: the same value, `eqv?` numbers, the same text or
bytes, or pairs and vectors of values that look alike. -/
def Alike : ℕ → Value → Value → Prop
  | 0, _, _ => True
  | d + 1, a, b =>
    a = b ∨
    (∃ x y, a = .number x ∧ b = .number y ∧ a.eqv fp b = true) ∨
    (∃ x y s, a = .string x ∧ b = .string y ∧
      h[x]? = some (.string s) ∧ h[y]? = some (.string s)) ∨
    (∃ x y xa xd ya yd, a = .pair x ∧ b = .pair y ∧
      h[x]? = some (.pair xa xd) ∧ h[y]? = some (.pair ya yd) ∧ Alike d xa ya ∧ Alike d xd yd) ∨
    (∃ x y xs ys, a = .vector x ∧ b = .vector y ∧
      h[x]? = some (.vector xs) ∧ h[y]? = some (.vector ys) ∧ List.Forall₂ (Alike d) xs ys) ∨
    (∃ x y s, a = .byteVector x ∧ b = .byteVector y ∧
      h[x]? = some (.byteVector s) ∧ h[y]? = some (.byteVector s))

/-- **Numbers at corresponding places are the same**, down to a depth: the same representation
and the same contents. -/
def SameNumbers : ℕ → Value → Value → Prop
  | 0, _, _ => True
  | d + 1, a, b =>
    match a, b with
    | .number x, .number y => x = y
    | .pair x, .pair y =>
      match h[x]?, h[y]? with
      | some (.pair xa xd), some (.pair ya yd) => SameNumbers d xa ya ∧ SameNumbers d xd yd
      | _, _ => True
    | .vector x, .vector y =>
      match h[x]?, h[y]? with
      | some (.vector xs), some (.vector ys) => ∀ p ∈ xs.zip ys, SameNumbers d p.1 p.2
      | _, _ => True
    | _, _ => True

/-- As far as the hash of a kind looks, numbers at corresponding places are the same. -/
def EqKind.SameNumbers (a b : Value) : EqKind → Prop
  | .eq => True
  | .eqv => Data.SameNumbers h 1 a b
  | .equal => Data.SameNumbers h 16 a b

variable {fp h}
variable {a b : Value} {route : ℕ → ℕ} {m : ℕ}

lemma alike_of_eqv (heqv : a.eqv fp b = true) (d : ℕ) : Alike fp h d a b := by
  cases d with
  | zero => trivial
  | succ d =>
    rcases Value.eq_of_eqv fp heqv with rfl | ⟨x, y, rfl, rfl⟩
    · exact .inl rfl
    · exact .inr (.inl ⟨x, y, rfl, rfl, heqv⟩)

lemma forall₂_of_allEqual {f : Value → Value → Visited → Option (Bool × Visited)}
    {R : Value → Value → Prop}
    (hf : ∀ a b visited visited', f a b visited = some (true, visited') → R a b)
    {xs ys : List Value} (hlen : xs.length = ys.length) {visited visited' : Visited}
    (hall : allEqual f (xs.zip ys) visited = some (true, visited')) : List.Forall₂ R xs ys := by
  induction xs generalizing ys visited with
  | nil =>
    obtain rfl : ys = [] := List.eq_nil_of_length_eq_zero hlen.symm
    exact .nil
  | cons x xs ih =>
    cases ys with
    | nil => simp at hlen
    | cons y ys =>
      rw [List.zip_cons_cons, allEqual] at hall
      split at hall
      · rename_i visited1 hxy
        exact .cons (hf x y _ _ hxy) (ih (by simpa using hlen) hall)
      · rename_i hne
        exact absurd hall (hne visited')

lemma alike_of_equalRec {n d fuel : ℕ} {visited visited' : Visited}
    (heq : equalRec fp h n a b visited fuel = some (true, visited')) (hd : d ≤ fuel) :
    Alike fp h d a b := by
  induction n generalizing d fuel a b visited visited' with
  | zero => simp [equalRec] at heq
  | succ n ih =>
    by_cases heqv : a.eqv fp b = true
    · exact alike_of_eqv heqv d
    cases d with
    | zero => trivial
    | succ d =>
    have hfuel : fuel ≠ 0 := by omega
    have hd' : d ≤ fuel - 1 := by omega
    unfold equalRec at heq
    rw [if_neg heqv] at heq
    split at heq
    · rename_i x y
      split at heq
      · rename_i s t hx hy
        obtain ⟨hst, -⟩ : s = t ∧ visited = visited' := by simpa using heq
        exact .inr (.inr (.inl ⟨x, y, s, rfl, rfl, hx, hst ▸ hy⟩))
      · simp at heq
    · rename_i x y
      split at heq
      · rename_i xa xd ya yd hx hy
        simp only [hfuel, false_and, if_false] at heq
        split at heq
        · rename_i visited1 hcar
          exact .inr (.inr (.inr (.inl ⟨x, y, xa, xd, ya, yd, rfl, rfl, hx, hy, ih hcar hd',
            ih heq hd'⟩)))
        · rename_i hne
          exact absurd heq (hne visited')
      · simp at heq
    · rename_i x y
      split at heq
      · rename_i xs ys hx hy
        split at heq
        · simp at heq
        · rename_i hlen
          refine .inr (.inr (.inr (.inr (.inl ⟨x, y, xs, ys, rfl, rfl, hx, hy, ?_⟩))))
          exact forall₂_of_allEqual (fun a b v v' hab => ih hab hd') (not_not.1 hlen) heq
      · simp at heq
    · rename_i x y
      split at heq
      · rename_i s t hx hy
        obtain ⟨hst, -⟩ : s = t ∧ visited = visited' := by simpa using heq
        exact .inr (.inr (.inr (.inr (.inr ⟨x, y, s, rfl, rfl, hx, hst ▸ hy⟩))))
      · simp at heq
    · simp at heq

lemma sameNumbers_pair {x y d : ℕ} {xa xd ya yd : Value} (hx : h[x]? = some (.pair xa xd))
    (hy : h[y]? = some (.pair ya yd)) :
    SameNumbers h (d + 1) (.pair x) (.pair y) ↔ SameNumbers h d xa ya ∧ SameNumbers h d xd yd := by
  simp only [SameNumbers, hx, hy]

lemma sameNumbers_vector {x y d : ℕ} {xs ys : List Value} (hx : h[x]? = some (.vector xs))
    (hy : h[y]? = some (.vector ys)) :
    SameNumbers h (d + 1) (.vector x) (.vector y) ↔
      ∀ p ∈ xs.zip ys, SameNumbers h d p.1 p.2 := by
  simp only [SameNumbers, hx, hy]

lemma sameNumbers_self (d : ℕ) (v : Value) : SameNumbers h d v v := by
  induction d generalizing v with
  | zero => trivial
  | succ d ih =>
    cases v with
    | number x => exact rfl
    | pair x =>
      unfold SameNumbers
      dsimp only
      split
      · rename_i xa xd ya yd hx hy
        obtain ⟨rfl, rfl⟩ : xa = ya ∧ xd = yd := by simpa [hx] using hy
        exact ⟨ih xa, ih xd⟩
      · trivial
    | vector x =>
      unfold SameNumbers
      dsimp only
      split
      · rename_i xs ys hx hy
        obtain rfl : xs = ys := by simpa [hx] using hy
        rintro ⟨a, b⟩ hp
        obtain ⟨i, hi⟩ := List.mem_iff_getElem?.1 hp
        obtain ⟨ha, hb⟩ := List.getElem?_zip_eq_some.1 hi
        obtain rfl : a = b := Option.some.inj (ha.symm.trans hb)
        exact ih a
      · trivial
    | _ => trivial

/-! ### Agreement -/

section Shapes

variable {digest : Digest} {d x : ℕ}

lemma hashEqual_number (n : Number) :
    hashEqual digest h (d + 1) (.number n) = digest (numberWrites n) := rfl

lemma hashEqual_string {s : List Char} (hx : h[x]? = some (.string s)) :
    hashEqual digest h (d + 1) (.string x) = digest [.u8 10, .str s] := by
  simp only [hashEqual, hx]

lemma hashEqual_pair {car cdr : Value} (hx : h[x]? = some (.pair car cdr)) :
    hashEqual digest h (d + 1) (.pair x) = digest [.u8 11, .u64 (hashEqual digest h d car),
      .u64 (hashEqual digest h d cdr)] := by
  simp only [hashEqual, hx]

lemma hashEqual_vector {items : List Value} (hx : h[x]? = some (.vector items)) :
    hashEqual digest h (d + 1) (.vector x) = digest (.u8 12 :: .usize items.length ::
      items.map fun item => .u64 (hashEqual digest h d item)) := by
  simp only [hashEqual, hx]

lemma hashEqual_byteVector {bs : List UInt8} (hx : h[x]? = some (.byteVector bs)) :
    hashEqual digest h (d + 1) (.byteVector x) =
      digest [.u8 13, .usize bs.length, .bytes bs] := by
  simp only [hashEqual, hx]

end Shapes

lemma hashEqual_eq_of_alike {digest : Digest} {d : ℕ} (hab : Alike fp h d a b)
    (hsame : SameNumbers h d a b) : hashEqual digest h d a = hashEqual digest h d b := by
  induction d generalizing a b with
  | zero => rfl
  | succ d ih =>
    rcases hab with rfl | ⟨x, y, rfl, rfl, -⟩ | ⟨x, y, s, rfl, rfl, hx, hy⟩ |
      ⟨x, y, xa, xd, ya, yd, rfl, rfl, hx, hy, hcar, hcdr⟩ |
      ⟨x, y, xs, ys, rfl, rfl, hx, hy, hitems⟩ | ⟨x, y, s, rfl, rfl, hx, hy⟩
    · rfl
    · obtain rfl : x = y := hsame
      rfl
    · rw [hashEqual_string hx, hashEqual_string hy]
    · obtain ⟨hscar, hscdr⟩ := (sameNumbers_pair hx hy).1 hsame
      rw [hashEqual_pair hx, hashEqual_pair hy, ih hcar hscar, ih hcdr hscdr]
    · have hs := (sameNumbers_vector hx hy).1 hsame
      have hmap : xs.map (fun item => Write.u64 (hashEqual digest h d item)) =
          ys.map fun item => Write.u64 (hashEqual digest h d item) := by
        clear hsame hx hy
        induction hitems with
        | nil => rfl
        | @cons a b _ _ hab _ ihs =>
          rw [List.map_cons, List.map_cons, ih hab (hs (a, b) (by simp)),
            ihs fun p hp => hs p (by simp [hp])]
      rw [hashEqual_vector hx, hashEqual_vector hy, hmap, hitems.length_eq]
    · rw [hashEqual_byteVector hx, hashEqual_byteVector hy]

/-! ### A hasher that tells different numbers apart -/

/-- The word of the `i`-th of some calls. -/
def wordAt (ws : List Write) (i : ℕ) : UInt64 :=
  match ws[i]? with
  | some (.u64 w) => w
  | _ => 0

/-- Bit `m` of a word. -/
def bit (w : UInt64) (m : ℕ) : Bool := w.toNat.testBit m

/-- The word whose bit `k + 1` is bit `k` of the item `route k`. -/
def routed (route : ℕ → ℕ) (items : List Write) : UInt64 :=
  UInt64.ofNat (Nat.ofBits fun i : Fin 64 =>
    i.val != 0 && bit (wordAt items (route (i.val - 1))) (i.val - 1))

/-- **A probing hasher.** It answers `1` to one sequence of calls. Of a pair or a vector it moves
one bit of one item's hash, the item that `route` names, one place up: bit `m` of a hash then
tells whether the number at the end of a path of length `m` is the one looked for. -/
def probe (mark : List Write) (route : ℕ → ℕ) : Digest
  | .u8 11 :: items => routed route items
  | .u8 12 :: .usize _ :: items => routed route items
  | ws => if ws = mark then 1 else 0

lemma bit_routed {items : List Write} (hm : m + 1 < 64) :
    bit (routed route items) (m + 1) = bit (wordAt items (route m)) m := by
  rw [routed, bit, UInt64.toNat_ofNat', Nat.testBit_mod_two_pow]
  simp [hm]

lemma probe_numberWrites (mark : List Write) (route : ℕ → ℕ) (n : Number) :
    probe mark route (numberWrites n) = if numberWrites n = mark then 1 else 0 := by
  cases n <;> rfl

lemma numberWrites_ne {x y : Number} (heqv : (Value.number x).eqv fp (.number y) = true)
    (hne : x ≠ y) : numberWrites x ≠ numberWrites y := by
  have hvalue : x.eqValue fp y = true := by
    simp only [Value.eqv, Value.asNumber, Bool.and_eq_true] at heqv
    exact heqv.2
  intro hw
  apply hne
  -- two representations have two tags, and exact numbers of one representation are equal
  cases x with
  | flonum f =>
    cases y with
    | flonum g =>
      obtain ⟨bits⟩ := f
      obtain ⟨bits'⟩ := g
      simpa [numberWrites] using hw
    | _ => simp [numberWrites] at hw
  | _ => cases y <;> simp_all [numberWrites, Number.eqValue, Number.toRational]

lemma bit_routed_item {route' : ℕ → ℕ} {items : List Write} {i : ℕ} {w : UInt64}
    (hroute : ∀ k < m + 1, route' k = Function.update route m i k) (hm : m + 1 < 64)
    (hitem : items[i]? = some (.u64 w)) : bit (routed route' items) (m + 1) = bit w m := by
  rw [bit_routed hm, hroute m (by omega), Function.update_self, wordAt, hitem]

lemma agree_below {route' : ℕ → ℕ} {i : ℕ}
    (hroute : ∀ k < m + 1, route' k = Function.update route m i k) : ∀ k < m, route' k = route k :=
  fun k hk => by rw [hroute k (by omega), Function.update_of_ne (by omega)]

lemma exists_probe {d : ℕ} (hab : Alike fp h d a b) (hne : ¬ SameNumbers h d a b) (hd : d ≤ 16) :
    ∃ (mark : List Write) (m : ℕ) (route : ℕ → ℕ), m < d ∧
      ∀ route' : ℕ → ℕ, (∀ k < m, route' k = route k) →
        bit (hashEqual (probe mark route') h d a) m = true ∧
        bit (hashEqual (probe mark route') h d b) m = false := by
  induction d generalizing a b with
  | zero => exact absurd trivial hne
  | succ d ih =>
    rcases hab with rfl | ⟨x, y, rfl, rfl, heqv⟩ | ⟨x, y, s, rfl, rfl, hx, hy⟩ |
      ⟨x, y, xa, xd, ya, yd, rfl, rfl, hx, hy, hcar, hcdr⟩ |
      ⟨x, y, xs, ys, rfl, rfl, hx, hy, hitems⟩ | ⟨x, y, s, rfl, rfl, hx, hy⟩
    · exact absurd (sameNumbers_self _ a) hne
    · have hxy : numberWrites x ≠ numberWrites y := numberWrites_ne heqv hne
      refine ⟨numberWrites x, 0, id, by omega, fun route' _ => ?_⟩
      rw [hashEqual_number, hashEqual_number, probe_numberWrites, probe_numberWrites,
        if_pos rfl, if_neg hxy.symm]
      decide
    · exact absurd trivial hne
    · rw [sameNumbers_pair hx hy, not_and_or] at hne
      -- the difference is in the car, item 0, or in the cdr, item 1
      rcases hne with hne | hne
      · obtain ⟨mark, m, route, hm, hbits⟩ := ih hcar hne (by omega)
        refine ⟨mark, m + 1, Function.update route m 0, by omega, fun route' hroute => ?_⟩
        rw [hashEqual_pair hx, hashEqual_pair hy]
        exact ⟨(bit_routed_item hroute (by omega) rfl).trans (hbits route' (agree_below hroute)).1,
          (bit_routed_item hroute (by omega) rfl).trans (hbits route' (agree_below hroute)).2⟩
      · obtain ⟨mark, m, route, hm, hbits⟩ := ih hcdr hne (by omega)
        refine ⟨mark, m + 1, Function.update route m 1, by omega, fun route' hroute => ?_⟩
        rw [hashEqual_pair hx, hashEqual_pair hy]
        exact ⟨(bit_routed_item hroute (by omega) rfl).trans (hbits route' (agree_below hroute)).1,
          (bit_routed_item hroute (by omega) rfl).trans (hbits route' (agree_below hroute)).2⟩
    · rw [sameNumbers_vector hx hy] at hne
      push Not at hne
      obtain ⟨⟨u, v⟩, hp, hne⟩ := hne
      obtain ⟨i, hi⟩ := List.mem_iff_getElem?.1 hp
      obtain ⟨hu, hv⟩ := List.getElem?_zip_eq_some.1 hi
      have huv : Alike fp h d u v := (List.forall₂_iff_zip.1 hitems).2 hp
      obtain ⟨mark, m, route, hm, hbits⟩ := ih huv hne (by omega)
      refine ⟨mark, m + 1, Function.update route m i, by omega, fun route' hroute => ?_⟩
      rw [hashEqual_vector hx, hashEqual_vector hy]
      exact ⟨(bit_routed_item hroute (by omega) (by simp [hu])).trans
          (hbits route' (agree_below hroute)).1,
        (bit_routed_item hroute (by omega) (by simp [hv])).trans
          (hbits route' (agree_below hroute)).2⟩
    · exact absurd trivial hne

lemma hashEqual_agrees_iff {d : ℕ} (hab : Alike fp h d a b) (hd : d ≤ 16) :
    (∀ digest, hashEqual digest h d a = hashEqual digest h d b) ↔ SameNumbers h d a b := by
  constructor
  · intro hagree
    by_contra hne
    obtain ⟨mark, m, route, -, hbits⟩ := exists_probe hab hne hd
    obtain ⟨ha, hb⟩ := hbits route fun k _ => rfl
    rw [hagree, hb] at ha
    exact absurd ha (by decide)
  · exact fun hsame digest => hashEqual_eq_of_alike hab hsame

end Alike

/-- **Equivalence and hashing agree** just where equivalent numbers are the same number: if the
predicate of a kind holds of two values, `hash_value` gives them one hash with every hasher, if
and only if, as far as it looks, their numbers have the same representation and contents. -/
theorem hashValue_agrees_iff (fp : FlonumOps) (h : Store) (kind : EqKind) (a b : Value)
    (hab : kind.Holds fp h a b) :
    (∀ digest, hashValue digest h a kind = hashValue digest h b kind) ↔
      kind.SameNumbers h a b := by
  cases kind with
  | eq =>
    obtain ⟨rfl, -⟩ := Value.eq_iff.1 hab
    exact iff_of_true (fun _ => rfl) trivial
  | eqv =>
    rcases Value.eq_of_eqv fp hab with rfl | ⟨x, y, rfl, rfl⟩
    · exact iff_of_true (fun _ => rfl) (sameNumbers_self 1 a)
    · exact hashEqual_agrees_iff (h := h) (alike_of_eqv hab 1) (by decide)
  | equal =>
    obtain ⟨n, visited, heq⟩ := hab
    exact hashEqual_agrees_iff (alike_of_equalRec heq (by decide)) le_rfl

/-- Two lists of one fixnum. -/
def twoLists : Store :=
  [.pair (.number (.fixnum (I64.ofNat 5))) .null, .pair (.number (.fixnum (I64.ofNat 5))) .null]

/-- Two lists with the same fixnum are `equal?` and hash alike. -/
theorem hashValue_agrees_twoLists :
    EqKind.equal.Holds FlonumOps.coarse twoLists (.pair 0) (.pair 1) ∧
      ((∀ digest, hashValue digest twoLists (.pair 0) .equal =
          hashValue digest twoLists (.pair 1) .equal) ↔
        EqKind.equal.SameNumbers twoLists (.pair 0) (.pair 1)) :=
  have hequal : EqKind.equal.Holds FlonumOps.coarse twoLists (.pair 0) (.pair 1) :=
    ⟨2, [], by decide⟩
  ⟨hequal, hashValue_agrees_iff FlonumOps.coarse twoLists .equal (.pair 0) (.pair 1) hequal⟩

/-- **Zeros of different sign** are `eqv?`, and the hasher of the standard library gives them
different hashes. -/
theorem zeros_hash_differently :
    (Value.number (.flonum ⟨0⟩)).eqv { FlonumOps.coarse with eq := F64.ieeeEq }
        (.number (.flonum F64.negZero)) = true ∧
      hashValue SipHash.digest [] (.number (.flonum ⟨0⟩)) .eqv ≠
        hashValue SipHash.digest [] (.number (.flonum F64.negZero)) .eqv := by
  decide +kernel

end CrabScheme.Data
