import Mathlib

/-!
# Boxed values

A value is carried in one 64-bit word. A double is its own bits. Everything else lies among the
quiet NaNs with a sign: four bits of tag and 47 of payload. An address has its low bit free, so
it is shifted down by one, and the freed bit tells a region from the counted heap.

## Main results

* `Value.toValue_fromValue` — decoding undoes encoding, and no two values share a word.
-/

namespace CrabScheme

namespace Nanbox

/-! ### Words -/

/-- `NB_SIGNATURE_MASK` and `NB_SIGNATURE_BITS`. -/
def nbSignatureBits : BitVec 64 := 0xFFF8000000000000#64

/-- `NB_TAG_MASK`. -/
def nbTagMask : BitVec 64 := 0xF#64 <<< 47

/-- `NB_PAYLOAD_MASK`. -/
def nbPayloadMask : BitVec 64 := 1#64 <<< 47 - 1

/-- `NB_REGION_FLAG`. -/
def nbRegionFlag : BitVec 64 := 1#64

/-- `nb_is_tagged`. -/
def nbIsTagged (bits : BitVec 64) : Bool := bits &&& nbSignatureBits == nbSignatureBits

/-- `nb_tag_of`. -/
def nbTagOf (bits : BitVec 64) : BitVec 64 := (bits &&& nbTagMask) >>> 47

/-- `nb_payload_of`. -/
def nbPayloadOf (bits : BitVec 64) : BitVec 64 := bits &&& nbPayloadMask

/-- `nb_make`. -/
def nbMake (tag payload : BitVec 64) : BitVec 64 :=
  nbSignatureBits ||| (tag &&& 0xF#64) <<< 47 ||| payload &&& nbPayloadMask

/-- `nb_encode_gc_ptr`. -/
def nbEncodeGcPtr (ptr : BitVec 64) (isRegion : Bool) : BitVec 64 :=
  ptr >>> 1 ||| (BitVec.ofBool isRegion).setWidth 64

/-- `nb_decode_gc_ptr`. -/
def nbDecodeGcPtr (payload : BitVec 64) : BitVec 64 × Bool :=
  ((payload &&& ~~~nbRegionFlag) <<< 1, payload &&& nbRegionFlag != 0#64)

/-- `nb_sign_extend_47`. -/
def nbSignExtend47 (payload : BitVec 64) : BitVec 64 := (payload <<< 17).sshiftRight 17

/-- `nb_encode_flonum`. -/
def nbEncodeFlonum (bits : BitVec 64) : BitVec 64 :=
  if nbIsTagged bits then 0x7FF8000000000000#64 else bits

lemma mask_getLsbD (mask : BitVec 64) (P : ℕ → Prop) [DecidablePred P]
    (h : ∀ i < 64, mask.getLsbD i = decide (P i)) (i : ℕ) :
    mask.getLsbD i = (decide (P i) && decide (i < 64)) := by
  by_cases hi : i < 64
  · rw [h i hi, decide_eq_true hi, Bool.and_true]
  · rw [BitVec.getLsbD_of_ge _ _ (by omega), decide_eq_false hi, Bool.and_false]

lemma getLsbD_signature (i : ℕ) :
    nbSignatureBits.getLsbD i = (decide (51 ≤ i) && decide (i < 64)) :=
  mask_getLsbD _ (51 ≤ ·) (by decide) i

lemma getLsbD_tagMask (i : ℕ) :
    nbTagMask.getLsbD i = (decide (47 ≤ i ∧ i < 51) && decide (i < 64)) :=
  mask_getLsbD _ (fun i => 47 ≤ i ∧ i < 51) (by decide) i

lemma getLsbD_payloadMask (i : ℕ) :
    nbPayloadMask.getLsbD i = (decide (i < 47) && decide (i < 64)) :=
  mask_getLsbD _ (· < 47) (by decide) i

lemma getLsbD_fifteen (i : ℕ) : (0xF#64).getLsbD i = (decide (i < 4) && decide (i < 64)) :=
  mask_getLsbD _ (· < 4) (by decide) i

lemma getLsbD_regionFlag (i : ℕ) : nbRegionFlag.getLsbD i = (decide (i = 0) && decide (i < 64)) :=
  mask_getLsbD _ (· = 0) (by decide) i

lemma nbIsTagged_nbMake (tag payload : BitVec 64) : nbIsTagged (nbMake tag payload) := by
  simp only [nbIsTagged, beq_iff_eq]
  ext i hi
  simp only [nbMake, BitVec.getElem_and, BitVec.getElem_or]
  cases nbSignatureBits[i] <;> simp

lemma nbTagOf_nbMake (tag payload : BitVec 64) : nbTagOf (nbMake tag payload) = tag &&& 0xF#64 := by
  apply BitVec.eq_of_getLsbD_eq
  intro i hi
  simp only [nbTagOf, nbMake, BitVec.getLsbD_and, BitVec.getLsbD_or, BitVec.getLsbD_shiftLeft,
    BitVec.getLsbD_ushiftRight, getLsbD_signature, getLsbD_tagMask, getLsbD_payloadMask,
    getLsbD_fifteen]
  by_cases h4 : i < 4
  · simp [show 47 + i < 51 by omega,
      show 47 + i < 64 by omega]
  · simp [h4, show ¬47 + i < 51 by omega]

lemma nbPayloadOf_nbMake (tag payload : BitVec 64) :
    nbPayloadOf (nbMake tag payload) = payload &&& nbPayloadMask := by
  apply BitVec.eq_of_getLsbD_eq
  intro i hi
  simp only [nbPayloadOf, nbMake, BitVec.getLsbD_and, BitVec.getLsbD_or,
    getLsbD_signature, getLsbD_payloadMask]
  by_cases h47 : i < 47
  · simp [h47, show ¬51 ≤ i by omega]
  · simp [h47]

/-- The addresses a box can hold: aligned to eight bytes, of 48 bits. -/
def Addressable (ptr : BitVec 64) : Prop := ptr.toNat % 8 = 0 ∧ ptr.toNat < 2 ^ 48

lemma nbDecodeGcPtr_nbEncodeGcPtr {ptr : BitVec 64} (h : Addressable ptr) (isRegion : Bool) :
    nbDecodeGcPtr (nbEncodeGcPtr ptr isRegion &&& nbPayloadMask) = (ptr, isRegion) := by
  obtain ⟨halign, hlt⟩ := h
  have hlow : ∀ i < 3, ptr.getLsbD i = false := by
    intro i hi
    rw [BitVec.getLsbD, Nat.testBit_eq_decide_div_mod_eq, decide_eq_false_iff_not]
    interval_cases i <;> omega
  have hhigh : ∀ i, 48 ≤ i → ptr.getLsbD i = false := fun i hi =>
    Nat.testBit_lt_two_pow (hlt.trans_le (Nat.pow_le_pow_right (by decide) hi))
  refine Prod.ext (BitVec.eq_of_getLsbD_eq fun i hi => ?_) ?_
  · match i with
    | 0 => simp [nbDecodeGcPtr, hlow, -BitVec.getLsbD_eq_getElem]
    | 1 => simp [nbDecodeGcPtr, hlow, getLsbD_regionFlag, -BitVec.getLsbD_eq_getElem]
    | i + 2 =>
      by_cases h47 : i + 1 < 47
      · simp [nbDecodeGcPtr, nbEncodeGcPtr, hi, h47, getLsbD_payloadMask, getLsbD_regionFlag,
          show i + 1 < 64 by omega, show 1 + (i + 1) = i + 2 by omega, -BitVec.getLsbD_eq_getElem]
      · simp [nbDecodeGcPtr, h47, getLsbD_payloadMask, hhigh (i + 2) (by omega)]
  · cases isRegion <;>
      simp [nbDecodeGcPtr, nbEncodeGcPtr, nbRegionFlag, BitVec.and_one_eq_setWidth_ofBool_getLsbD,
        hlow, getLsbD_payloadMask, -BitVec.getLsbD_eq_getElem]

lemma nbSignExtend47_and {n : BitVec 64} (hlo : -(2 ^ 46) ≤ n.toInt) (hhi : n.toInt < 2 ^ 46) :
    nbSignExtend47 (n &&& nbPayloadMask) = n := by
  apply BitVec.eq_of_toInt_eq
  have hmask : (n &&& nbPayloadMask).toNat = n.toNat % 2 ^ 47 := by
    rw [BitVec.toNat_and, show nbPayloadMask.toNat = 2 ^ 47 - 1 by decide,
      Nat.and_two_pow_sub_one_eq_mod]
  rw [nbSignExtend47, BitVec.toInt_sshiftRight, BitVec.toInt_shiftLeft,
    Int.shiftRight_eq_div_pow]
  rw [BitVec.toInt_eq_toNat_cond] at *
  simp only [Int.bmod]
  omega

lemma setWidth_and_payloadMask (n : BitVec 32) :
    (n.setWidth 64 &&& nbPayloadMask).setWidth 32 = n := by
  apply BitVec.eq_of_getLsbD_eq
  intro i hi
  simp [hi, getLsbD_payloadMask, show i < 47 by omega, show i < 64 by omega]

/-! ### Values -/

/-- The kinds of values that are carried by their handle. -/
inductive Pointee
  | pair | vector | string | byteVector | hashtable | port | promise

/-- The tag of a kind. -/
def Pointee.tag : Pointee → BitVec 64
  | .pair => 7
  | .vector => 8
  | .string => 9
  | .byteVector => 10
  | .hashtable => 12
  | .port => 13
  | .promise => 14

/-- `Value`, with a handle as its address and region flag and a procedure as its slot of the side
table; `W` are the values that are always wrapped. -/
inductive Value (W : Type)
  | null | unspecified | eof
  | boolean (b : Bool)
  | character (c : Char)
  | symbol (s : BitVec 32)
  | fixnum (n : BitVec 64)
  | flonum (bits : BitVec 64)
  | pointer (kind : Pointee) (ptr : BitVec 64) (isRegion : Bool)
  | procedure (slot : BitVec 32)
  | wrapped (w : W)

namespace Value

/-- `char::from_u32`, with the replacement character for what is none. -/
def charFromU32 (cp : BitVec 32) : Char :=
  if h : cp.toNat.isValidChar then Char.ofNatAux cp.toNat h else Char.ofNat 0xFFFD

section

variable {W : Type} (gcNew : Value W → BitVec 64) (deref : BitVec 64 → Value W)

/-- The `NB_TAG_GC_VALUE` path: the value goes to the heap, at `gcNew`. -/
def wrap (v : Value W) : BitVec 64 := nbMake 15 (nbEncodeGcPtr (gcNew v) false)

/-- `NanboxValue::boolean`. -/
def nbBoolean (b : Bool) : BitVec 64 :=
  if b then nbSignatureBits ||| 1 <<< 47 ||| 1 else nbSignatureBits ||| 1 <<< 47

/-- `NB_FIXNUM_MIN` to `NB_FIXNUM_MAX`. -/
def FitsFixnum (n : BitVec 64) : Prop := -(2 ^ 46) ≤ n.toInt ∧ n.toInt ≤ 2 ^ 46 - 1

instance (n : BitVec 64) : Decidable (FitsFixnum n) := inferInstanceAs (Decidable (_ ∧ _))

/-- `NanboxValue::from_value`. -/
def fromValue : Value W → BitVec 64
  | .null => nbSignatureBits ||| 4 <<< 47
  | .unspecified => nbSignatureBits ||| 5 <<< 47
  | .eof => nbSignatureBits ||| 6 <<< 47
  | .boolean b => nbBoolean b
  | .character c => nbMake 2 (c.val.toBitVec.setWidth 64)
  | .symbol s => nbMake 3 (s.setWidth 64)
  | .fixnum n =>
    if FitsFixnum n then nbMake 0 (n &&& nbPayloadMask) else wrap gcNew (.fixnum n)
  | .flonum bits => nbEncodeFlonum bits
  | .pointer kind ptr isRegion => nbMake kind.tag (nbEncodeGcPtr ptr isRegion)
  | .procedure slot => nbMake 11 (slot.setWidth 64)
  | .wrapped w => wrap gcNew (.wrapped w)

/-- The arms of `to_value`; `deref` reads a wrapped value from the heap. -/
def ofTagged (tag payload : BitVec 64) : Value W :=
  let (ptr, isRegion) := nbDecodeGcPtr payload
  match tag.toNat with
  | 0 => .fixnum (nbSignExtend47 payload)
  | 1 => .boolean (payload != 0)
  | 2 => .character (charFromU32 (payload.setWidth 32 &&& 0x1FFFFF))
  | 3 => .symbol (payload.setWidth 32)
  | 4 => .null
  | 5 => .unspecified
  | 6 => .eof
  | 7 => .pointer .pair ptr isRegion
  | 8 => .pointer .vector ptr isRegion
  | 9 => .pointer .string ptr isRegion
  | 10 => .pointer .byteVector ptr isRegion
  | 11 => .procedure (payload.setWidth 32)
  | 12 => .pointer .hashtable ptr isRegion
  | 13 => .pointer .port ptr isRegion
  | 14 => .pointer .promise ptr isRegion
  | _ => deref ptr

/-- `NanboxValue::to_value`. -/
def toValue (bits : BitVec 64) : Value W :=
  if nbIsTagged bits then ofTagged deref (nbTagOf bits) (nbPayloadOf bits) else .flonum bits

/-- The heap gives a wrapped value back. -/
def Wraps (v : Value W) : Prop := Addressable (gcNew v) ∧ deref (gcNew v) = v

/-- The values a word carries. -/
def Encodable : Value W → Prop
  | .fixnum n => FitsFixnum n ∨ Wraps gcNew deref (.fixnum n)
  | .pointer _ ptr _ => Addressable ptr
  | .wrapped w => Wraps gcNew deref (.wrapped w)
  | _ => True

/-- The value with every NaN replaced by `NB_NAN_BITS`. -/
def identifyNaN : Value W → Value W
  | .flonum bits =>
    if 0xFFE0000000000000#64 < bits <<< 1 then .flonum 0x7FF8000000000000#64 else .flonum bits
  | v => v

variable {gcNew deref}

lemma charFromU32_val (c : Char) : charFromU32 (c.val.toBitVec &&& 0x1FFFFF) = c := by
  have hc : c.val.toBitVec &&& 0x1FFFFF = c.val.toBitVec := by
    apply BitVec.eq_of_toNat_eq
    rw [BitVec.toNat_and, show (0x1FFFFF : BitVec 32).toNat = 2 ^ 21 - 1 by decide,
      Nat.and_two_pow_sub_one_eq_mod]
    have := c.valid
    simp only [UInt32.isValidChar, UInt32.toNat] at this
    omega
  rw [hc, charFromU32, dif_pos (show c.val.toBitVec.toNat.isValidChar from c.valid)]
  rfl

lemma toValue_nbMake (tag payload : BitVec 64) :
    toValue deref (nbMake tag payload) =
      ofTagged deref (tag &&& 0xF#64) (payload &&& nbPayloadMask) := by
  rw [toValue, if_pos (nbIsTagged_nbMake tag payload), nbTagOf_nbMake, nbPayloadOf_nbMake]

lemma toValue_wrap {v : Value W} (h : Wraps gcNew deref v) : toValue deref (wrap gcNew v) = v := by
  rw [wrap, toValue_nbMake, ofTagged, nbDecodeGcPtr_nbEncodeGcPtr h.1]
  exact h.2

lemma identifyNaN_toValue_fromValue {v : Value W} (h : Encodable gcNew deref v) :
    identifyNaN (toValue deref (fromValue gcNew v)) = identifyNaN v := by
  cases v with
  | null =>
    rw [fromValue]
    rfl
  | unspecified =>
    rw [fromValue]
    rfl
  | eof =>
    rw [fromValue]
    rfl
  | boolean b =>
    have hb : nbBoolean b = nbMake 1 (if b then 1 else 0) := by cases b <;> decide
    rw [fromValue]
    cases b <;> rfl
  | character c =>
    rw [fromValue, toValue_nbMake, ofTagged, setWidth_and_payloadMask, charFromU32_val]
    rfl
  | symbol s =>
    rw [fromValue, toValue_nbMake, ofTagged, setWidth_and_payloadMask]
    rfl
  | procedure slot =>
    rw [fromValue, toValue_nbMake, ofTagged, setWidth_and_payloadMask]
    rfl
  | fixnum n =>
    rw [fromValue]
    split_ifs with hfit
    · rw [toValue_nbMake, ofTagged, BitVec.and_assoc, BitVec.and_self,
        nbSignExtend47_and hfit.1 (by have := hfit.2; omega)]
      rfl
    · rw [toValue_wrap (h.resolve_left hfit)]
  | flonum bits =>
    rw [fromValue, nbEncodeFlonum]
    split_ifs with htag
    · have hle : nbSignatureBits.toNat ≤ bits.toNat := by
        rw [nbIsTagged, beq_iff_eq] at htag
        rw [← htag]
        exact Nat.and_le_left
      have hnan : 0xFFE0000000000000#64 < bits <<< 1 := by
        rw [BitVec.lt_def, BitVec.toNat_shiftLeft]
        simp only [nbSignatureBits, BitVec.toNat_ofNat] at *
        omega
      rw [identifyNaN, if_pos hnan]
      rfl
    · rw [toValue, if_neg htag]
  | pointer kind ptr isRegion =>
    rw [fromValue, toValue_nbMake, ofTagged, nbDecodeGcPtr_nbEncodeGcPtr h]
    cases kind <;> rfl
  | wrapped w => rw [fromValue, toValue_wrap h]

end

/-- **The encoding is faithful**: decoding gives the value back, all NaNs taken as one, and no two
values share a word. -/
theorem toValue_fromValue {W : Type} (gcNew : Value W → BitVec 64) (deref : BitVec 64 → Value W)
    (v : {v // Encodable gcNew deref v}) :
    identifyNaN (toValue deref (fromValue gcNew v.1)) = identifyNaN v.1 ∧
      ∀ w : {v // Encodable gcNew deref v}, fromValue gcNew v.1 = fromValue gcNew w.1 →
        identifyNaN v.1 = identifyNaN w.1 := by
  have hv := identifyNaN_toValue_fromValue v.2
  refine ⟨hv, fun w heq => ?_⟩
  rw [← hv, heq, identifyNaN_toValue_fromValue w.2]

end Value

end Nanbox

end CrabScheme
