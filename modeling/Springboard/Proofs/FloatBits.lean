import Mathlib
import Springboard.Number.Binary64

/-!
# The bits of floats

A float is made of its bits, which are a sign, an exponent and a mantissa. The negative of a float
has the same bits but for the sign, and there is only one float that is no number.
-/

namespace Springboard.Binary64

open Float.Model Float.Model.UnpackedFloat

/-- The mantissa is the lowest fifty-two bits. -/
theorem toNat_unpackMantissa (b : BitVec Format.binary64.numBits) :
  (unpackMantissa b).toNat = b.toNat % 2 ^ 52
  := by
  rw [unpackMantissa_def, BitVec.extractLsb'_toNat, Nat.shiftRight_zero]

/-- The exponent is the eleven bits above the mantissa. -/
theorem toNat_unpackExponent (b : BitVec Format.binary64.numBits) :
  (unpackExponent b).toNat = b.toNat / 2 ^ 52 % 2 ^ 11
  := by
  rw [unpackExponent_def, BitVec.extractLsb'_toNat, Nat.shiftRight_eq_div_pow]

/-- Bits of a finite or infinite float are kept. -/
theorem toBits_ofBits {b : UInt64} (hb : b.toNat % twoTo 63 ≤ infinityBits) :
  (Float.ofBits b).toBits = b
  := by
  have hvalid : Format.binary64.Valid b.toBitVec := by
    constructor
    intro hexponent hmantissa
    have hexp := congrArg BitVec.toNat hexponent
    have hmant : (@unpackMantissa Format.binary64 b.toBitVec).toNat ≠ 0 := by
      intro h
      exact hmantissa (BitVec.eq_of_toNat_eq h)
    rw [toNat_unpackExponent] at hexp
    rw [toNat_unpackMantissa] at hmant
    replace hexp : b.toNat / 2 ^ 52 % 2 ^ 11 = 2047 := hexp
    replace hmant : b.toNat % 2 ^ 52 ≠ 0 := hmant
    replace hb : b.toNat % 2 ^ 63 ≤ 2047 * 2 ^ 52 := hb
    omega
  show UInt64.ofBitVec (UnpackedFloat.pack Format.binary64
    (UnpackedFloat.unpack Format.binary64 b.toBitVec)) = b
  rw [pack_unpack_of_valid hvalid]

/-! ### Signs -/

/-- The sign is the highest bit. -/
theorem ofBitVec_unpackSign (b : BitVec Format.binary64.numBits) :
  Sign.ofBitVec (unpackSign b) = if 2 ^ 63 ≤ b.toNat then .negative else .positive
  := by
  have hlt : b.toNat < 2 ^ 64 := b.isLt
  have hnat : (unpackSign b).toNat = b.toNat / 2 ^ 63 % 2 := by
    rw [unpackSign_def, BitVec.extractLsb'_toNat, Nat.shiftRight_eq_div_pow]
    rfl
  have hzero : unpackSign b = 0#1 ↔ b.toNat / 2 ^ 63 % 2 = 0 := by
    rw [← BitVec.toNat_inj, hnat]
    rfl
  rw [Sign.ofBitVec]
  by_cases h : 2 ^ 63 ≤ b.toNat
  · rw [if_pos h, if_neg]
    intro hsign
    have := hzero.mp hsign
    omega
  · rw [if_neg h, if_pos]
    exact hzero.mpr (by omega)

/-- Unpacked floats that differ in their signs. -/
theorem neg_unpack {b b' : BitVec Format.binary64.numBits}
    (hmantissa : unpackMantissa b' = unpackMantissa b)
    (hexponent : unpackExponent b' = unpackExponent b)
    (hpositive : Sign.ofBitVec (unpackSign b) = .positive)
    (hnegative : Sign.ofBitVec (unpackSign b') = .negative) :
  (UnpackedFloat.unpack Format.binary64 b).neg = UnpackedFloat.unpack Format.binary64 b'
  := by
  unfold UnpackedFloat.unpack
  dsimp only
  simp only [hmantissa, hexponent, hpositive, hnegative]
  split
  · split <;> rfl
  · split
    · split <;> rfl
    · rfl

/-- The bits of a float without its sign are kept. -/
theorem toNat_toBits_withSign {x : Float} (hx : magnitudeBits x ≤ infinityBits) (negative : Bool) :
  (withSign negative x).toBits.toNat = magnitudeBits x + if negative then twoTo 63 else 0
  := by
  have hsize : infinityBits < 2 ^ 63 := by decide
  have hnat : (UInt64.ofNat (magnitudeBits x + if negative then twoTo 63 else 0)).toNat
      = magnitudeBits x + if negative then twoTo 63 else 0 := by
    rw [UInt64.toNat_ofNat_of_lt']
    have htwo : twoTo 63 = 2 ^ 63 := rfl
    have h64 : UInt64.size = 2 ^ 64 := rfl
    rw [h64]
    split <;> omega
  rw [withSign, toBits_ofBits, hnat]
  rw [hnat]
  have htwo : twoTo 63 = 2 ^ 63 := rfl
  rw [htwo]
  split <;> omega

/-- A float has its bits without the sign, and its sign. -/
theorem withSign_isNegative (x : Float) : withSign (isNegative x) x = x := by
  have hlt : x.toBits.toNat < 2 ^ 64 := x.toBits.toNat_lt
  have hnat : magnitudeBits x + (if isNegative x then twoTo 63 else 0) = x.toBits.toNat := by
    have htwo : twoTo 63 = 2 ^ 63 := rfl
    unfold magnitudeBits isNegative
    rw [htwo]
    split
    · rename_i h
      have := of_decide_eq_true h
      omega
    · rename_i h
      have : ¬ 2 ^ 63 ≤ x.toBits.toNat := fun h' => h (decide_eq_true h')
      omega
  rw [withSign, hnat, UInt64.ofNat_toNat, Float.ofBits_toBits]

/-- The negative of a float is the one with the other sign. -/
theorem neg_withSign {x : Float} (hx : magnitudeBits x ≤ infinityBits) :
  -(withSign false x) = withSign true x
  := by
  have hfalse := toNat_toBits_withSign hx false
  have htrue := toNat_toBits_withSign hx true
  have hsize : infinityBits < 2 ^ 63 := by decide
  have htwo : twoTo 63 = 2 ^ 63 := rfl
  simp only [Bool.false_eq_true, if_false, if_true, Nat.add_zero, htwo] at hfalse htrue
  have hunpack : (UnpackedFloat.unpack Format.binary64 (withSign false x).toBits.toBitVec).neg
      = UnpackedFloat.unpack Format.binary64 (withSign true x).toBits.toBitVec := by
    apply neg_unpack
    · apply BitVec.eq_of_toNat_eq
      rw [toNat_unpackMantissa, toNat_unpackMantissa]
      show (withSign true x).toBits.toNat % _ = (withSign false x).toBits.toNat % _
      omega
    · apply BitVec.eq_of_toNat_eq
      rw [toNat_unpackExponent, toNat_unpackExponent]
      show (withSign true x).toBits.toNat / _ % _ = (withSign false x).toBits.toNat / _ % _
      omega
    · rw [ofBitVec_unpackSign]
      apply if_neg
      show ¬ 2 ^ 63 ≤ (withSign false x).toBits.toNat
      omega
    · rw [ofBitVec_unpackSign]
      apply if_pos
      show 2 ^ 63 ≤ (withSign true x).toBits.toNat
      omega
  have hneg : -(withSign false x) = Float.ofModel (Float.Model.pack
      (UnpackedFloat.unpack Format.binary64 (withSign false x).toBits.toBitVec).neg) := rfl
  rw [hneg, hunpack]
  exact Float.ofBits_toBits (withSign true x)

/-- There is only one float that is no number. -/
theorem eq_undefinedFloat {x : Float} (h : x.isNaN = true) : x = undefinedFloat := by
  rw [Float.isNaN_eq_decide_eq_nan, decide_eq_true_eq] at h
  rw [h]
  rfl

/-- The float that is no number has larger bits than the infinite ones. -/
theorem isNaN_iff (x : Float) : x.isNaN = true ↔ infinityBits < magnitudeBits x := by
  constructor
  · intro h
    rw [eq_undefinedFloat h]
    decide +kernel
  · intro h
    replace h : 2047 * 2 ^ 52 < x.toBits.toNat % 2 ^ 63 := h
    have hbits : x.toBits.toBitVec = packedNaN Format.binary64 := by
      apply x.toModel.valid.eq_packedNaN
      · rw [← BitVec.toNat_inj, toNat_unpackExponent]
        show x.toBits.toNat / 2 ^ 52 % 2 ^ 11 = 2047
        omega
      · rw [Ne, ← BitVec.toNat_inj, toNat_unpackMantissa]
        show ¬ x.toBits.toNat % 2 ^ 52 = 0
        omega
    exact (isNaN_unpack_iff_of_valid x.toModel.valid).mpr hbits

end Springboard.Binary64
