import MatrixCalculator.Numeral.Double
import Mathlib

/-!
# Bit patterns of doubles

A double is its bit pattern: a sign, a biased exponent and a fraction.  All that
is not a number is one pattern, so the sign and the rest of the bits determine a
double, and what an operation does to its operand is what it does to these two.
-/

namespace MatrixCalculator.Numeral

open Float.Model Float.Model.UnpackedFloat

/-! ## Sign, exponent and fraction -/

theorem toNat_implicit (fraction : BitVec 52) :
    (1#1 ++ fraction).toNat = 2 ^ 52 + fraction.toNat := by
  rw [BitVec.toNat_append, ← Nat.shiftLeft_add_eq_or_of_lt fraction.isLt]
  rfl

/-- The number with a sign, a biased exponent and a fraction. -/
def assemble (sign : Sign) (exponent : BitVec 11) (fraction : BitVec 52) : UnpackedFloat :=
  if exponent = -1#11 then if fraction = 0#52 then .infinity sign else .notANumber
  else if exponent = 0#11 then
    if h : fraction = 0#52 then .zero sign
    else .finite sign fraction.toNat ((exponent.toNat : Int) - (1023 + 52) + 1)
      (by simpa [BitVec.toNat_pos, BitVec.pos_iff_ne_zero])
  else .finite sign (1#1 ++ fraction).toNat ((exponent.toNat : Int) - (1023 + 52))
    (by rw [toNat_implicit]; omega)

def signField (b : BitVec 64) : Sign := Sign.ofBitVec (@unpackSign Format.binary64 b)

def exponentField (b : BitVec 64) : BitVec 11 := @unpackExponent Format.binary64 b

def fractionField (b : BitVec 64) : BitVec 52 := @unpackMantissa Format.binary64 b

theorem unpack_eq (b : BitVec 64) :
    UnpackedFloat.unpack Format.binary64 b =
      assemble (signField b) (exponentField b) (fractionField b) := rfl

theorem toNat_signField (b : BitVec 64) : (signField b).toBitVec.toNat = b.toNat / 2 ^ 63 := by
  have hsign : (@unpackSign Format.binary64 b).toNat = b.toNat / 2 ^ 63 := by
    change (b.toNat >>> 63) % 2 = _
    rw [Nat.shiftRight_eq_div_pow]
    have := b.isLt
    omega
  rw [← hsign, signField, Sign.ofBitVec]
  split
  · next hzero => rw [hzero]; rfl
  · next hone =>
    have hne : (@unpackSign Format.binary64 b).toNat ≠ 0 := fun h => hone (BitVec.eq_of_toNat_eq h)
    have := (@unpackSign Format.binary64 b).isLt
    change 1 = _
    omega

theorem toNat_exponentField (b : BitVec 64) :
    (exponentField b).toNat = b.toNat / 2 ^ 52 % 2 ^ 11 := by
  change (b.toNat >>> 52) % 2 ^ 11 = _
  rw [Nat.shiftRight_eq_div_pow]

theorem toNat_fractionField (b : BitVec 64) : (fractionField b).toNat = b.toNat % 2 ^ 52 := by
  change (b.toNat >>> 0) % 2 ^ 52 = _
  rw [Nat.shiftRight_zero]

theorem toNat_packComponents (sign : Sign) (exponent : BitVec 11) (fraction : BitVec 52) :
    (packComponents Format.binary64 sign exponent fraction).toNat =
      sign.toBitVec.toNat * 2 ^ 63 + exponent.toNat * 2 ^ 52 + fraction.toNat := by
  rw [packComponents, BitVec.toNat_append, BitVec.toNat_append,
    ← Nat.shiftLeft_add_eq_or_of_lt fraction.isLt, ← Nat.shiftLeft_add_eq_or_of_lt exponent.isLt,
    Nat.shiftLeft_eq, Nat.shiftLeft_eq]
  omega

theorem unpack_packComponents (sign : Sign) (exponent : BitVec 11) (fraction : BitVec 52) :
    UnpackedFloat.unpack Format.binary64
      (packComponents Format.binary64 sign exponent fraction) =
        assemble sign exponent fraction := by
  rw [unpack_eq, signField, exponentField, fractionField, unpackSign_packComponents,
    Sign.ofBitVec_toBitVec, unpackExponent_packComponents, unpackMantissa_packComponents]

/-- Nothing is lost where there is a number. -/
theorem pack_assemble {sign : Sign} {exponent : BitVec 11} {fraction : BitVec 52}
    (hnumber : exponent = -1#11 → fraction = 0#52) :
    UnpackedFloat.pack Format.binary64 (assemble sign exponent fraction) =
      packComponents Format.binary64 sign exponent fraction := by
  rw [← unpack_packComponents, pack_unpack, if_neg]
  rw [isNaNBits, decide_eq_true_iff, unpackExponent_packComponents,
    unpackMantissa_packComponents]
  rintro ⟨hexponent, hfraction⟩
  exact hfraction (hnumber hexponent)

theorem assemble_neg (sign : Sign) (exponent : BitVec 11) (fraction : BitVec 52) :
    (assemble sign exponent fraction).neg = assemble (-sign) exponent fraction := by
  unfold assemble
  split
  · split <;> rfl
  · split
    · split <;> rfl
    · rfl

theorem assemble_abs (sign : Sign) (exponent : BitVec 11) (fraction : BitVec 52) :
    (assemble sign exponent fraction).abs = assemble .positive exponent fraction := by
  unfold assemble
  split
  · split <;> rfl
  · split
    · split <;> rfl
    · rfl

/-! ## The fields of a double -/

variable {x y : Float}

theorem isNegative_iff : isNegative x = true ↔ signBits ≤ x.toBits.toNat := decide_eq_true_iff

theorem toNat_toBits (x : Float) :
    x.toBits.toNat = (if isNegative x = true then signBits else 0) + magnitudeBits x := by
  have hlt := x.toBits.toNat_lt
  have hsign : isNegative x = true ↔ _ := isNegative_iff
  rw [magnitudeBits]
  by_cases hnegative : isNegative x = true
  · rw [if_pos hnegative]
    rw [hsign, signBits] at hnegative
    rw [signBits]
    omega
  · rw [if_neg hnegative]
    rw [hsign, signBits] at hnegative
    rw [signBits]
    omega

/-- The sign and the rest of the bits determine a double. -/
theorem eq_of_magnitudeBits_eq (hsign : isNegative x = isNegative y)
    (hmagnitude : magnitudeBits x = magnitudeBits y) : x = y := by
  apply Float.toBits_inj.1
  apply UInt64.toNat.inj
  rw [toNat_toBits, toNat_toBits, hsign, hmagnitude]

variable {sign : Sign} {exponent : BitVec 11} {fraction : BitVec 52}

structure Fields (x : Float) (sign : Sign) (exponent : BitVec 11) (fraction : BitVec 52) :
    Prop where
  unpack_eq : x.toModel.unpack = assemble sign exponent fraction
  toNat_toBits : x.toBits.toNat =
    sign.toBitVec.toNat * 2 ^ 63 + exponent.toNat * 2 ^ 52 + fraction.toNat

theorem fields (x : Float) : Fields x (signField x.toBits.toBitVec)
    (exponentField x.toBits.toBitVec) (fractionField x.toBits.toBitVec) := by
  have hpacked := @packComponents_unpackSign_unpackExponent_unpackMantissa Format.binary64
    x.toBits.toBitVec
  exact ⟨rfl, (congrArg BitVec.toNat hpacked).symm.trans (toNat_packComponents _ _ _)⟩

/-- A double that is assembled from fields has these fields. -/
theorem fields_of_pack (hx : x.toModel = Float.Model.pack (assemble sign exponent fraction))
    (hnumber : exponent = -1#11 → fraction = 0#52) : Fields x sign exponent fraction := by
  have hbits : x.toBits.toBitVec = packComponents Format.binary64 sign exponent fraction := by
    rw [← pack_assemble hnumber, Float.toBits, hx]
    rfl
  refine ⟨?_, ?_⟩
  · rw [← unpack_packComponents, ← hbits]
    rfl
  · rw [← toNat_packComponents, ← hbits]
    rfl

namespace Fields

theorem magnitudeBits_eq (hx : Fields x sign exponent fraction) :
    magnitudeBits x = exponent.toNat * 2 ^ 52 + fraction.toNat := by
  have hexponent := exponent.isLt
  have hfraction := fraction.isLt
  rw [magnitudeBits, hx.toNat_toBits, signBits]
  omega

theorem isNegative_iff (hx : Fields x sign exponent fraction) :
    isNegative x = true ↔ sign = .negative := by
  have hexponent := exponent.isLt
  have hfraction := fraction.isLt
  rw [Numeral.isNegative_iff, hx.toNat_toBits, signBits]
  cases sign with
  | negative => simp [Sign.toBitVec]; omega
  | positive => simp [Sign.toBitVec]; omega

theorem isNaN_iff (hx : Fields x sign exponent fraction) :
    x.isNaN = true ↔ exponent = -1#11 ∧ fraction ≠ 0#52 := by
  change x.toModel.unpack.isNaN = true ↔ _
  rw [hx.unpack_eq, assemble]
  split
  · split <;> simp_all [UnpackedFloat.isNaN]
  · split
    · split <;> simp_all [UnpackedFloat.isNaN]
    · simp_all [UnpackedFloat.isNaN]

theorem fraction_eq_zero (hx : Fields x sign exponent fraction) (hnumber : x.isNaN ≠ true)
    (hexponent : exponent = -1#11) : fraction = 0#52 := by
  by_contra hfraction
  exact hnumber (hx.isNaN_iff.2 ⟨hexponent, hfraction⟩)

theorem isInf_iff (hx : Fields x sign exponent fraction) :
    x.isInf = true ↔ exponent = -1#11 ∧ fraction = 0#52 := by
  change x.toModel.unpack.isInf = true ↔ _
  rw [hx.unpack_eq, assemble]
  split
  · split <;> simp_all [UnpackedFloat.isInf]
  · split
    · split <;> simp_all [UnpackedFloat.isInf]
    · simp_all [UnpackedFloat.isInf]

theorem isFinite_iff (hx : Fields x sign exponent fraction) :
    x.isFinite = true ↔ exponent ≠ -1#11 := by
  change x.toModel.unpack.isFinite = true ↔ _
  rw [hx.unpack_eq, assemble]
  split
  · split <;> simp_all [UnpackedFloat.isFinite]
  · split
    · split <;> simp_all [UnpackedFloat.isFinite]
    · simp_all [UnpackedFloat.isFinite]

end Fields

/-! ## Kinds of doubles -/

theorem eq_negOne_iff (exponent : BitVec 11) : exponent = -1#11 ↔ exponent.toNat = 2047 :=
  ⟨fun h => by rw [h]; rfl, fun h => BitVec.eq_of_toNat_eq h⟩

theorem eq_zero_iff (fraction : BitVec 52) : fraction = 0#52 ↔ fraction.toNat = 0 :=
  ⟨fun h => by rw [h]; rfl, fun h => BitVec.eq_of_toNat_eq h⟩

theorem isNaN_iff (x : Float) : x.isNaN = true ↔ infinityBits < magnitudeBits x := by
  have hx := fields x
  rw [hx.isNaN_iff, hx.magnitudeBits_eq, eq_negOne_iff, Ne, eq_zero_iff, infinityBits]
  have hexponent := (exponentField x.toBits.toBitVec).isLt
  have hfraction := (fractionField x.toBits.toBitVec).isLt
  omega

theorem isInf_iff (x : Float) : x.isInf = true ↔ magnitudeBits x = infinityBits := by
  have hx := fields x
  rw [hx.isInf_iff, hx.magnitudeBits_eq, eq_negOne_iff, eq_zero_iff, infinityBits]
  have hexponent := (exponentField x.toBits.toBitVec).isLt
  have hfraction := (fractionField x.toBits.toBitVec).isLt
  omega

theorem isFinite_iff (x : Float) : x.isFinite = true ↔ magnitudeBits x < infinityBits := by
  have hx := fields x
  rw [hx.isFinite_iff, hx.magnitudeBits_eq, Ne, eq_negOne_iff, infinityBits]
  have hexponent := (exponentField x.toBits.toBitVec).isLt
  have hfraction := (fractionField x.toBits.toBitVec).isLt
  omega

theorem not_isNaN_of_isFinite (hx : x.isFinite = true) : x.isNaN = false := by
  rw [← Bool.not_eq_true, isNaN_iff]
  have := (isFinite_iff x).1 hx
  omega

theorem not_isInf_of_isFinite (hx : x.isFinite = true) : x.isInf = false := by
  rw [← Bool.not_eq_true, isInf_iff]
  have := (isFinite_iff x).1 hx
  omega

/-- There is only one double that is not a number. -/
theorem eq_nan_of_isNaN (hx : x.isNaN = true) : x = Float.nan := by
  rwa [Float.isNaN_eq_decide_eq_nan, decide_eq_true_iff] at hx

theorem isNegative_of_isNaN (hx : x.isNaN = true) : isNegative x = false := by
  rw [eq_nan_of_isNaN hx]
  decide

/-- A sum with what is not a number is none. -/
theorem isNaN_add {y : Float} (hy : y.isNaN = true) : (x + y).isNaN = true := by
  rw [eq_nan_of_isNaN hy]
  have hnan : Float.nan.toModel.unpack = .notANumber := rfl
  have hsum : UnpackedFloat.add .binary64 x.toModel.unpack .notANumber = .notANumber := by
    cases x.toModel.unpack <;> rfl
  change (pack (UnpackedFloat.add _ x.toModel.unpack Float.nan.toModel.unpack)).isNaN = true
  rw [hnan, hsum]
  rfl

/-! ## Signs -/

theorem fields_neg (hx : x.isNaN ≠ true) : Fields (-x) (-signField x.toBits.toBitVec)
    (exponentField x.toBits.toBitVec) (fractionField x.toBits.toBitVec) := by
  have hparts := fields x
  refine fields_of_pack ?_ (hparts.fraction_eq_zero hx)
  rw [← assemble_neg, ← hparts.unpack_eq]
  rfl

theorem fields_abs (hx : x.isNaN ≠ true) : Fields x.abs .positive
    (exponentField x.toBits.toBitVec) (fractionField x.toBits.toBitVec) := by
  have hparts := fields x
  refine fields_of_pack ?_ (hparts.fraction_eq_zero hx)
  rw [← assemble_abs (signField x.toBits.toBitVec), ← hparts.unpack_eq]
  rfl

theorem neg_of_isNaN (hx : x.isNaN = true) : -x = x := by
  rw [eq_nan_of_isNaN hx]
  rfl

theorem abs_of_isNaN (hx : x.isNaN = true) : x.abs = x := by
  rw [eq_nan_of_isNaN hx]
  rfl

@[simp]
theorem magnitudeBits_neg (x : Float) : magnitudeBits (-x) = magnitudeBits x := by
  by_cases hx : x.isNaN = true
  · rw [neg_of_isNaN hx]
  · rw [(fields_neg hx).magnitudeBits_eq, (fields x).magnitudeBits_eq]

theorem isNaN_neg (x : Float) : (-x).isNaN = x.isNaN := by
  rw [Bool.eq_iff_iff, isNaN_iff, isNaN_iff, magnitudeBits_neg]

@[simp]
theorem magnitudeBits_abs (x : Float) : magnitudeBits x.abs = magnitudeBits x := by
  by_cases hx : x.isNaN = true
  · rw [abs_of_isNaN hx]
  · rw [(fields_abs hx).magnitudeBits_eq, (fields x).magnitudeBits_eq]

@[simp]
theorem isNegative_abs (x : Float) : isNegative x.abs = false := by
  by_cases hx : x.isNaN = true
  · rw [abs_of_isNaN hx, isNegative_of_isNaN hx]
  · rw [← Bool.not_eq_true, (fields_abs hx).isNegative_iff]
    exact nofun

theorem isNegative_neg (hx : x.isNaN ≠ true) : isNegative (-x) = !isNegative x := by
  rw [Bool.eq_iff_iff, (fields_neg hx).isNegative_iff, Bool.not_eq_true', ← Bool.not_eq_true,
    (fields x).isNegative_iff]
  cases signField x.toBits.toBitVec <;>
    simp [show -Sign.negative = Sign.positive from rfl,
      show -Sign.positive = Sign.negative from rfl]

theorem abs_of_not_isNegative (hx : isNegative x = false) : x.abs = x :=
  eq_of_magnitudeBits_eq (by rw [isNegative_abs, hx]) (magnitudeBits_abs x)

theorem neg_abs_of_isNegative (hx : isNegative x = true) : -x.abs = x := by
  have hnumber : x.abs.isNaN ≠ true := by
    rw [Ne, isNaN_iff, magnitudeBits_abs, ← isNaN_iff]
    intro hnan
    rw [isNegative_of_isNaN hnan] at hx
    cases hx
  apply eq_of_magnitudeBits_eq
  · rw [isNegative_neg hnumber, isNegative_abs, hx]
    rfl
  · rw [magnitudeBits_neg, magnitudeBits_abs]

/-! ## Doubles from bits -/

/-- A pattern up to the one of infinity is a double that is not negative. -/
theorem toNat_toBits_ofBits {n : Nat} (hn : n ≤ infinityBits) :
    (Float.ofBits n.toUInt64).toBits.toNat = n := by
  have hbits : n.toUInt64.toBitVec.toNat = n := by
    rw [infinityBits] at hn
    change n % 2 ^ 64 = n
    omega
  have hfields : Fields (Float.ofBits n.toUInt64) _ _ _ := fields_of_pack
    (congrArg Float.Model.pack (unpack_eq n.toUInt64.toBitVec)) (by
      rw [eq_negOne_iff, eq_zero_iff, toNat_exponentField, toNat_fractionField, hbits]
      rw [infinityBits] at hn
      omega)
  rw [hfields.toNat_toBits, toNat_signField, toNat_exponentField, toNat_fractionField, hbits]
  rw [infinityBits] at hn
  omega

theorem magnitudeBits_ofBits {n : Nat} (hn : n ≤ infinityBits) :
    magnitudeBits (Float.ofBits n.toUInt64) = n := by
  rw [magnitudeBits, toNat_toBits_ofBits hn, signBits]
  rw [infinityBits] at hn
  omega

theorem isNegative_ofBits {n : Nat} (hn : n ≤ infinityBits) :
    isNegative (Float.ofBits n.toUInt64) = false := by
  rw [← Bool.not_eq_true, isNegative_iff, toNat_toBits_ofBits hn, signBits]
  rw [infinityBits] at hn
  omega

/-- The zeros are the doubles that equal zero. -/
theorem beq_zero_iff (x : Float) : (x == 0) = true ↔ magnitudeBits x = 0 := by
  rw [Float.beq_iff_ne_nan_and_eq]
  constructor
  · rintro ⟨-, -, rfl | ⟨rfl, -⟩ | ⟨rfl, -⟩⟩
    · rfl
    · rfl
    · rfl
  · intro hzero
    have hne : x ≠ Float.nan := by
      rintro rfl
      exact absurd hzero (by decide)
    refine ⟨hne, by decide, ?_⟩
    cases hsign : isNegative x with
    | true => exact .inr (.inr ⟨eq_of_magnitudeBits_eq hsign hzero, rfl⟩)
    | false => exact .inl (eq_of_magnitudeBits_eq hsign hzero)

end MatrixCalculator.Numeral
