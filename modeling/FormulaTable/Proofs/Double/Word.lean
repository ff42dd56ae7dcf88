import Mathlib
import FormulaTable.Double.Nearest

/-!
# Words of doubles

A double is its 64 bits. All words but those of a NaN are kept as they are, and a double is finite
just when its magnitude, as a word, is below that of infinity.
-/

namespace FormulaTable.Double
open Float.Model (Format)
open Float.Model.UnpackedFloat

variable {b : BitVec Format.binary64.numBits}

theorem toNat_unpackExponent : (unpackExponent b).toNat = b.toNat / 2 ^ 52 % 2 ^ 11 := by
  simp [unpackExponent_def, BitVec.extractLsb'_toNat, Nat.shiftRight_eq_div_pow]

theorem toNat_unpackMantissa : (unpackMantissa b).toNat = b.toNat % 2 ^ 52 := by
  simp [unpackMantissa_def, BitVec.extractLsb'_toNat]

theorem unpackExponent_eq_top :
    unpackExponent b = -1#11 ↔ b.toNat / 2 ^ 52 % 2 ^ 11 = 2047 := by
  rw [← BitVec.toNat_inj, toNat_unpackExponent]
  rfl

def IsPlain (w : Nat) : Prop := w % 2 ^ 63 ≤ infinityBits

theorem isNaNBits_eq_false (h : IsPlain b.toNat) : isNaNBits b = false := by
  have hnan : ¬ (unpackExponent b = -1#11 ∧ unpackMantissa b ≠ 0#52) := by
    rintro ⟨htop, hmantissa⟩
    rw [unpackExponent_eq_top] at htop
    rw [Ne, ← BitVec.toNat_inj, toNat_unpackMantissa] at hmantissa
    rw [IsPlain, infinityBits] at h
    simp only [BitVec.toNat_ofNat] at hmantissa
    omega
  simpa [isNaNBits] using hnan

theorem bits_lt (x : Float) : bits x < 2 ^ 64 := x.toBits.toNat_lt

theorem eq_of_bits_eq {x y : Float} (h : bits x = bits y) : x = y := by
  have hbits : x.toBits = y.toBits := UInt64.toNat_inj.mp h
  obtain ⟨⟨w, hw⟩⟩ := x
  obtain ⟨⟨v, hv⟩⟩ := y
  obtain rfl : w = v := hbits
  rfl

theorem bits_ofBits {w : UInt64} (h : IsPlain w.toNat) : bits (Float.ofBits w) = w.toNat := by
  have hword : pack Format.binary64 (unpack Format.binary64 w.toBitVec) = w.toBitVec := by
    rw [pack_unpack, isNaNBits_eq_false h]
    rfl
  exact congrArg BitVec.toNat hword

theorem isFinite_unpack :
    (unpack Format.binary64 b).isFinite = true ↔ ¬ unpackExponent b = -1#11 := by
  fun_cases unpack with
  | case1 _ _ _ _ htop => exact iff_of_false Bool.false_ne_true (not_not_intro htop)
  | case2 _ _ htop => exact iff_of_false Bool.false_ne_true (not_not_intro htop)
  | case3 _ _ _ _ htop => exact iff_of_true rfl htop
  | case4 _ _ _ _ _ htop => exact iff_of_true rfl htop
  | case5 _ _ _ _ _ htop => exact iff_of_true rfl htop

theorem isFinite_iff_exponentField {x : Float} :
    x.isFinite = true ↔ exponentField x ≠ 2047 := by
  have hx := isFinite_unpack (b := x.toBits.toBitVec)
  rwa [unpackExponent_eq_top] at hx

theorem isFinite_iff_bits {x : Float} :
    x.isFinite = true ↔ bits x % 2 ^ 63 < infinityBits := by
  have hx := bits_lt x
  rw [isFinite_iff_exponentField, exponentField, infinityBits]
  omega

theorem isNaN_of_isFinite {x : Float} (h : x.isFinite = true) : x.isNaN = false := by
  change x.toModel.unpack.isFinite = true at h
  change x.toModel.unpack.isNaN = false
  cases hx : x.toModel.unpack <;> simp_all [isFinite, isNaN]

theorem bits_ofMagnitude (negative : Bool) {m : Nat} (h : m ≤ infinityBits) :
    bits (ofMagnitude negative m) = (if negative then 2 ^ 63 else 0) + m := by
  have hw : (UInt64.ofNat (if negative then 2 ^ 63 + m else m)).toNat =
      (if negative then 2 ^ 63 else 0) + m := by
    rw [infinityBits] at h
    cases negative <;> simp <;> omega
  have hplain : IsPlain ((if negative then 2 ^ 63 else 0) + m) := by
    rw [infinityBits] at h
    rw [IsPlain, infinityBits]
    cases negative <;> simp <;> omega
  rw [ofMagnitude, bits_ofBits (by rwa [hw]), hw]

theorem isFinite_ofMagnitude (negative : Bool) {m : Nat} (h : m ≤ infinityBits) :
    (ofMagnitude negative m).isFinite = true ↔ m < infinityBits := by
  rw [isFinite_iff_bits, bits_ofMagnitude negative h]
  rw [infinityBits] at h ⊢
  cases negative <;> simp <;> omega

theorem isFinite_ofInt? {n : Int} {x : Float} (h : ofInt? n = some x) : x.isFinite = true := by
  unfold ofInt? at h
  dsimp only at h
  split at h
  · cases h
  · next hne =>
    cases h
    have hle := nearestBits_le n.natAbs 1
    exact (isFinite_ofMagnitude _ hle).mpr (Nat.lt_of_le_of_ne hle hne)

theorem abs_of_beq_zero {x : Float} (h : (x == 0) = true) : x.abs = 0 := by
  obtain ⟨-, -, rfl | ⟨rfl, -⟩ | ⟨rfl, -⟩⟩ := Float.beq_iff_ne_nan_and_eq.mp h
  · rfl
  · rfl
  · rfl

end FormulaTable.Double
