import Millwork.Proofs.Decimal.Nearest
/-!
# Doubles with the positive sign

Sums, products and quotients of doubles with the positive sign have that sign as well, or are NaN. A sum of
them is NaN only if a summand is, and a quotient of two numbers only if both are infinite or both are zero.
-/
namespace Millwork.Decimal
open Float.Model Float.Model.UnpackedFloat

/-- NaN, or a number with the positive sign. -/
inductive Positive : UnpackedFloat → Prop
  | notANumber : Positive .notANumber
  | infinity : Positive (.infinity .positive)
  | zero : Positive (.zero .positive)
  | finite {m : Nat} {e : Int} (h : 0 < m) : Positive (.finite .positive m e h)

private theorem positive_carried (r : Nat) (e : Int) : Positive (carried .positive r e) := by
  rw [carried]
  by_cases hzero : (shiftToTargetExponent Format.binary64 r e .exact).1.mantissa = 0
  · rw [dif_pos hzero]
    exact .zero
  · rw [dif_neg hzero]
    exact .finite _

private theorem positive_roundWithAccuracy (m : Nat) (e : Int) (a : Accuracy) :
    Positive (roundWithAccuracy Format.binary64 .positive m e a) := by
  obtain ⟨k, r, hround, -⟩ := roundWithAccuracy_eq .positive m e a
  rw [hround]
  exact positive_carried _ _

private theorem positive_normalize {m : Int} (h : 0 ≤ m) (e : Int) :
    Positive (UnpackedFloat.normalize Format.binary64 m e .positive) := by
  rw [UnpackedFloat.normalize]
  split
  · rename_i hneg
    exact absurd (compare_lt_iff_lt.1 hneg) h.not_gt
  · exact .zero
  · exact positive_roundWithAccuracy _ _ _

private theorem isNaN_normalize (m e : Int) (zeroSign : Sign) :
    (UnpackedFloat.normalize Format.binary64 m e zeroSign).isNaN = false := by
  rw [UnpackedFloat.normalize]
  split
  · exact isNaN_roundWithAccuracy _ _ _ _
  · rfl
  · exact isNaN_roundWithAccuracy _ _ _ _

section
variable {f g : UnpackedFloat}

theorem Positive.add (hf : Positive f) (hg : Positive g) :
    Positive (UnpackedFloat.add Format.binary64 f g) := by
  cases hf with
  | notANumber => exact .notANumber
  | infinity =>
    cases hg with
    | notANumber => exact .notANumber
    | infinity | zero | finite => exact .infinity
  | zero =>
    cases hg with
    | notANumber => exact .notANumber
    | infinity => exact .infinity
    | zero => exact .zero
    | finite hn => exact .finite hn
  | finite hm =>
    cases hg with
    | notANumber => exact .notANumber
    | infinity => exact .infinity
    | zero => exact .finite hm
    | finite hn => exact positive_normalize (Int.add_nonneg (Int.natCast_nonneg _) (Int.natCast_nonneg _)) _

theorem Positive.isNaN_add (hf : Positive f) (hg : Positive g) :
    (UnpackedFloat.add Format.binary64 f g).isNaN = (f.isNaN || g.isNaN) := by
  cases hf with
  | notANumber => rfl
  | infinity | zero => cases hg <;> rfl
  | finite hm =>
    cases hg with
    | notANumber | infinity | zero => rfl
    | finite hn => exact isNaN_normalize _ _ _

theorem Positive.mul (hf : Positive f) (hg : Positive g) :
    Positive (UnpackedFloat.mul Format.binary64 f g) := by
  cases hf with
  | notANumber => exact .notANumber
  | infinity =>
    cases hg with
    | notANumber | zero => exact .notANumber
    | infinity | finite => exact .infinity
  | zero =>
    cases hg with
    | notANumber | infinity => exact .notANumber
    | zero | finite => exact .zero
  | finite hm =>
    cases hg with
    | notANumber => exact .notANumber
    | infinity => exact .infinity
    | zero => exact .zero
    | finite hn => exact positive_roundWithAccuracy _ _ _

theorem Positive.div (hf : Positive f) (hg : Positive g) :
    Positive (UnpackedFloat.div Format.binary64 f g) := by
  cases hf with
  | notANumber => exact .notANumber
  | infinity =>
    cases hg with
    | notANumber | infinity => exact .notANumber
    | zero | finite => exact .infinity
  | zero =>
    cases hg with
    | notANumber | zero => exact .notANumber
    | infinity | finite => exact .zero
  | finite hm =>
    cases hg with
    | notANumber => exact .notANumber
    | infinity => exact .zero
    | zero => exact .infinity
    | finite hn => exact positive_roundWithAccuracy _ _ _

theorem Positive.isNaN_div (hf : Positive f) (hg : Positive g) (hfn : f.isNaN = false)
    (hgn : g.isNaN = false) (hz : g ≠ .zero .positive) :
    (UnpackedFloat.div Format.binary64 f g).isNaN = (f.isInf && g.isInf) := by
  cases hf with
  | notANumber => cases hfn
  | infinity | zero =>
    cases hg with
    | notANumber => cases hgn
    | zero => exact absurd rfl hz
    | infinity | finite => rfl
  | finite hm =>
    cases hg with
    | notANumber => cases hgn
    | zero => exact absurd rfl hz
    | infinity => rfl
    | finite hn => exact isNaN_roundWithAccuracy _ _ _ _

private theorem zero_le_of_positive (h : Positive f) (hn : f.isNaN = false) :
    UnpackedFloat.le (.zero .positive) f = true := by
  cases h with
  | notANumber => cases hn
  | infinity | zero | finite => rfl

private theorem eq_zero_of_positive {f : UnpackedFloat} (hf : Positive f)
    (h : f.beq (.zero .positive) = true) : f = .zero .positive := by
  cases hf with
  | zero => rfl
  | notANumber | infinity | finite => cases h

private theorem zero_add_of_positive (h : Positive f) :
    UnpackedFloat.add Format.binary64 (.zero .positive) f = f := by
  cases h <;> rfl

private theorem positive_unpack {b : BitVec Format.binary64.numBits}
    (h : Sign.ofBitVec (unpackSign b) = .positive) :
    Positive (UnpackedFloat.unpack Format.binary64 b) := by
  by_cases hmax : unpackExponent b = -1#11
  · rw [unpack_of_max hmax, h]
    split
    · exact .infinity
    · exact .notANumber
  · by_cases hz : unpackExponent b = 0#11
    · rcases unpack_of_zero hmax hz with ⟨-, hu⟩ | ⟨-, hm, hu⟩
      · rw [hu, h]
        exact .zero
      · rw [hu, h]
        exact .finite hm
    · obtain ⟨hm, hu⟩ := unpack_of_normal hmax hz
      rw [hu, h]
      exact .finite hm

theorem Positive.unpack_pack (h : Positive f) :
    Positive (UnpackedFloat.unpack Format.binary64 (UnpackedFloat.pack Format.binary64 f)) := by
  cases h with
  | notANumber => exact .notANumber
  | infinity => exact .infinity
  | zero => exact .zero
  | @finite m e hm =>
    obtain ⟨k, hk, hpack⟩ := pack_finite .positive m e hm
    rw [hpack]
    split
    · exact .infinity
    · split
      · exact positive_unpack (packComponents_fields rfl).2.2
      · exact positive_unpack (packComponents_fields rfl).2.2

end

def IsPositive (x : Float) : Prop :=
  Positive x.toModel.unpack

section
variable {x y : Float}

theorem IsPositive.add (hx : IsPositive x) (hy : IsPositive y) : IsPositive (x + y) :=
  (Positive.add hx hy).unpack_pack

theorem IsPositive.mul (hx : IsPositive x) (hy : IsPositive y) : IsPositive (x * y) :=
  (Positive.mul hx hy).unpack_pack

theorem IsPositive.div (hx : IsPositive x) (hy : IsPositive y) : IsPositive (x / y) :=
  (Positive.div hx hy).unpack_pack

theorem IsPositive.isNaN_add (hx : IsPositive x) (hy : IsPositive y) :
    (x + y).isNaN = (x.isNaN || y.isNaN) :=
  (isNaN_unpack_pack _).trans (Positive.isNaN_add hx hy)

theorem IsPositive.isNaN_div (hx : IsPositive x) (hy : IsPositive y) (hxn : x.isNaN = false)
    (hyn : y.isNaN = false) (hz : y ≠ 0) : (x / y).isNaN = (x.isInf && y.isInf) := by
  refine (isNaN_unpack_pack _).trans (Positive.isNaN_div hx hy hxn hyn fun h => hz ?_)
  exact eq_of_unpack_eq h

theorem IsPositive.zero_le (hx : IsPositive x) (hn : x.isNaN = false) : 0 ≤ x := by
  rw [le_iff]
  exact zero_le_of_positive hx hn

theorem IsPositive.beq_zero_iff (hx : IsPositive x) : (x == 0.0) = true ↔ x = 0 := by
  constructor
  · intro h
    have hzero : (0 : Float).toModel.unpack = .zero .positive := rfl
    exact eq_of_unpack_eq ((eq_zero_of_positive hx h).trans hzero.symm)
  · rintro rfl
    rfl

theorem IsPositive.zero_add (hx : IsPositive x) : 0.0 + x = x := by
  apply eq_of_unpack_eq
  have hsum : (0.0 + x).toModel.unpack = UnpackedFloat.unpack Format.binary64
      (UnpackedFloat.pack Format.binary64 (.add Format.binary64 (.zero .positive) x.toModel.unpack)) :=
    rfl
  rw [hsum, zero_add_of_positive hx]
  exact congrArg _ (pack_unpack_of_valid x.toModel.valid)

theorem Digits.isPositive {m : Nat} {e : Int} (h : Digits x .positive m e) : IsPositive x := by
  rw [IsPositive, h.unpack, unpacked]
  split
  · exact .zero
  · exact .finite _

end

private theorem isPositive_toFloat (m : UInt64) : IsPositive m.toFloat :=
  (positive_normalize (Int.natCast_nonneg m.toNat) 0).unpack_pack

private theorem positive_ofScientific (m : Nat) (e : Int) :
    Positive (UnpackedFloat.ofScientific Format.binary64 m e) := by
  fun_cases UnpackedFloat.ofScientific Format.binary64 m e with
  | case1 | case3 => exact .zero
  | case2 => exact .infinity
  | case4 => exact Positive.mul (.finite _) (.finite _)
  | case5 => exact Positive.div (.finite _) (.finite _)

private theorem isPositive_ofScientific (m : Nat) (negative : Bool) (e : Nat) :
    IsPositive (Float.ofScientific m negative e) := by
  have hsize := size_powersOfTen
  rw [Float.ofScientific]
  split
  · rename_i hshort
    obtain ⟨n, f, hpower, -⟩ := digits_powerOfTen (k := e) (by omega)
    split
    · exact (isPositive_toFloat _).div hpower.isPositive
    · exact (isPositive_toFloat _).mul hpower.isPositive
  · exact (positive_ofScientific m _).unpack_pack

theorem isPositive_nearest (significand : Nat) (scale : Int) :
    IsPositive (nearest significand scale) := by
  rw [nearest]
  split
  · exact isPositive_ofScientific _ _ _
  · exact isPositive_ofScientific _ _ _

end Millwork.Decimal
