import Millwork.Decimal.Text
import Millwork.Proofs.Decimal.Range
/-!
# NaN in arithmetic

An operation with a NaN among its operands gives NaN, and no comparison with NaN holds. The number that
digits stand for is never NaN, so reading a text gives NaN only where there is no number.
-/
namespace Millwork.Decimal
open Float.Model Float.Model.UnpackedFloat

/-- Rounding to a double neither makes nor loses a NaN. -/
theorem isNaN_unpack_pack (f : UnpackedFloat) :
    (UnpackedFloat.unpack Format.binary64 (UnpackedFloat.pack Format.binary64 f)).isNaN =
      f.isNaN := by
  cases f with
  | notANumber => decide
  | infinity s => cases s <;> decide
  | zero s => cases s <;> decide
  | finite s m e h =>
    obtain ⟨k, hk, hpack⟩ := pack_finite s m e h
    rw [hpack]
    show (UnpackedFloat.unpack Format.binary64 _).isNaN = false
    split
    · cases s <;> decide
    · split
      · apply isNaN_unpack
        rw [unpackExponent_packComponents]
        exact exponent_ne (l := 2047) (by omega) (by decide) (by omega)
      · apply isNaN_unpack
        rw [unpackExponent_packComponents]
        decide

private theorem unpack_of_isNaN {x : Float} (h : x.isNaN = true) : x.toModel.unpack = .notANumber := by
  have hnan : x.toModel.unpack.isNaN = true := h
  cases hx : x.toModel.unpack with
  | notANumber => rfl
  | infinity | zero | finite =>
    rw [hx] at hnan
    cases hnan

private theorem add_notANumber (f : UnpackedFloat) :
    UnpackedFloat.add Format.binary64 f .notANumber = .notANumber := by
  cases f <;> rfl

private theorem sub_notANumber (f : UnpackedFloat) :
    UnpackedFloat.sub Format.binary64 f .notANumber = .notANumber := by
  cases f <;> rfl

private theorem mul_notANumber (f : UnpackedFloat) :
    UnpackedFloat.mul Format.binary64 f .notANumber = .notANumber := by
  cases f <;> rfl

private theorem div_notANumber (f : UnpackedFloat) :
    UnpackedFloat.div Format.binary64 f .notANumber = .notANumber := by
  cases f <;> rfl

section
variable {x y : Float}

private theorem isNaN_of_operand {op : UnpackedFloat → UnpackedFloat → UnpackedFloat}
    (hleft : ∀ g, op .notANumber g = .notANumber) (hright : ∀ f, op f .notANumber = .notANumber)
    (h : x.isNaN = true ∨ y.isNaN = true) :
    (Float.ofModel (.pack (op x.toModel.unpack y.toModel.unpack))).isNaN = true := by
  refine (isNaN_unpack_pack (op x.toModel.unpack y.toModel.unpack)).trans ?_
  rcases h with hx | hy
  · rw [unpack_of_isNaN hx, hleft]
    rfl
  · rw [unpack_of_isNaN hy, hright]
    rfl

theorem isNaN_add (h : x.isNaN = true ∨ y.isNaN = true) : (x + y).isNaN = true :=
  isNaN_of_operand (fun _ => rfl) add_notANumber h

theorem isNaN_sub (h : x.isNaN = true ∨ y.isNaN = true) : (x - y).isNaN = true :=
  isNaN_of_operand (fun _ => rfl) sub_notANumber h

theorem isNaN_mul (h : x.isNaN = true ∨ y.isNaN = true) : (x * y).isNaN = true :=
  isNaN_of_operand (fun _ => rfl) mul_notANumber h

theorem isNaN_div (h : x.isNaN = true ∨ y.isNaN = true) : (x / y).isNaN = true :=
  isNaN_of_operand (fun _ => rfl) div_notANumber h

theorem isNaN_neg (x : Float) : (-x).isNaN = x.isNaN := by
  refine (isNaN_unpack_pack x.toModel.unpack.neg).trans ?_
  show x.toModel.unpack.neg.isNaN = x.toModel.unpack.isNaN
  cases x.toModel.unpack <;> rfl

theorem isNaN_abs (x : Float) : x.abs.isNaN = x.isNaN := by
  refine (isNaN_unpack_pack x.toModel.unpack.abs).trans ?_
  show x.toModel.unpack.abs.isNaN = x.toModel.unpack.isNaN
  cases x.toModel.unpack <;> rfl

theorem isFinite_of_isNaN (h : x.isNaN = true) : x.isFinite = false := by
  rw [isFinite_eq, h]
  rfl

theorem isNaN_floor (h : x.isNaN = true) : (floor x).isNaN = true := by
  rw [floor, isFinite_of_isNaN h, Bool.not_false, Bool.or_true, if_pos rfl]
  exact h

theorem isNaN_ceil (h : x.isNaN = true) : (ceil x).isNaN = true := by
  rw [ceil, isFinite_of_isNaN h, Bool.not_false, Bool.or_true, if_pos rfl]
  exact h

theorem le_iff : x ≤ y ↔ UnpackedFloat.le x.toModel.unpack y.toModel.unpack = true := by
  show decide (x.toModel ≤ y.toModel) = true ↔ _
  rw [decide_eq_true_eq]
  rfl

theorem beq_of_isNaN (h : x.isNaN = true) (y : Float) : (x == y) = false := by
  show UnpackedFloat.beq x.toModel.unpack y.toModel.unpack = false
  rw [unpack_of_isNaN h]
  rfl

theorem not_le_of_isNaN (h : x.isNaN = true) (y : Float) : ¬x ≤ y := by
  rw [le_iff, unpack_of_isNaN h]
  exact Bool.false_ne_true

theorem not_ge_of_isNaN (h : x.isNaN = true) (y : Float) : ¬y ≤ x := by
  rw [le_iff, unpack_of_isNaN h]
  cases y.toModel.unpack <;> exact Bool.false_ne_true

end

theorem isNaN_roundWithAccuracy (s : Sign) (m : Nat) (e : Int) (a : Accuracy) :
    (roundWithAccuracy Format.binary64 s m e a).isNaN = false := by
  obtain ⟨k, r, hround, -⟩ := roundWithAccuracy_eq s m e a
  rw [hround, carried]
  by_cases hzero : (shiftToTargetExponent Format.binary64 r (e + k) .exact).1.mantissa = 0
  · rw [dif_pos hzero]
    rfl
  · rw [dif_neg hzero]
    rfl

theorem isNaN_mul_finite (f : UnpackedFloat) (s : Sign) (m : Nat) (e : Int) (h : 0 < m) :
    (UnpackedFloat.mul Format.binary64 f (.finite s m e h)).isNaN = f.isNaN := by
  cases f with
  | finite s' m' e' h' => exact isNaN_roundWithAccuracy _ _ _ _
  | notANumber | infinity | zero => rfl

private theorem isNaN_div_finite (f : UnpackedFloat) (s : Sign) (m : Nat) (e : Int) (h : 0 < m) :
    (UnpackedFloat.div Format.binary64 f (.finite s m e h)).isNaN = f.isNaN := by
  cases f with
  | finite s' m' e' h' => exact isNaN_roundWithAccuracy _ _ _ _
  | notANumber | infinity | zero => rfl

private theorem isNaN_toFloat (m : UInt64) : m.toFloat.isNaN = false := by
  refine (isNaN_unpack_pack (UnpackedFloat.ofUInt64 Format.binary64 m)).trans ?_
  rw [UnpackedFloat.ofUInt64, UnpackedFloat.ofNat, UnpackedFloat.ofInt, UnpackedFloat.normalize]
  split
  · exact isNaN_roundWithAccuracy _ _ _ _
  · rfl
  · exact isNaN_roundWithAccuracy _ _ _ _

private theorem powersOfTen_finite :
    ∀ p ∈ Float.exactlyRepresentablePowersOfTen.toList, p.isFinite = true ∧ (p == 0) = false := by
  decide

private theorem exists_unpack_powerOfTen {p : Float}
    (h : p ∈ Float.exactlyRepresentablePowersOfTen.toList) :
    ∃ s m e hm, p.toModel.unpack = .finite s m e hm := by
  obtain ⟨hf, hz⟩ := powersOfTen_finite p h
  have hfinite : p.toModel.unpack.isFinite = true := hf
  have hzero : p.toModel.unpack.beq (0 : Float).toModel.unpack = false := hz
  cases hp : p.toModel.unpack with
  | finite s m e hm => exact ⟨s, m, e, hm, rfl⟩
  | zero s =>
    rw [hp] at hzero
    cases hzero
  | notANumber | infinity =>
    rw [hp] at hfinite
    cases hfinite

private theorem isNaN_ofScientific_unpacked (m : Nat) (e : Int) :
    (UnpackedFloat.ofScientific Format.binary64 m e).isNaN = false := by
  fun_cases UnpackedFloat.ofScientific Format.binary64 m e with
  | case1 | case2 | case3 => rfl
  | case4 => exact isNaN_mul_finite _ _ _ _ _
  | case5 => exact isNaN_div_finite _ _ _ _ _

private theorem isNaN_ofScientific (m : Nat) (negative : Bool) (e : Nat) :
    (Float.ofScientific m negative e).isNaN = false := by
  rw [Float.ofScientific]
  -- a short number is scaled by a power of ten that is a double, any other is rounded once
  split
  · rename_i hshort
    dsimp only
    generalize hp : getElem Float.exactlyRepresentablePowersOfTen e _ = p
    have hmem : p ∈ Float.exactlyRepresentablePowersOfTen.toList := by
      rw [← hp]
      exact Array.getElem_mem_toList _
    obtain ⟨s, n, k, hn, hu⟩ := exists_unpack_powerOfTen hmem
    have hfloat : m.toUInt64.toFloat.toModel.unpack.isNaN = false := isNaN_toFloat m.toUInt64
    split
    · refine (isNaN_unpack_pack (UnpackedFloat.div _ _ p.toModel.unpack)).trans ?_
      rw [hu, isNaN_div_finite, hfloat]
    · refine (isNaN_unpack_pack (UnpackedFloat.mul _ _ p.toModel.unpack)).trans ?_
      rw [hu, isNaN_mul_finite, hfloat]
  · exact (isNaN_unpack_pack _).trans (isNaN_ofScientific_unpacked m _)

theorem isNaN_nearest (significand : Nat) (scale : Int) :
    (nearest significand scale).isNaN = false := by
  rw [nearest]
  split
  · exact isNaN_ofScientific _ _ _
  · exact isNaN_ofScientific _ _ _

theorem isNaN_nearestSigned (negative : Bool) (significand : Nat) (scale : Int) :
    (nearestSigned negative significand scale).isNaN = false := by
  cases negative with
  | false => exact isNaN_nearest significand scale
  | true => exact (isNaN_neg _).trans (isNaN_nearest significand scale)

theorem isNaN_infinity (negative : Bool) : (infinity negative).isNaN = false := by
  cases negative <;> decide

end Millwork.Decimal
