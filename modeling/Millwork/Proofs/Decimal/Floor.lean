import Millwork.Proofs.Decimal.Nearest
/-!
# Whole numbers below a double

A double that is not whole is less than `2 ^ 52`, so the whole numbers next to it are doubles.
-/
namespace Millwork.Decimal
open Float.Model Float.Model.UnpackedFloat

section
variable {x : Float} {s : Sign} {m : Nat} {e : Int}

theorem exponent_neg (hx : Digits x s m e) (h : isWhole x = false) : e < 0 := by
  by_contra he
  obtain ⟨k, rfl⟩ : ∃ k : Nat, e = k := ⟨e.toNat, by omega⟩
  have hwhole : isWhole x = true := hx.isWhole.2 ⟨m * 2 ^ k, by
    rw [scaleTwo, zpow_natCast, Nat.cast_mul, Nat.cast_pow, Nat.cast_ofNat]⟩
  rw [h] at hwhole
  cases hwhole

theorem abs_exact_lt (hx : Digits x s m e) (h : isWhole x = false) : |exact x| < 2 ^ 52 := by
  have hdigits : (m : ℚ) < 2 ^ 53 := by exact_mod_cast hx.canonical.digits
  have he := exponent_neg hx h
  rw [hx.abs_exact]
  calc scaleTwo m e < 2 ^ 53 * 2 ^ e := mul_lt_mul_of_pos_right hdigits (two_zpow_pos e)
    _ ≤ 2 ^ 53 * 2 ^ (-1 : Int) := by
        gcongr
        · exact one_le_two
        · omega
    _ = 2 ^ 52 := by norm_num

/-- The greatest whole number not above a double is a double. -/
theorem exact_floor (h : x.isFinite = true) :
    (floor x).isFinite = true ∧ exact (floor x) = ⌊exact x⌋ := by
  cases hwhole : isWhole x with
  | true =>
    obtain ⟨n, hn⟩ := (isWhole_iff h).1 hwhole
    have hfloor : floor x = x := by
      rw [floor, hwhole, Bool.true_or, if_pos rfl]
    rw [hfloor]
    refine ⟨h, ?_⟩
    rw [hn, Int.floor_intCast]
  | false =>
    obtain ⟨s, m, e, hx⟩ := exists_digits h
    have hlt := abs_exact_lt hx hwhole
    rw [hx.abs_exact] at hlt
    have hnonneg := scaleTwo_nonneg m e
    have hpart : ⌊scaleTwo m e⌋₊ < 2 ^ 52 := by
      rw [Nat.floor_lt hnonneg]
      exact_mod_cast hlt
    have hnext := Nat.lt_floor_add_one (scaleTwo m e)
    rw [floor, hwhole, h, hx.wholePart, hx.isNegative, hx.exact]
    cases s with
    | positive =>
      obtain ⟨n, f, hy, hvalue⟩ := digits_nearest_natCast (n := ⌊scaleTwo m e⌋₊) (by omega)
      refine ⟨hy.finite, hy.exact.trans ?_⟩
      show scaleTwo n f = (⌊scaleTwo m e⌋ : ℚ)
      rw [hvalue, natCast_floor_eq_intCast_floor hnonneg]
    | negative =>
      obtain ⟨n, f, hy, hvalue⟩ := digits_nearest_natCast (n := ⌊scaleTwo m e⌋₊ + 1) (by omega)
      have hne : (⌊scaleTwo m e⌋₊ : ℚ) ≠ scaleTwo m e := fun heq => by
        have htrue := hx.isWhole.2 ⟨_, heq.symm⟩
        rw [hwhole] at htrue
        cases htrue
      have hbelow : (⌊scaleTwo m e⌋₊ : ℚ) < scaleTwo m e := (Nat.floor_le hnonneg).lt_of_ne hne
      have hfloor : ⌊-scaleTwo m e⌋ = -((⌊scaleTwo m e⌋₊ + 1 : Nat) : Int) := by
        rw [Int.floor_eq_iff]
        push_cast
        constructor
        · linarith
        · linarith
      refine ⟨hy.neg.finite, hy.neg.exact.trans ?_⟩
      show -scaleTwo n f = (⌊-scaleTwo m e⌋ : ℚ)
      rw [hvalue, hfloor, Int.cast_neg, Int.cast_natCast]

end
end Millwork.Decimal
