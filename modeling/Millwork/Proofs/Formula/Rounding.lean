import Millwork.Formula
import Millwork.Proofs.Decimal.Floor
/-!
# Rounding in formulas

A number is rounded by taking the greatest whole number not above its sum with one half. The sum is rounded
itself, and that matters for one double only: the greatest one below one half is rounded to one.
-/
namespace Millwork.Decimal
open Float.Model Float.Model.UnpackedFloat

private def belowHalf : Float :=
  0.49999999999999994

private theorem digits_half : Digits 0.5 .positive (2 ^ 52) (-53) :=
  ⟨⟨by decide, by decide, .inl le_rfl⟩, by decide, rfl⟩

private theorem digits_belowHalf : Digits belowHalf .positive (2 ^ 53 - 1) (-54) :=
  ⟨⟨by decide, by decide, .inl (by decide)⟩, by decide, rfl⟩

private theorem exact_half : exact 0.5 = 1 / 2 := by
  rw [digits_half.exact]
  show ((2 ^ 52 : Nat) : ℚ) * 2 ^ (-53 : Int) = 1 / 2
  norm_num

section
variable {x : Float} {s : Sign} {m : Nat} {e : Int}

private theorem exact_add_half (hx : Digits x s m e) {j : Nat} (hj : e = -1 - j) :
    exact x + 1 / 2 = ((s.apply m + 2 ^ j : Int) : ℚ) * 2 ^ e := by
  have hhalf : (2 : ℚ) ^ j * 2 ^ e = 1 / 2 := by
    have hexponent : (j : Int) + e = -1 := by omega
    rw [← zpow_natCast, ← zpow_add₀ two_ne_zero, hexponent]
    norm_num
  rw [hx.exact, ← cast_apply, Int.cast_add, Int.cast_pow, Int.cast_ofNat, add_mul, hhalf]

private theorem exists_above_of_large (hx : Digits x s m e) (he : -53 ≤ e) (hsmall : e ≤ -2)
    (hsum : 2 ^ 53 * 2 ^ e < exact x + 1 / 2) :
    ∃ q, Representable q ∧ exact x + 1 / 2 ≤ q ∧ q < ⌊exact x + 1 / 2⌋ + 1 := by
  obtain ⟨t, rfl⟩ : ∃ t : Nat, e = t - 53 := ⟨(e + 53).toNat, by omega⟩
  have hpower : (2 : ℚ) ^ 53 * 2 ^ ((t : Int) - 53) = 2 ^ t := by
    rw [← zpow_natCast, ← zpow_add₀ two_ne_zero, ← zpow_natCast]
    congr 1
    omega
  rw [hpower] at hsum
  have hbelow : exact x < 2 ^ t := by
    have hdigits : (m : ℚ) < 2 ^ 53 := by exact_mod_cast hx.canonical.digits
    calc exact x ≤ |exact x| := le_abs_self _
      _ < 2 ^ 53 * 2 ^ ((t : Int) - 53) := by
          rw [hx.abs_exact]
          exact mul_lt_mul_of_pos_right hdigits (two_zpow_pos _)
      _ = 2 ^ t := hpower
  have hfloor : ((2 ^ t : Int) : ℚ) ≤ ⌊exact x + 1 / 2⌋ := by
    rw [Int.cast_le, Int.le_floor]
    exact_mod_cast hsum.le
  refine ⟨2 ^ t + 1 / 2, ?_, by linarith, ?_⟩
  · have hbits : (2 : Int) ^ (t + 1) ≤ 2 ^ 52 := pow_le_pow_right₀ (by decide) (by omega)
    have hpos : (0 : Int) < 2 ^ (t + 1) := by positivity
    have hrepresentable := representable_of_le (k := 2 ^ (t + 1) + 1) (e := -1) (by omega) (by decide)
    have hvalue : ((2 ^ (t + 1) + 1 : Int) : ℚ) * 2 ^ (-1 : Int) = 2 ^ t + 1 / 2 := by
      push_cast
      rw [pow_succ]
      norm_num
      ring
    rwa [hvalue] at hrepresentable
  · push_cast at hfloor
    linarith

private theorem exact_le_of_ne_belowHalf (hx : Digits x s m e) (he : e < -53) (hne : x ≠ belowHalf) :
    exact x ≤ scaleTwo (2 ^ 53 - 2) (-54) := by
  have hdigits := hx.canonical.digits
  rcases (Int.le_sub_one_of_lt he).lt_or_eq with hlt | rfl
  · have hbelow := hx.canonical.lt_of_exponent (n := 2 ^ 52) le_rfl hlt
    calc exact x ≤ |exact x| := le_abs_self _
      _ ≤ scaleTwo (2 ^ 52) (-54) := hx.abs_exact.trans_le hbelow.le
      _ ≤ scaleTwo (2 ^ 53 - 2) (-54) := scaleTwo_le_iff.2 (by decide)
  · rw [hx.exact]
    cases s with
    | positive =>
      have hm : m ≠ 2 ^ 53 - 1 := by
        rintro rfl
        exact hne (hx.unique digits_belowHalf)
      exact scaleTwo_le_iff.2 (by omega)
    | negative => exact (neg_nonpos.2 (scaleTwo_nonneg _ _)).trans (scaleTwo_nonneg _ _)

private theorem exists_above_of_small (hx : Digits x s m e) (he : e < -53) (hne : x ≠ belowHalf)
    (hsum : 0 ≤ exact x + 1 / 2) :
    ∃ q, Representable q ∧ exact x + 1 / 2 ≤ q ∧ q < ⌊exact x + 1 / 2⌋ + 1 := by
  have hrepresentable := representable_of_le (k := 2 ^ 53 - 1) (e := -53) (by decide) (by decide)
  have hbound := exact_le_of_ne_belowHalf hx he hne
  have hfloor : (0 : ℚ) ≤ ⌊exact x + 1 / 2⌋ := by
    exact_mod_cast Int.floor_nonneg.2 hsum
  refine ⟨_, hrepresentable, ?_, ?_⟩
  · norm_num [scaleTwo] at hbound ⊢
    linarith
  · norm_num
    linarith

private theorem exists_above (hx : Digits x s m e) (hwhole : isWhole x = false) (hne : x ≠ belowHalf) :
    ∃ q, Representable q ∧ exact x + 1 / 2 ≤ q ∧ q < ⌊exact x + 1 / 2⌋ + 1 := by
  have hneg := exponent_neg hx hwhole
  have hdigits := hx.canonical.digits
  obtain ⟨j, hj⟩ : ∃ j : Nat, e = -1 - j := ⟨(-1 - e).toNat, by omega⟩
  have hsum := exact_add_half hx hj
  have happly : (s.apply m).natAbs = m := by
    cases s with
    | positive => rfl
    | negative => exact Int.natAbs_neg m
  by_cases hrepresentable : (s.apply m + 2 ^ j : Int).natAbs ≤ 2 ^ 53
  · exact ⟨_, representable_of_le hrepresentable hx.canonical.least, hsum.le,
      hsum ▸ Int.lt_floor_add_one _⟩
  · -- the sum has one digit more than the number
    have hpow : (0 : Int) < 2 ^ j := by positivity
    have habove : (2 : Int) ^ 53 < s.apply m + 2 ^ j := by omega
    have hlarge : 2 ^ 53 * 2 ^ e < exact x + 1 / 2 := by
      rw [hsum]
      have hcast : ((2 ^ 53 : Int) : ℚ) < (s.apply m + 2 ^ j : Int) := Int.cast_lt.2 habove
      push_cast at hcast ⊢
      exact mul_lt_mul_of_pos_right hcast (two_zpow_pos e)
    rcases le_or_gt (-53) e with he | he
    · have hj : j ≠ 0 := by
        rintro rfl
        omega
      exact exists_above_of_large hx he (by omega) hlarge
    · have hpos : 0 ≤ exact x + 1 / 2 := le_trans (by positivity) hlarge.le
      exact exists_above_of_small hx he hne hpos

private theorem floor_exact_add_half (hx : Digits x s m e) (hwhole : isWhole x = false)
    (hne : x ≠ belowHalf) :
    (x + 0.5).isFinite = true ∧ ⌊exact (x + 0.5)⌋ = ⌊exact x + 1 / 2⌋ := by
  obtain ⟨hlow, hhigh⟩ := abs_lt.1 (abs_exact_lt hx hwhole)
  have hgreatest : (2 : ℚ) ^ 53 - 1 ≤ greatest := by
    have hone : (1 : ℚ) ≤ 2 ^ (971 : Int) := one_le_zpow₀ one_le_two (by decide)
    have hcast : ((2 ^ 53 - 1 : Nat) : ℚ) = 2 ^ 53 - 1 := by norm_num
    rw [greatest, scaleTwo, hcast]
    exact le_mul_of_one_le_right (by norm_num) hone
  have hbound : |exact x + exact 0.5| ≤ greatest := by
    rw [exact_half, abs_le]
    constructor
    · linarith
    · linarith
  obtain ⟨hfinite, hfaithful⟩ := exact_add hx.finite digits_half.finite hbound
  rw [exact_half] at hfaithful
  refine ⟨hfinite, Int.floor_eq_iff.2 ⟨?_, ?_⟩⟩
  · have hleast : -2 ^ 52 ≤ ⌊exact x + 1 / 2⌋ := by
      rw [Int.le_floor]
      push_cast
      linarith
    have hmost : ⌊exact x + 1 / 2⌋ < 2 ^ 52 + 1 := by
      rw [Int.floor_lt]
      push_cast
      linarith
    exact (hfaithful _ (representable_intCast (by omega))).1 (Int.floor_le _)
  · obtain ⟨q, hq, hle, hlt⟩ := exists_above hx hwhole hne
    exact ((hfaithful q hq).2 hle).trans_lt hlt

end
end Millwork.Decimal

namespace Millwork.Formula
open Decimal

/-- The double is a whole number, the one nearest to the given number, a half going up. -/
def IsNearestWhole (y : Float) (q : ℚ) : Prop :=
  y.isFinite = true ∧ ∃ n : Int, exact y = n ∧ (n : ℚ) - 1 / 2 ≤ q ∧ q < n + 1 / 2

private theorem roundHalfUp_nearest {x : Float} (h : x.isFinite = true) (hne : x ≠ belowHalf) :
    IsNearestWhole (roundHalfUp x) (exact x) := by
  rw [roundHalfUp, h, Bool.not_true, Bool.or_false]
  cases hwhole : isWhole x with
  | true =>
    obtain ⟨n, hn⟩ := (isWhole_iff h).1 hwhole
    refine ⟨h, n, hn, ?_, ?_⟩
    · rw [hn]
      linarith
    · rw [hn]
      linarith
  | false =>
    obtain ⟨s, m, e, hx⟩ := exists_digits h
    obtain ⟨hfinite, hfloor⟩ := floor_exact_add_half hx hwhole hne
    obtain ⟨hresult, hvalue⟩ := exact_floor hfinite
    have hlow := Int.floor_le (exact x + 1 / 2)
    have hhigh := Int.lt_floor_add_one (exact x + 1 / 2)
    refine ⟨hresult, ⌊exact x + 1 / 2⌋, by rw [← hfloor, ← hvalue]; rfl, ?_, ?_⟩
    · linarith
    · linarith

private theorem roundHalfUp_belowHalf : roundHalfUp belowHalf = 1.0 := by
  decide

private theorem exact_one : exact 1.0 = 1 := by
  have hone : Digits 1.0 .positive (2 ^ 52) (-52) :=
    ⟨⟨by decide, by decide, .inl le_rfl⟩, by decide, rfl⟩
  rw [hone.exact]
  show ((2 ^ 52 : Nat) : ℚ) * 2 ^ (-52 : Int) = 1
  norm_num

private theorem exact_belowHalf_lt : exact belowHalf < 1 / 2 := by
  rw [digits_belowHalf.exact]
  show ((2 ^ 53 - 1 : Nat) : ℚ) * 2 ^ (-54 : Int) < 1 / 2
  norm_num

private theorem not_isNearestWhole_one {q : ℚ} (h : q < 1 / 2) : ¬IsNearestWhole 1.0 q := by
  rintro ⟨-, n, hn, hlow, -⟩
  rw [exact_one] at hn
  rw [← hn] at hlow
  linarith

/-- Rounding in a formula gives the nearest whole number, a half going up, for every finite number but the
greatest one below one half. -/
theorem evaluate_round_iff {formula : Formula} {e : Expr} (h : formula.expr = .call .round [e])
    (order : Order) (hfinite : (e.eval order).toNumber.isFinite = true) :
    IsNearestWhole (formula.evaluate order) (exact (e.eval order).toNumber) ↔
      (e.eval order).toNumber ≠ 0.49999999999999994 := by
  have hvalue : formula.evaluate order = roundHalfUp (e.eval order).toNumber := by
    rw [evaluate, h]
    rfl
  rw [hvalue]
  constructor
  · intro hnearest heq
    have hbelow : (e.eval order).toNumber = belowHalf := heq
    rw [hbelow, roundHalfUp_belowHalf] at hnearest
    exact not_isNearestWhole_one exact_belowHalf_lt hnearest
  · exact roundHalfUp_nearest hfinite

theorem evaluate_round_half :
    let e : Expr := .number 2.5
    let formula : Formula := ⟨"Math.round(2.5)", .call .round [e]⟩
    formula.expr = .call .round [e] ∧ (e.eval Order.empty).toNumber.isFinite = true ∧
      IsNearestWhole (formula.evaluate Order.empty) (exact (e.eval Order.empty).toNumber) := by
  intro e formula
  have hfinite : (e.eval Order.empty).toNumber.isFinite = true := by decide
  have hne : (e.eval Order.empty).toNumber ≠ 0.49999999999999994 := by decide +kernel
  have hexpr : formula.expr = .call .round [e] := rfl
  exact ⟨hexpr, hfinite, (evaluate_round_iff hexpr Order.empty hfinite).2 hne⟩

/-- The greatest number below one half is rounded to one. -/
theorem evaluateText_round_belowHalf :
    (evaluateText "0.49999999999999994" Order.empty).toOption = some 0.49999999999999994 ∧
      (0.49999999999999994 : Float).isFinite = true ∧
      (evaluateText "Math.round(0.49999999999999994)" Order.empty).toOption = some 1.0 ∧
      ¬IsNearestWhole 1.0 (exact 0.49999999999999994) :=
  ⟨by decide +kernel, digits_belowHalf.finite, by decide +kernel,
    not_isNearestWhole_one exact_belowHalf_lt⟩

end Millwork.Formula
