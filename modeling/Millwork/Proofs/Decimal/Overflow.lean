import Millwork.Proofs.Decimal.Positive
/-!
# Whole numbers that are too large

A whole number is rounded to infinity from the middle between the greatest double and the next power of two
on: the last of the 53 digits of the greatest double is odd, so the middle itself is rounded up.
-/
namespace Millwork.Decimal
open Float.Model Float.Model.UnpackedFloat

/-- The least whole number that is rounded to infinity. -/
def overflow : Nat :=
  2 ^ 1024 - 2 ^ 970

private theorem shiftRight_succ (m k : Nat) :
    ExtendedMantissa.ofMantissaAndAccuracy m .exact >>> (k + 1) =
      ⟨m / 2 ^ (k + 1), m / 2 ^ k % 2 != 0, m % 2 ^ k != 0⟩ := by
  induction k with
  | zero =>
    have hone : (ExtendedMantissa.ofMantissaAndAccuracy m .exact >>> (0 + 1)) =
        ⟨m / 2, m % 2 != 0, false⟩ := rfl
    rw [hone, Nat.pow_zero, Nat.div_one, Nat.mod_one]
    rfl
  | succ k ih =>
    have hstep : ExtendedMantissa.ofMantissaAndAccuracy m .exact >>> (k + 1 + 1) =
        (ExtendedMantissa.ofMantissaAndAccuracy m .exact >>> (k + 1)).shiftRightOne := rfl
    have hsticky : (m / 2 ^ k % 2 != 0 || m % 2 ^ k != 0) = (m % 2 ^ (k + 1) != 0) := by
      have hpos := Nat.two_pow_pos k
      have hmod : m % 2 ^ (k + 1) = m % 2 ^ k + 2 ^ k * (m / 2 ^ k % 2) := Nat.mod_pow_succ
      rw [Bool.eq_iff_iff, Bool.or_eq_true, bne_iff_ne, bne_iff_ne, bne_iff_ne, hmod]
      rcases Nat.mod_two_eq_zero_or_one (m / 2 ^ k) with hzero | hone
      · simp [hzero]
      · simp [hone]
    rw [hstep, ih, ExtendedMantissa.shiftRightOne, hsticky, Nat.div_div_eq_div_mul, ← Nat.pow_succ]

private theorem roundedMantissa_of_odd {m k : Nat} (h : m / 2 ^ (k + 1) % 2 = 1) :
    (ExtendedMantissa.ofMantissaAndAccuracy m .exact >>> (k + 1)).roundedMantissa =
      m / 2 ^ (k + 1) + m / 2 ^ k % 2 := by
  rw [shiftRight_succ, ExtendedMantissa.roundedMantissa]
  rcases Nat.mod_two_eq_zero_or_one (m / 2 ^ k) with hzero | hone
  · rw [hzero]
    cases (m % 2 ^ k != 0) <;> rfl
  · rw [hone]
    cases (m % 2 ^ k != 0)
    · show m / 2 ^ (k + 1) + m / 2 ^ (k + 1) % 2 = m / 2 ^ (k + 1) + 1
      rw [h]
    · rfl

private theorem isInf_unpacked {m : Nat} {e : Int} (h : Canonical m e) :
    (UnpackedFloat.unpack Format.binary64
        (UnpackedFloat.pack Format.binary64 (unpacked .positive m e))).isInf = true ↔ 972 ≤ e := by
  constructor
  · intro hinf
    by_contra hlt
    rw [unpack_pack h (by omega), unpacked] at hinf
    split at hinf <;> cases hinf
  · intro hle
    have hfull : 2 ^ 52 ≤ m := h.full.resolve_right (by omega)
    have hpos : 0 < m := by omega
    obtain ⟨k, hk, hpack⟩ := pack_finite .positive m e hpos
    rw [unpacked_pos .positive e hpos, hpack, if_pos (by omega)]
    rfl

private theorem isInf_carried {r : Nat} {e : Int} (hr : r ≤ 2 ^ 53) (he : 0 ≤ e) (hfull : 2 ^ 52 ≤ r) :
    (UnpackedFloat.unpack Format.binary64
        (UnpackedFloat.pack Format.binary64 (carried .positive r e))).isInf = true ↔
      972 ≤ e ∨ e = 971 ∧ r = 2 ^ 53 := by
  have hleast : -1074 ≤ e := by omega
  obtain ⟨n, f, hn, hcarried, hvalue⟩ := exists_carried .positive hr hleast (.inl hfull)
  rw [hcarried, isInf_unpacked hn]
  rcases hr.lt_or_eq with hlt | rfl
  · obtain ⟨-, rfl⟩ := hn.unique ⟨hlt, hleast, .inl hfull⟩ hvalue
    omega
  · have hcanonical : Canonical (2 ^ 52) (e + (1 : Nat)) := ⟨by decide, by omega, .inl le_rfl⟩
    obtain ⟨-, rfl⟩ := hn.unique hcanonical (hvalue.trans (scaleTwo_add (2 ^ 52) e 1).symm)
    omega

private theorem isInf_roundWithAccuracy {m k : Nat} {e : Int} (hk : m.log2 = 52 + (k + 1))
    (he : 0 ≤ e + (k + 1 : Nat)) :
    (UnpackedFloat.unpack Format.binary64 (UnpackedFloat.pack Format.binary64
        (roundWithAccuracy Format.binary64 .positive m e .exact))).isInf = true ↔
      972 ≤ e + (k + 1 : Nat) ∨ e + (k + 1 : Nat) = 971 ∧ (2 ^ 54 - 1) * 2 ^ k ≤ m := by
  have htarget : (Format.binary64.targetExponent (totalExponent m e) - e).toNat = k + 1 := by
    rw [targetExponent_binary64, totalExponent]
    omega
  have hshift : shiftToTargetExponent Format.binary64 m e .exact =
      (ExtendedMantissa.ofMantissaAndAccuracy m .exact >>> (k + 1), e + (k + 1 : Nat)) := by
    rw [shiftToTargetExponent, shiftToExponent, htarget]
  generalize hr : (ExtendedMantissa.ofMantissaAndAccuracy m .exact >>> (k + 1)).roundedMantissa = r
  have hround : roundWithAccuracy Format.binary64 .positive m e .exact =
      carried .positive r (e + (k + 1 : Nat)) := by
    rw [← hr]
    show carried .positive (shiftToTargetExponent Format.binary64 m e .exact).1.roundedMantissa
      (shiftToTargetExponent Format.binary64 m e .exact).2 = _
    rw [hshift]
  have hm : m ≠ 0 := by
    rintro rfl
    rw [Nat.log2_zero] at hk
    omega
  -- the digits that are kept, and those with the first one that is dropped
  have hkept : m / 2 ^ (k + 1) = m / 2 ^ k / 2 := by
    rw [Nat.div_div_eq_div_mul, ← Nat.pow_succ]
  have hlow : 2 ^ 52 ≤ m / 2 ^ (k + 1) := by
    rw [Nat.le_div_iff_mul_le (Nat.two_pow_pos _), ← Nat.pow_add, ← hk]
    exact Nat.log2_self_le hm
  have hhigh : m / 2 ^ (k + 1) < 2 ^ 53 := by
    rw [Nat.div_lt_iff_lt_mul (Nat.two_pow_pos _), ← Nat.pow_add]
    exact (Nat.log2_lt hm).1 (by omega)
  have hbounds : m / 2 ^ (k + 1) ≤ r ∧ r ≤ m / 2 ^ (k + 1) + 1 := by
    rw [← hr, shiftRight_succ]
    exact roundToNearestEven_bounds _ _
  have hup : r = 2 ^ 53 ↔ (2 ^ 54 - 1) * 2 ^ k ≤ m := by
    rw [← Nat.le_div_iff_mul_le (Nat.two_pow_pos k)]
    by_cases hodd : m / 2 ^ (k + 1) % 2 = 1
    · rw [roundedMantissa_of_odd hodd] at hr
      omega
    · omega
  rw [hround, isInf_carried (by omega) he (by omega), hup]

private theorem unpack_nearest {n : Nat} (h : 2 ^ 53 ≤ n) :
    (nearest n 0).toModel.unpack = UnpackedFloat.unpack Format.binary64 (UnpackedFloat.pack
      Format.binary64 (roundWithAccuracy Format.binary64 .positive (n * 2 ^ 53) (-53 + 0) .exact)) := by
  have hlong : nearest n 0 = Float.ofModel (Float.Model.ofScientific n 0) := by
    have hdigits : nearest n 0 = Float.ofScientific n false 0 := rfl
    rw [hdigits, Float.ofScientific, dif_neg (by omega)]
    rfl
  have hbits : (2 : Int) ^ Format.binary64.exponentBits = 2048 := rfl
  have hshift : n <<< 53 * 10 ^ 0 = n * 2 ^ 53 := by
    rw [Nat.pow_zero, Nat.mul_one, Nat.shiftLeft_eq]
  have hround : UnpackedFloat.ofScientific Format.binary64 n 0 =
      roundWithAccuracy Format.binary64 .positive (n * 2 ^ 53) (-53 + 0) .exact := by
    rw [UnpackedFloat.ofScientific, dif_neg (by omega), if_neg (by omega), if_neg (by omega),
      if_pos le_rfl, ← hshift]
    rfl
  rw [← hround, hlong]
  rfl

private theorem log2_mul_two_pow {n : Nat} (h : n ≠ 0) (k : Nat) : (n * 2 ^ k).log2 = n.log2 + k := by
  have hback : n * 2 ^ k / 2 ^ k = n := Nat.mul_div_cancel n (Nat.two_pow_pos k)
  have hdiv := log2_div_two_pow (m := n * 2 ^ k) (k := k) (by rwa [hback])
  rwa [hback] at hdiv

private theorem overflow_eq : overflow = (2 ^ 54 - 1) * 2 ^ 970 := by
  rw [overflow, Nat.sub_mul, Nat.one_mul, ← Nat.pow_add]

private theorem ones_bounds (k : Nat) :
    2 ^ (53 + k) ≤ (2 ^ 54 - 1) * 2 ^ k ∧ (2 ^ 54 - 1) * 2 ^ k ≤ 2 ^ (54 + k) := by
  rw [Nat.pow_add, Nat.pow_add]
  exact ⟨Nat.mul_le_mul_right _ (by decide), Nat.mul_le_mul_right _ (by decide)⟩

private theorem mul_two_pow_le_iff (m n k : Nat) : m * 2 ^ (k + 53) ≤ n * 2 ^ 53 ↔ m * 2 ^ k ≤ n := by
  rw [Nat.pow_add, ← Nat.mul_assoc, Nat.mul_le_mul_right_iff (Nat.two_pow_pos 53)]

theorem isInf_nearest_iff (n : Nat) : (nearest n 0).isInf = true ↔ overflow ≤ n := by
  have hbounds := ones_bounds 970
  rw [← overflow_eq] at hbounds
  obtain ⟨hfirst, hnext⟩ := hbounds
  by_cases hsmall : n < 2 ^ 64
  · have hoverflow : 2 ^ 64 ≤ overflow := (Nat.pow_le_pow_right (by decide) (by decide)).trans hfirst
    rw [isInf_nearest hsmall]
    exact iff_of_false Bool.false_ne_true (by omega)
  · have hn : n ≠ 0 := by
      rintro rfl
      exact hsmall (by decide)
    have hplaces (k : Nat) : k ≤ n.log2 ↔ 2 ^ k ≤ n := Nat.le_log2 hn
    have hlarge : 64 ≤ n.log2 := (hplaces 64).2 (by omega)
    have hlog : (n * 2 ^ 53).log2 = 52 + (n.log2 + 1) := by
      rw [log2_mul_two_pow hn]
      omega
    have hinf : (nearest n 0).isInf = true ↔ 972 ≤ -53 + 0 + ((n.log2 + 1 : Nat) : Int) ∨
        -53 + 0 + ((n.log2 + 1 : Nat) : Int) = 971 ∧ (2 ^ 54 - 1) * 2 ^ n.log2 ≤ n * 2 ^ 53 := by
      rw [← isInf_roundWithAccuracy hlog (by omega), ← unpack_nearest (by omega)]
      rfl
    rw [hinf]
    constructor
    · rintro (hplace | ⟨hplace, hle⟩)
      · have hbeyond : 54 + 970 ≤ n.log2 := by omega
        exact hnext.trans ((hplaces _).1 hbeyond)
      · have hexponent : n.log2 = 970 + 53 := by omega
        rw [hexponent, mul_two_pow_le_iff] at hle
        rwa [overflow_eq]
    · intro hle
      have hplace : 53 + 970 ≤ n.log2 := (hplaces _).2 (hfirst.trans hle)
      by_cases hmore : 1024 ≤ n.log2
      · left
        omega
      · have hexponent : n.log2 = 970 + 53 := by omega
        rw [hexponent, mul_two_pow_le_iff, ← overflow_eq]
        exact .inr ⟨by decide, hle⟩

theorem nearest_ne_zero {n : Nat} (h : 0 < n) : nearest n 0 ≠ 0 := by
  have hzero : (0 : Float).toModel.unpack = .zero .positive := rfl
  intro he
  rcases le_total n (2 ^ 53) with hsmall | hlarge
  · obtain ⟨m, e, hdigits, hvalue⟩ := digits_nearest_natCast hsmall
    have hm : 0 < m := Nat.pos_of_ne_zero fun hm => by
      rw [hm, scaleTwo_zero] at hvalue
      exact h.ne (Nat.cast_eq_zero.1 hvalue.symm).symm
    have hfinite := hdigits.unpack_pos hm
    rw [he, hzero] at hfinite
    cases hfinite
  · have hreaches : Reaches 1 (nearest n 0).toModel.unpack := by
      have hlog := log2_mul_two_pow h.ne' 53
      rw [unpack_nearest hlarge]
      apply unpack_pack_reaches (by decide)
      apply roundWithAccuracy_reaches le_rfl (Nat.mul_pos h (Nat.two_pow_pos 53)).ne'
      · rw [totalExponent, hlog]
        omega
      · rw [totalExponent, hlog]
        omega
    rw [he, hzero] at hreaches
    cases hreaches

end Millwork.Decimal
