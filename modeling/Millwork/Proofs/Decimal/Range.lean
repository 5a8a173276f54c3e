import Millwork.Json.Numeral
import Mathlib.Algebra.Order.Ring.Nat
/-!
# The range of doubles

Rounding moves the first binary digit of a number by at most one place. So the place of that digit tells
whether a product or a quotient is within the range of doubles, for numbers of any size.
-/
namespace Millwork.Decimal
open Float.Model Float.Model.UnpackedFloat

theorem log2_mono {a b : Nat} (h : a ≤ b) : a.log2 ≤ b.log2 := by
  by_cases ha : a = 0
  · rw [ha, Nat.log2_zero]
    exact Nat.zero_le _
  · exact (Nat.le_log2 (by omega)).2 ((Nat.log2_self_le ha).trans h)

private theorem log2_succ_le (m : Nat) : (m + 1).log2 ≤ m.log2 + 1 := by
  have hlt : m < 2 ^ (m.log2 + 1) := Nat.lt_log2_self
  have hpow : 2 ^ (m.log2 + 2) = 2 * 2 ^ (m.log2 + 1) := Nat.pow_succ'
  have hsucc : (m + 1).log2 < m.log2 + 2 := (Nat.log2_lt (Nat.succ_ne_zero m)).2 (by omega)
  omega

theorem log2_div_two_pow {m k : Nat} (h : m / 2 ^ k ≠ 0) : m.log2 = (m / 2 ^ k).log2 + k := by
  have hpos : 0 < 2 ^ k := Nat.two_pow_pos k
  have hm : m ≠ 0 := by
    rintro rfl
    exact h (Nat.zero_div _)
  refine (Nat.log2_eq_iff hm).2 ⟨?_, ?_⟩
  · rw [Nat.pow_add]
    exact (Nat.le_div_iff_mul_le hpos).1 (Nat.log2_self_le h)
  · have hlt : m / 2 ^ k < 2 ^ ((m / 2 ^ k).log2 + 1) := Nat.lt_log2_self
    rw [Nat.div_lt_iff_lt_mul hpos, ← Nat.pow_add] at hlt
    rwa [Nat.add_right_comm]

theorem log2_mul_le (a b : Nat) : (a * b).log2 ≤ a.log2 + b.log2 + 1 := by
  by_cases h : a * b = 0
  · rw [h, Nat.log2_zero]
    exact Nat.zero_le _
  · have hlt : a * b < 2 ^ (a.log2 + 1) * 2 ^ (b.log2 + 1) :=
      Nat.mul_lt_mul'' Nat.lt_log2_self Nat.lt_log2_self
    rw [← Nat.pow_add] at hlt
    have hlog := (Nat.log2_lt h).2 hlt
    omega

private theorem le_log2_mul {a b : Nat} (ha : a ≠ 0) (hb : b ≠ 0) : a.log2 + b.log2 ≤ (a * b).log2 := by
  rw [Nat.le_log2 (Nat.mul_ne_zero ha hb), Nat.pow_add]
  exact Nat.mul_le_mul (Nat.log2_self_le ha) (Nat.log2_self_le hb)

private theorem log2_shiftLeft_le (m k : Nat) : (m <<< k).log2 ≤ m.log2 + k := by
  rw [Nat.shiftLeft_eq]
  by_cases h : m * 2 ^ k = 0
  · rw [h, Nat.log2_zero]
    exact Nat.zero_le _
  · have hback : m * 2 ^ k / 2 ^ k = m := Nat.mul_div_cancel m (Nat.two_pow_pos k)
    have hm : m ≠ 0 := fun hz => h (by rw [hz, Nat.zero_mul])
    have hlog := log2_div_two_pow (m := m * 2 ^ k) (k := k) (by rwa [hback])
    rw [hback] at hlog
    exact hlog.le

theorem targetExponent_binary64 (place : Int) :
    Format.binary64.targetExponent place = max (place - 53) (-1074) := by
  rw [Format.targetExponent]
  rfl

/-- Less than `2 ^ n` in magnitude, with no digit that is too high for 53 digits up to there. -/
inductive Below (n : Int) : UnpackedFloat → Prop
  | notANumber : Below n .notANumber
  | zero (s : Sign) : Below n (.zero s)
  | finite {s : Sign} {m : Nat} {e : Int} {h : 0 < m} (place : totalExponent m e ≤ n)
    (digits : e ≤ n - 53) : Below n (.finite s m e h)

/-- At least `2 ^ (n - 1)` in magnitude, in 53 digits. -/
inductive Reaches (n : Int) : UnpackedFloat → Prop
  | notANumber : Reaches n .notANumber
  | infinity (s : Sign) : Reaches n (.infinity s)
  | finite {s : Sign} {m : Nat} {e : Int} {h : 0 < m} (place : n ≤ totalExponent m e)
    (digits : m.log2 = 52) : Reaches n (.finite s m e h)

private theorem below_finite_iff {n : Int} {s : Sign} {m : Nat} {e : Int} {h : 0 < m} :
    Below n (.finite s m e h) ↔ totalExponent m e ≤ n ∧ e ≤ n - 53 :=
  ⟨fun | .finite place digits => ⟨place, digits⟩, fun ⟨place, digits⟩ => .finite place digits⟩

private theorem reaches_finite_iff {n : Int} {s : Sign} {m : Nat} {e : Int} {h : 0 < m} :
    Reaches n (.finite s m e h) ↔ n ≤ totalExponent m e ∧ m.log2 = 52 :=
  ⟨fun | .finite place digits => ⟨place, digits⟩, fun ⟨place, digits⟩ => .finite place digits⟩

instance decidableBelow (n : Int) (f : UnpackedFloat) : Decidable (Below n f) :=
  match f with
  | .notANumber => isTrue .notANumber
  | .zero s => isTrue (.zero s)
  | .finite _ _ _ _ => decidable_of_iff _ below_finite_iff.symm
  | .infinity _ => isFalse nofun

instance decidableReaches (n : Int) (f : UnpackedFloat) : Decidable (Reaches n f) :=
  match f with
  | .notANumber => isTrue .notANumber
  | .infinity s => isTrue (.infinity s)
  | .finite _ _ _ _ => decidable_of_iff _ reaches_finite_iff.symm
  | .zero _ => isFalse nofun

theorem Below.isInf {n : Int} {f : UnpackedFloat} (h : Below n f) : f.isInf = false := by
  cases h <;> rfl

private theorem mantissa_shiftRight (extended : ExtendedMantissa) (k : Nat) :
    (extended >>> k).mantissa = extended.mantissa / 2 ^ k := by
  induction k with
  | zero => exact (Nat.div_one _).symm
  | succ k ih =>
    have hstep : (extended >>> (k + 1)).mantissa = (extended >>> k).mantissa / 2 := rfl
    rw [hstep, ih, Nat.div_div_eq_div_mul, Nat.pow_succ]

private theorem mantissa_ofMantissaAndAccuracy (m : Nat) (a : Accuracy) :
    (ExtendedMantissa.ofMantissaAndAccuracy m a).mantissa = m := by
  cases a with
  | exact => rfl
  | inexact order => cases order <;> rfl

private theorem shiftRight_of_dvd {m k : Nat} (h : 2 ^ k ∣ m) :
    ExtendedMantissa.ofMantissaAndAccuracy m .exact >>> k =
      ExtendedMantissa.ofMantissaAndAccuracy (m / 2 ^ k) .exact := by
  induction k with
  | zero =>
    rw [Nat.pow_zero, Nat.div_one]
    rfl
  | succ k ih =>
    have hstep : ExtendedMantissa.ofMantissaAndAccuracy m .exact >>> (k + 1) =
        (ExtendedMantissa.ofMantissaAndAccuracy m .exact >>> k).shiftRightOne := rfl
    have heven : m / 2 ^ k % 2 = 0 := by
      obtain ⟨n, rfl⟩ := h
      rw [Nat.pow_succ, Nat.mul_assoc, Nat.mul_div_cancel_left _ (Nat.two_pow_pos k)]
      exact Nat.mul_mod_right 2 n
    rw [hstep, ih ((Nat.pow_dvd_pow 2 (Nat.le_succ k)).trans h), Nat.pow_succ,
      ← Nat.div_div_eq_div_mul]
    simp [ExtendedMantissa.shiftRightOne, ExtendedMantissa.ofMantissaAndAccuracy, heven]

theorem roundToNearestEven_bounds (m : Nat) (a : Accuracy) :
    m ≤ a.roundToNearestEven m ∧ a.roundToNearestEven m ≤ m + 1 := by
  cases a with
  | exact => exact ⟨le_rfl, Nat.le_succ m⟩
  | inexact order =>
    cases order <;> simp only [Accuracy.roundToNearestEven]
    · omega
    · omega
    · omega

/-- Digits are dropped up to the exponent that is aimed at. -/
theorem shiftToTargetExponent_eq (m : Nat) (e : Int) (a : Accuracy) :
    ∃ k : Nat, (shiftToTargetExponent Format.binary64 m e a).1.mantissa = m / 2 ^ k ∧
      (shiftToTargetExponent Format.binary64 m e a).2 = e + k ∧
      e + k = max e (max (totalExponent m e - 53) (-1074)) ∧
      (a = .exact → 2 ^ k ∣ m →
        (shiftToTargetExponent Format.binary64 m e a).1.accuracy = .exact) := by
  refine ⟨(Format.binary64.targetExponent (totalExponent m e) - e).toNat, ?_, rfl, ?_, ?_⟩
  · rw [shiftToTargetExponent, shiftToExponent]
    simp only [mantissa_shiftRight, mantissa_ofMantissaAndAccuracy]
  · rw [targetExponent_binary64]
    omega
  · rintro rfl h
    rw [shiftToTargetExponent, shiftToExponent]
    simp only [shiftRight_of_dvd h]
    rfl

def carried (s : Sign) (r : Nat) (e : Int) : UnpackedFloat :=
  let shifted := shiftToTargetExponent Format.binary64 r e .exact
  if h : shifted.1.mantissa = 0 then .zero s
  else .finite s shifted.1.mantissa shifted.2 (Nat.pos_of_ne_zero h)

private theorem carried_below {n : Int} (hn : -1021 ≤ n) {r : Nat} {e : Int}
    (ht : totalExponent r e ≤ n) (he : e ≤ n - 53) (s : Sign) : Below n (carried s r e) := by
  obtain ⟨k, hm, hexp, hk, -⟩ := shiftToTargetExponent_eq r e .exact
  rw [carried]
  by_cases hzero : r / 2 ^ k = 0
  · rw [dif_pos (hm.trans hzero)]
    exact .zero s
  · have hlog := log2_div_two_pow hzero
    rw [dif_neg (by rwa [hm]), below_finite_iff]
    simp only [totalExponent, hm, hexp] at *
    omega

private theorem carried_reaches {n : Int} (hn : -1021 ≤ n) {r : Nat} (hr : r ≠ 0) {e : Int}
    (ht : n ≤ totalExponent r e) (he : e ≤ totalExponent r e - 53) (s : Sign) :
    Reaches n (carried s r e) := by
  obtain ⟨k, hm, hexp, hk, -⟩ := shiftToTargetExponent_eq r e .exact
  have hfirst : 52 + k = r.log2 := by
    simp only [totalExponent] at *
    omega
  have hne : r / 2 ^ k ≠ 0 := by
    have hle : 2 ^ k ≤ r :=
      (Nat.pow_le_pow_right (by decide) (by omega)).trans (Nat.log2_self_le hr)
    exact (Nat.div_pos hle (Nat.two_pow_pos k)).ne'
  have hlog := log2_div_two_pow hne
  rw [carried, dif_neg (by rwa [hm]), reaches_finite_iff]
  simp only [totalExponent, hm, hexp] at *
  omega

/-- Digits are dropped, the last one that is left may be raised, and the carry is taken care of. -/
theorem roundWithAccuracy_eq (s : Sign) (m : Nat) (e : Int) (a : Accuracy) :
    ∃ k r : Nat, roundWithAccuracy Format.binary64 s m e a = carried s r (e + k) ∧
      e + k = max e (max (totalExponent m e - 53) (-1074)) ∧ m / 2 ^ k ≤ r ∧ r ≤ m / 2 ^ k + 1 ∧
      (a = .exact → 2 ^ k ∣ m → r = m / 2 ^ k) := by
  obtain ⟨k, hm, hexp, hk, hexact⟩ := shiftToTargetExponent_eq m e a
  obtain ⟨hlow, hhigh⟩ := roundToNearestEven_bounds (m / 2 ^ k)
    (shiftToTargetExponent Format.binary64 m e a).1.accuracy
  refine ⟨k, _, ?_, hk, hlow, hhigh, fun ha hd => ?_⟩
  · rw [← hm, ← hexp]
    rfl
  · rw [hexact ha hd]
    rfl

private theorem roundWithAccuracy_below {n : Int} (hn : -1021 ≤ n) {m : Nat} {e : Int}
    (ht : totalExponent m e < n) (he : e ≤ n - 53) (s : Sign) (a : Accuracy) :
    Below n (roundWithAccuracy Format.binary64 s m e a) := by
  obtain ⟨k, r, hround, hk, -, hr, -⟩ := roundWithAccuracy_eq s m e a
  rw [hround]
  have hlog : r.log2 ≤ (m / 2 ^ k).log2 + 1 := (log2_mono hr).trans (log2_succ_le _)
  apply carried_below hn
  · by_cases hzero : m / 2 ^ k = 0
    · -- no digit is left, unless the number is rounded up to the last one
      have hone : r.log2 ≤ Nat.log2 1 := log2_mono (by omega)
      rw [show Nat.log2 1 = 0 from rfl] at hone
      simp only [totalExponent] at *
      omega
    · have hfirst := log2_div_two_pow hzero
      simp only [totalExponent] at *
      omega
  · simp only [totalExponent] at *
    omega

theorem roundWithAccuracy_reaches {n : Int} (hn : 1 ≤ n) {m : Nat} (hm : m ≠ 0) {e : Int}
    (ht : n ≤ totalExponent m e) (he : e ≤ totalExponent m e - 53) (s : Sign) (a : Accuracy) :
    Reaches n (roundWithAccuracy Format.binary64 s m e a) := by
  obtain ⟨k, r, hround, hk, hr, -⟩ := roundWithAccuracy_eq s m e a
  rw [hround]
  have hdigits : k ≤ m.log2 := by
    simp only [totalExponent] at *
    omega
  have hne : m / 2 ^ k ≠ 0 := by
    have hle : 2 ^ k ≤ m := (Nat.pow_le_pow_right (by decide) hdigits).trans (Nat.log2_self_le hm)
    exact (Nat.div_pos hle (Nat.two_pow_pos k)).ne'
  have hfirst := log2_div_two_pow hne
  have hlog : (m / 2 ^ k).log2 ≤ r.log2 := log2_mono hr
  have hkept : r ≠ 0 := fun h => hne (Nat.le_zero.1 (h ▸ hr))
  apply carried_reaches (by omega) hkept
  · simp only [totalExponent] at *
    omega
  · simp only [totalExponent] at *
    omega

private theorem mul_below {n a b : Int} (hn : -1021 ≤ n) (hab : a + b < n) {f g : UnpackedFloat}
    (hf : Below a f) (hg : Below b g) : Below n (mul Format.binary64 f g) := by
  cases hf with
  | notANumber => exact .notANumber
  | zero s =>
    cases hg with
    | notANumber => exact .notANumber
    | zero s' => exact .zero _
    | finite => exact .zero _
  | @finite s m₁ e₁ h₁ ht₁ he₁ =>
    cases hg with
    | notANumber => exact .notANumber
    | zero s' => exact .zero _
    | @finite s' m₂ e₂ h₂ ht₂ he₂ =>
      have hlog := log2_mul_le m₁ m₂
      have hround : Below n
          (roundWithAccuracy Format.binary64 (s * s') (m₁ * m₂) (e₁ + e₂) .exact) := by
        simp only [totalExponent] at ht₁ ht₂
        apply roundWithAccuracy_below hn
        · simp only [totalExponent]
          omega
        · omega
      exact hround

private theorem divCore_bounds (m₁ : Nat) (e₁ : Int) {m₂ : Nat} (h₂ : m₂ ≠ 0) (e₂ : Int) :
    let quotient := divCore Format.binary64 m₁ e₁ m₂ e₂
    let place := totalExponent m₁ e₁ - totalExponent m₂ e₂
    quotient.2.1 ≤ max (place - 53) (-1074) ∧
      totalExponent quotient.1 quotient.2.1 ≤ max (place + 1) (quotient.2.1 + 1) := by
  intro quotient place
  have htarget : quotient.2.1 = min (e₁ - e₂) (max (place - 53) (-1074)) := by
    rw [← targetExponent_binary64]
    rfl
  refine ⟨by omega, ?_⟩
  obtain ⟨k, hk⟩ : ∃ k : Nat, e₁ - e₂ - quotient.2.1 = k := ⟨_, (Int.toNat_of_nonneg (by omega)).symm⟩
  have hq : quotient.1 = (m₁ <<< k) / m₂ := by
    have hshift : (e₁ - e₂ - quotient.2.1).toNat = k := by omega
    rw [← hshift]
    rfl
  by_cases hzero : quotient.1 = 0
  · rw [hzero]
    simp only [totalExponent, Nat.log2_zero]
    omega
  · have hmul : quotient.1 * m₂ ≤ m₁ <<< k := by
      rw [hq]
      exact Nat.div_mul_le_self _ _
    have hlog : quotient.1.log2 + m₂.log2 ≤ m₁.log2 + k :=
      ((le_log2_mul hzero h₂).trans (log2_mono hmul)).trans (log2_shiftLeft_le m₁ k)
    simp only [place, totalExponent] at *
    omega

private theorem div_below {f g : UnpackedFloat} (hf : Below 1024 f) (hg : Reaches 2 g) :
    Below 1024 (div Format.binary64 f g) := by
  cases hf with
  | notANumber => exact .notANumber
  | zero s =>
    cases hg with
    | notANumber => exact .notANumber
    | infinity s' => exact .zero _
    | finite => exact .zero _
  | @finite s m₁ e₁ h₁ ht₁ he₁ =>
    cases hg with
    | notANumber => exact .notANumber
    | infinity s' => exact .zero _
    | @finite s' m₂ e₂ h₂ ht₂ =>
      have hbounds := divCore_bounds m₁ e₁ h₂.ne' e₂
      generalize hq : divCore Format.binary64 m₁ e₁ m₂ e₂ = quotient at hbounds
      have hdiv : div Format.binary64 (.finite s m₁ e₁ h₁) (.finite s' m₂ e₂ h₂) =
          roundWithAccuracy Format.binary64 (s / s') quotient.1 quotient.2.1 quotient.2.2 := by
        rw [← hq]
        rfl
      -- the divisor takes one place off, which is what rounding may add
      rw [hdiv]
      apply roundWithAccuracy_below (by decide)
      · omega
      · omega

theorem toNat_implicit (w : BitVec 52) : (1#1 ++ w).toNat = 2 ^ 52 + w.toNat := by
  rw [BitVec.toNat_append, ← Nat.shiftLeft_add_eq_or_of_lt w.isLt]
  rfl

private theorem log2_implicit (w : BitVec 52) : (1#1 ++ w).toNat.log2 = 52 := by
  have hw : w.toNat < 2 ^ 52 := w.isLt
  rw [toNat_implicit, Nat.log2_eq_iff (by omega)]
  omega

private theorem log2_fraction_lt (w : BitVec 52) : w.toNat.log2 < 52 := by
  by_cases h : w.toNat = 0
  · rw [h]
    decide
  · exact (Nat.log2_lt h).2 w.isLt

theorem toNat_exponent {k : Nat} (h : k < 2048) : (BitVec.ofNat 11 k).toNat = k := by
  rw [BitVec.toNat_ofNat, Nat.mod_eq_of_lt h]

theorem exponent_ne {k l : Nat} (hk : k < 2048) (hl : l < 2048) (hne : k ≠ l) :
    BitVec.ofNat 11 k ≠ BitVec.ofNat 11 l := by
  intro he
  have hn := congrArg BitVec.toNat he
  rw [toNat_exponent hk, toNat_exponent hl] at hn
  exact hne hn

section
variable {b : BitVec Format.binary64.numBits}

theorem unpack_of_max (h : unpackExponent b = -1#11) :
    UnpackedFloat.unpack Format.binary64 b =
      if unpackMantissa b = 0#52 then .infinity (.ofBitVec (unpackSign b)) else .notANumber :=
  if_pos h

theorem unpack_of_zero (hmax : unpackExponent b ≠ -1#11) (h : unpackExponent b = 0#11) :
    (unpackMantissa b = 0#52 ∧
        UnpackedFloat.unpack Format.binary64 b = .zero (.ofBitVec (unpackSign b))) ∨
      (unpackMantissa b ≠ 0#52 ∧ ∃ hm, UnpackedFloat.unpack Format.binary64 b =
        .finite (.ofBitVec (unpackSign b)) (unpackMantissa b).toNat (-1074) hm) := by
  have hexp : ((unpackExponent b).toNat : Int) - ((1023 : Nat) + (52 : Nat)) + 1 = -1074 := by
    rw [h]
    rfl
  rw [← hexp]
  by_cases hz : unpackMantissa b = 0#52
  · exact .inl ⟨hz, ((if_neg hmax).trans (if_pos h)).trans (dif_pos hz)⟩
  · exact .inr ⟨hz, _, ((if_neg hmax).trans (if_pos h)).trans (dif_neg hz)⟩

theorem unpack_of_normal (hmax : unpackExponent b ≠ -1#11) (h : unpackExponent b ≠ 0#11) :
    ∃ hm, UnpackedFloat.unpack Format.binary64 b =
      .finite (.ofBitVec (unpackSign b)) (1#1 ++ unpackMantissa b).toNat
        ((unpackExponent b).toNat - ((1023 : Nat) + (52 : Nat))) hm :=
  ⟨_, (if_neg hmax).trans (if_neg h)⟩

variable {n : Int}

private theorem unpack_below (hn : -1021 ≤ n) (hv : ((unpackExponent b).toNat : Int) ≤ n + 1022)
    (hmax : unpackExponent b ≠ -1#11) : Below n (UnpackedFloat.unpack Format.binary64 b) := by
  by_cases hz : unpackExponent b = 0#11
  · rcases unpack_of_zero hmax hz with ⟨-, hu⟩ | ⟨-, hm, hu⟩
    · rw [hu]
      exact .zero _
    · have hlog := log2_fraction_lt (unpackMantissa b)
      rw [hu, below_finite_iff, totalExponent]
      omega
  · obtain ⟨hm, hu⟩ := unpack_of_normal hmax hz
    have hlog := log2_implicit (unpackMantissa b)
    rw [hu, below_finite_iff, totalExponent, hlog]
    omega

private theorem unpack_reaches (hv : n + 1022 ≤ ((unpackExponent b).toNat : Int))
    (hmin : unpackExponent b ≠ 0#11) : Reaches n (UnpackedFloat.unpack Format.binary64 b) := by
  by_cases hmax : unpackExponent b = -1#11
  · rw [unpack_of_max hmax]
    split
    · exact .infinity _
    · exact .notANumber
  · obtain ⟨hm, hu⟩ := unpack_of_normal hmax hmin
    have hlog := log2_implicit (unpackMantissa b)
    rw [hu, reaches_finite_iff, totalExponent, hlog]
    omega

end

/-- The exponent of a packed number is stored with an offset; what is too large becomes infinite. -/
theorem pack_finite (s : Sign) (m : Nat) (e : Int) (h : 0 < m) :
    ∃ k : Nat, k = (e + 1075).toNat ∧
      UnpackedFloat.pack Format.binary64 (.finite s m e h) =
        if 2048 ≤ k + 1 then packedInfinity Format.binary64 s
        else if m.log2 + 1 = 53 then
          packComponents Format.binary64 s (BitVec.ofNat 11 k) (BitVec.ofNat 52 m)
        else packComponents Format.binary64 s 0#11 (BitVec.ofNat 52 m) :=
  ⟨(e + (1023 : Nat) + (52 : Nat)).toNat, by omega, rfl⟩

private theorem unpack_pack_below {n : Int} (hn : -1021 ≤ n) (hmax : n ≤ 1024) {f : UnpackedFloat}
    (h : Below n f) :
    Below n (UnpackedFloat.unpack Format.binary64 (UnpackedFloat.pack Format.binary64 f)) := by
  cases h with
  | notANumber => exact .notANumber
  | zero s => cases s <;> exact .zero _
  | @finite s m e hm ht he =>
    obtain ⟨k, hk, hpack⟩ := pack_finite s m e hm
    rw [hpack, if_neg (by omega)]
    -- with all 53 digits the exponent is stored, with fewer it is the least one
    split
    · have hv : (BitVec.ofNat 11 k).toNat = k := toNat_exponent (by omega)
      apply unpack_below hn
      · rw [unpackExponent_packComponents, hv]
        omega
      · rw [unpackExponent_packComponents]
        exact exponent_ne (l := 2047) (by omega) (by decide) (by omega)
    · have hv : (0#11).toNat = 0 := rfl
      apply unpack_below hn
      · rw [unpackExponent_packComponents, hv]
        omega
      · rw [unpackExponent_packComponents]
        decide

theorem unpack_pack_reaches {n : Int} (hn : -1021 ≤ n) {f : UnpackedFloat} (h : Reaches n f) :
    Reaches n (UnpackedFloat.unpack Format.binary64 (UnpackedFloat.pack Format.binary64 f)) := by
  cases h with
  | notANumber => exact .notANumber
  | infinity s => cases s <;> exact .infinity _
  | @finite s m e hm ht hlog =>
    obtain ⟨k, hk, hpack⟩ := pack_finite s m e hm
    rw [totalExponent, hlog] at ht
    rw [hpack]
    split
    · cases s <;> exact .infinity _
    · have hv : (BitVec.ofNat 11 k).toNat = k := toNat_exponent (by omega)
      rw [if_pos (by omega)]
      apply unpack_reaches
      · rw [unpackExponent_packComponents, hv]
        omega
      · rw [unpackExponent_packComponents]
        exact exponent_ne (l := 0) (by omega) (by decide) (by omega)

theorem isFinite_eq (x : Float) : x.isFinite = !(x.isNaN || x.isInf) := by
  show x.toModel.unpack.isFinite = !(x.toModel.unpack.isNaN || x.toModel.unpack.isInf)
  cases x.toModel.unpack <;> rfl

private def exponentField (x : Float) : BitVec Format.binary64.exponentBits :=
  unpackExponent x.toModel.toBits.toBitVec

theorem isNaN_unpack {b : BitVec Format.binary64.numBits} (h : unpackExponent b ≠ -1#11) :
    (UnpackedFloat.unpack Format.binary64 b).isNaN = false := by
  by_cases hz : unpackExponent b = 0#11
  · rcases unpack_of_zero h hz with ⟨-, hu⟩ | ⟨-, hm, hu⟩
    · rw [hu]
      rfl
    · rw [hu]
      rfl
  · obtain ⟨hm, hu⟩ := unpack_of_normal h hz
    rw [hu]
    rfl

private theorem toBits_of_isNaN {x : Float} (h : x.isNaN = true) :
    x.toModel.toBits.toBitVec = packedNaN Format.binary64 := by
  have hnan : (UnpackedFloat.unpack Format.binary64 x.toModel.toBits.toBitVec).isNaN = true := h
  by_cases hmax : exponentField x = -1#11
  · apply x.toModel.valid.eq_packedNaN hmax
    intro hz
    rw [unpack_of_max hmax, if_pos hz] at hnan
    cases hnan
  · rw [isNaN_unpack hmax] at hnan
    cases hnan

theorem eq_of_isNaN {x y : Float} (hx : x.isNaN = true) (hy : y.isNaN = true) : x = y := by
  have hbits : x.toModel.toBits.toBitVec = y.toModel.toBits.toBitVec :=
    (toBits_of_isNaN hx).trans (toBits_of_isNaN hy).symm
  obtain ⟨⟨⟨a⟩, _⟩⟩ := x
  obtain ⟨⟨⟨b⟩, _⟩⟩ := y
  obtain rfl : a = b := hbits
  rfl

theorem isNaN_notANumber : notANumber.isNaN = true := by
  decide

theorem isInf_notANumber : notANumber.isInf = false := by
  decide

theorem eq_notANumber {x : Float} (hx : x.isFinite = false) (hi : x.isInf = false) :
    x = notANumber := by
  rw [isFinite_eq, hi, Bool.or_false, Bool.not_eq_false'] at hx
  exact eq_of_isNaN hx isNaN_notANumber

private theorem below_of_isInf {x : Float} (h : x.isInf = false) : Below 1024 x.toModel.unpack := by
  have hinf : (UnpackedFloat.unpack Format.binary64 x.toModel.toBits.toBitVec).isInf = false := h
  rw [Float.Model.unpack]
  by_cases hmax : exponentField x = -1#11
  · rw [unpack_of_max hmax] at hinf ⊢
    split
    · rename_i hz
      rw [if_pos hz] at hinf
      cases hinf
    · exact .notANumber
  · have hlt : (exponentField x).toNat < 2048 := (exponentField x).isLt
    have hne : (exponentField x).toNat ≠ 2047 := fun he => hmax (BitVec.eq_of_toNat_eq he)
    exact unpack_below (by decide) (by rw [exponentField] at *; omega) hmax

private theorem neg_below {n : Int} {f : UnpackedFloat} (h : Below n f) : Below n f.neg := by
  cases h with
  | notANumber => exact .notANumber
  | zero s => exact .zero _
  | finite place digits => exact .finite place digits

private theorem isInf_neg {x : Float} (h : x.isInf = false) : (-x).isInf = false :=
  (unpack_pack_below (by decide) (by decide) (neg_below (below_of_isInf h))).isInf

private theorem isInf_div {x y : Float} (hx : x.isInf = false) (hy : Reaches 2 y.toModel.unpack) :
    (x / y).isInf = false :=
  (unpack_pack_below (by decide) (by decide) (div_below (below_of_isInf hx) hy)).isInf

private theorem nearest_one_reaches_small :
    ∀ k : Fin 23, 0 < k.val → Reaches 2 (Float.ofScientific 1 false k.val).toModel.unpack := by
  decide

private theorem nearest_one_reaches {scale : Int} (h : 0 < scale) :
    Reaches 2 (nearest 1 scale).toModel.unpack := by
  obtain ⟨k, rfl⟩ : ∃ k : Nat, scale = k := ⟨_, (Int.toNat_of_nonneg h.le).symm⟩
  have hpower : nearest 1 k = Float.ofScientific 1 false k := by
    rw [nearest, if_neg (by omega), Int.toNat_natCast]
  rw [hpower]
  by_cases hk : k < 23
  · exact nearest_one_reaches_small ⟨k, hk⟩ (Int.natCast_pos.1 h)
  · have hlarge : Reaches 2 (UnpackedFloat.ofScientific Format.binary64 1 k) := by
      rw [UnpackedFloat.ofScientific, dif_neg (by decide)]
      by_cases hmax : (k : Int) > 2 ^ Format.binary64.exponentBits
      · rw [if_pos hmax]
        exact .infinity _
      · rw [if_neg hmax, if_neg (by omega), if_pos (by omega)]
        have hten : 10 ^ k ≠ 0 := (Nat.pow_pos (by decide)).ne'
        have hlog : (1 <<< 53).log2 + (10 ^ k).log2 ≤ (1 <<< 53 * 10 ^ k).log2 :=
          le_log2_mul (by decide) hten
        have hfirst : 3 ≤ (10 ^ k).log2 := by
          have hten : Nat.log2 10 ≤ (10 ^ k).log2 := log2_mono (Nat.le_self_pow (by omega) 10)
          exact hten
        have hshift : (1 <<< 53).log2 = 53 := by decide
        have hround : Reaches 2 (roundWithAccuracy Format.binary64 (.positive * .positive)
          (1 <<< 53 * 10 ^ k) (-53 + 0) .exact) := by
          apply roundWithAccuracy_reaches (by decide) (Nat.mul_ne_zero (by decide) hten)
          · simp only [totalExponent]
            omega
          · simp only [totalExponent]
            omega
        exact hround
    rw [Float.ofScientific, dif_neg (by omega)]
    exact unpack_pack_reaches (by decide) hlarge

private theorem totalExponent_lt {m bits : Nat} (h : m < 2 ^ bits) :
    totalExponent m 0 ≤ max bits 1 := by
  by_cases hm : m = 0
  · rw [hm]
    simp only [totalExponent, Nat.log2_zero]
    omega
  · have hlog : m.log2 < bits := (Nat.log2_lt hm).2 h
    simp only [totalExponent]
    omega

private theorem round_below {n : Int} (hn : -1021 ≤ n) {m : Nat} {e : Int} (ht : totalExponent m e < n)
    (he : e ≤ n - 53) (s : Sign) : Below n (UnpackedFloat.round Format.binary64 s m e) := by
  rw [UnpackedFloat.round, decreaseExponent]
  generalize (e - Format.binary64.targetExponent (totalExponent m e)).toNat = k
  have hlog := log2_shiftLeft_le m k
  simp only [totalExponent] at ht
  apply roundWithAccuracy_below hn
  · simp only [totalExponent]
    omega
  · omega

private theorem toFloat_below (m : UInt64) : Below 66 m.toFloat.toModel.unpack := by
  have hround : Below 66 (UnpackedFloat.ofUInt64 Format.binary64 m) := by
    have ht := totalExponent_lt m.toNat_lt
    rw [UnpackedFloat.ofUInt64, UnpackedFloat.ofNat, UnpackedFloat.ofInt,
      UnpackedFloat.normalize]
    split
    · rename_i hneg
      have hlt : (m.toNat : Int) < 0 := compare_lt_iff_lt.1 hneg
      omega
    · exact .zero _
    · rw [Int.toNat_natCast]
      exact round_below (by decide) (by omega) (by decide) _
  exact unpack_pack_below (by decide) (by decide) hround

private theorem ofScientific_below {m : Nat} (h : m < 2 ^ 64) :
    Below 128 (UnpackedFloat.ofScientific Format.binary64 m 0) := by
  by_cases hm : m = 0
  · rw [UnpackedFloat.ofScientific, dif_pos hm]
    exact .zero _
  · have hlog : m.log2 < 64 := (Nat.log2_lt hm).2 h
    have hshift := log2_shiftLeft_le m 53
    have hpos : 0 < m <<< 53 := by
      rw [Nat.shiftLeft_eq]
      omega
    have hdigits : Below 64 (.finite .positive (m <<< 53) (-53) hpos) := by
      rw [below_finite_iff, totalExponent]
      omega
    have hone : Below 53 (.finite .positive 1 0 Nat.one_pos) := by decide
    have hproduct := mul_below (n := 128) (by decide) (by decide) hdigits hone
    have hbits : (2 : Int) ^ Format.binary64.exponentBits = 2048 := rfl
    rw [UnpackedFloat.ofScientific, dif_neg hm, if_neg (by omega), if_neg (by omega),
      if_pos le_rfl]
    exact hproduct

theorem isInf_nearest {m : Nat} (h : m < 2 ^ 64) : (nearest m 0).isInf = false := by
  have hdigits : nearest m 0 = Float.ofScientific m false 0 := rfl
  rw [hdigits, Float.ofScientific]
  -- a number of up to 53 binary digits is converted and then multiplied, a larger one is rounded once
  split
  · have hone : Below 1 (Float.ofBits 0x3FF0000000000000).toModel.unpack := by
      decide
    have hmul := mul_below (n := 68) (by decide) (by decide) (toFloat_below m.toUInt64) hone
    exact (unpack_pack_below (by decide) (by decide) hmul).isInf
  · exact (unpack_pack_below (by decide) (by decide) (ofScientific_below h)).isInf

end Millwork.Decimal

namespace Millwork.Json.Numeral
open Decimal

private theorem accumulate_lt {significand : Nat} (h : significand < UInt64.size) (digits : List Char) :
    (accumulate significand digits).1 < UInt64.size := by
  induction digits generalizing significand with
  | nil => exact h
  | cons digit digits ih =>
    rw [accumulate]
    split
    · rename_i hnext
      exact ih hnext
    · exact h

private theorem kept_lt (l : Literal) : (kept l).1 < 2 ^ 64 := by
  have hwhole : (accumulate 0 l.whole).1 < UInt64.size := accumulate_lt (by decide) _
  exact accumulate_lt hwhole _

private theorem isInf_scaleBy {x y : Float} {scale : Int} (hx : x.isInf = false)
    (h : scaleBy x scale = some y) : y.isInf = false := by
  fun_induction scaleBy x scale with
  | case1 x scale hsmall hneg =>
    rw [← Option.some.inj h]
    exact isInf_div hx (nearest_one_reaches (by omega))
  | case2 => cases h
  | case3 x scale hsmall hneg hfinite =>
    rw [← Option.some.inj h]
    exact Bool.eq_false_iff.2 hfinite
  | case4 x scale hlarge hzero =>
    rw [← Option.some.inj h]
    exact hx
  | case5 => cases h
  | case6 x scale hlarge hne hneg ih =>
    exact ih (isInf_div hx (nearest_one_reaches (by decide))) h

theorem isInf_value? {n : Numeral} {x : Float} (h : n.value? = some x) : x.isInf = false := by
  obtain ⟨y, hy, rfl⟩ := Option.map_eq_some_iff.1 h
  have hscaled : y.isInf = false := isInf_scaleBy (isInf_nearest (kept_lt n.literal)) hy
  split
  · exact isInf_neg hscaled
  · exact hscaled

end Millwork.Json.Numeral
