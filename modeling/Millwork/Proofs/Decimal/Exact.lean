import Mathlib
import Millwork.Proofs.Decimal.NotANumber
/-!
# Exact values

A finite double is a rational number with up to 53 binary digits. The digits and the exponent are
determined by the number, so doubles can be told apart by their values.
-/
namespace Millwork.Decimal
open Float.Model Float.Model.UnpackedFloat

/-- Up to 53 digits, and fewer than that only behind the least exponent. -/
structure Canonical (m : Nat) (e : Int) : Prop where
  digits : m < 2 ^ 53
  least : -1074 ≤ e
  full : 2 ^ 52 ≤ m ∨ e = -1074

/-- The number `m * 2 ^ e`. -/
def scaleTwo (m : Nat) (e : Int) : ℚ :=
  m * 2 ^ e

def Representable (q : ℚ) : Prop :=
  ∃ m e, Canonical m e ∧ |q| = scaleTwo m e

theorem two_zpow_pos (e : Int) : (0 : ℚ) < 2 ^ e := by
  positivity

theorem scaleTwo_nonneg (m : Nat) (e : Int) : 0 ≤ scaleTwo m e := by
  rw [scaleTwo]
  positivity

theorem scaleTwo_pos {m : Nat} (h : 0 < m) (e : Int) : 0 < scaleTwo m e := by
  rw [scaleTwo]
  positivity

theorem scaleTwo_zero (e : Int) : scaleTwo 0 e = 0 := by
  rw [scaleTwo, Nat.cast_zero, zero_mul]

theorem scaleTwo_add (m : Nat) (e : Int) (k : Nat) : scaleTwo m (e + k) = scaleTwo (m * 2 ^ k) e := by
  rw [scaleTwo, scaleTwo, zpow_add₀ two_ne_zero, zpow_natCast]
  push_cast
  ring

theorem scaleTwo_mul (m n : Nat) (e f : Int) :
    scaleTwo m e * scaleTwo n f = scaleTwo (m * n) (e + f) := by
  rw [scaleTwo, scaleTwo, scaleTwo, zpow_add₀ two_ne_zero, Nat.cast_mul]
  ring

theorem scaleTwo_le_iff {m n : Nat} {e : Int} : scaleTwo m e ≤ scaleTwo n e ↔ m ≤ n := by
  rw [scaleTwo, scaleTwo, mul_le_mul_iff_left₀ (two_zpow_pos e), Nat.cast_le]

private theorem scaleTwo_lt_iff {m n : Nat} {e : Int} : scaleTwo m e < scaleTwo n e ↔ m < n := by
  rw [scaleTwo, scaleTwo, mul_lt_mul_iff_left₀ (two_zpow_pos e), Nat.cast_lt]

theorem scaleTwo_inj {m n : Nat} {e : Int} (h : scaleTwo m e = scaleTwo n e) : m = n :=
  le_antisymm (scaleTwo_le_iff.1 h.le) (scaleTwo_le_iff.1 h.ge)

theorem Canonical.lt_of_exponent {m n : Nat} {e f : Int} (hm : Canonical m e) (hf : 2 ^ 52 ≤ n)
    (he : e < f) : scaleTwo m e < scaleTwo n f := by
  obtain ⟨k, rfl⟩ : ∃ k : Nat, f = e + 1 + k := ⟨(f - e - 1).toNat, by omega⟩
  have hup : 2 ^ 53 ≤ n * 2 ^ k * 2 ^ 1 := by
    have hle : n ≤ n * 2 ^ k := Nat.le_mul_of_pos_right n (Nat.two_pow_pos k)
    omega
  have hone : e + 1 = e + (1 : Nat) := rfl
  rw [scaleTwo_add, hone, scaleTwo_add, scaleTwo_lt_iff]
  exact hm.digits.trans_le hup

/-- The digits and the exponent of a number are determined. -/
theorem Canonical.unique {m n : Nat} {e f : Int} (hm : Canonical m e) (hn : Canonical n f)
    (h : scaleTwo m e = scaleTwo n f) : m = n ∧ e = f := by
  wlog hle : e ≤ f generalizing m n e f
  · obtain ⟨hdigits, hexponent⟩ := this hn hm h.symm (by omega)
    exact ⟨hdigits.symm, hexponent.symm⟩
  rcases hle.lt_or_eq with hlt | rfl
  · have hleast := hm.least
    have hfull : 2 ^ 52 ≤ n := hn.full.resolve_right (by omega)
    exact absurd h (hm.lt_of_exponent hfull hlt).ne
  · exact ⟨scaleTwo_inj h, rfl⟩

theorem log2_le_of_lt {m : Nat} (h : m < 2 ^ 53) : m.log2 ≤ 52 :=
  (log2_mono (Nat.le_pred_of_lt h)).trans (by decide)

theorem canonical_zero : Canonical 0 (-1074) :=
  ⟨by decide, le_rfl, .inr rfl⟩

private theorem canonical_shifted {m : Nat} {e : Int} (hpos : m ≠ 0) (hm : m < 2 ^ 53)
    (he : -1074 ≤ e) :
    ∃ k : Nat, Canonical (m * 2 ^ k) (e - k) := by
  have hlog := log2_le_of_lt hm
  obtain ⟨k, hk⟩ : ∃ k : Nat, k = min (52 - m.log2) (e + 1074).toNat := ⟨_, rfl⟩
  refine ⟨k, ?_, by omega, ?_⟩
  · calc m * 2 ^ k < 2 ^ (m.log2 + 1) * 2 ^ k :=
          Nat.mul_lt_mul_of_pos_right Nat.lt_log2_self (Nat.two_pow_pos k)
      _ = 2 ^ (m.log2 + 1 + k) := (Nat.pow_add ..).symm
      _ ≤ 2 ^ 53 := Nat.pow_le_pow_right (by decide) (by omega)
  · by_cases hend : e - k = -1074
    · exact .inr hend
    · left
      calc 2 ^ 52 = 2 ^ (m.log2 + k) := by rw [show m.log2 + k = 52 by omega]
        _ = 2 ^ m.log2 * 2 ^ k := Nat.pow_add ..
        _ ≤ m * 2 ^ k := Nat.mul_le_mul_right _ (Nat.log2_self_le hpos)

theorem exists_canonical {m : Nat} {e : Int} (hm : m ≤ 2 ^ 53) (he : -1074 ≤ e) :
    ∃ n f, Canonical n f ∧ f ≤ e + 1 ∧ scaleTwo n f = scaleTwo m e := by
  rcases hm.eq_or_lt with rfl | hlt
  · exact ⟨2 ^ 52, e + (1 : Nat), ⟨by decide, by omega, .inl le_rfl⟩, le_rfl, scaleTwo_add _ _ _⟩
  · by_cases hzero : m = 0
    · refine ⟨0, -1074, canonical_zero, by omega, ?_⟩
      rw [hzero, scaleTwo_zero, scaleTwo_zero]
    · obtain ⟨k, hcanonical⟩ := canonical_shifted hzero hlt he
      refine ⟨m * 2 ^ k, e - k, hcanonical, by omega, ?_⟩
      rw [← scaleTwo_add, sub_add_cancel]

theorem representable_of_le {k : Int} {e : Int} (hk : k.natAbs ≤ 2 ^ 53) (he : -1074 ≤ e) :
    Representable (k * 2 ^ e) := by
  obtain ⟨m, f, hcanonical, -, hvalue⟩ := exists_canonical hk he
  refine ⟨m, f, hcanonical, ?_⟩
  rw [hvalue, scaleTwo, abs_mul, abs_of_pos (two_zpow_pos e), Nat.cast_natAbs, Int.cast_abs]

theorem representable_intCast {n : Int} (hn : n.natAbs ≤ 2 ^ 53) : Representable n := by
  have hscaled := representable_of_le (e := 0) hn (by decide)
  rwa [zpow_zero, mul_one] at hscaled

theorem Representable.neg {q : ℚ} (h : Representable q) : Representable (-q) := by
  obtain ⟨m, e, hcanonical, hvalue⟩ := h
  exact ⟨m, e, hcanonical, (abs_neg q).trans hvalue⟩

def unpacked (s : Sign) (m : Nat) (e : Int) : UnpackedFloat :=
  if h : m = 0 then .zero s else .finite s m e (Nat.pos_of_ne_zero h)

theorem unpacked_zero (s : Sign) (e : Int) : unpacked s 0 e = .zero s :=
  dif_pos rfl

theorem unpacked_pos (s : Sign) {m : Nat} (e : Int) (h : 0 < m) :
    unpacked s m e = .finite s m e h :=
  dif_neg h.ne'

private theorem neg_unpacked (s : Sign) (m : Nat) (e : Int) :
    (unpacked s m e).neg = unpacked (-s) m e := by
  rcases m.eq_zero_or_pos with rfl | hm
  · rw [unpacked_zero, unpacked_zero]
    rfl
  · rw [unpacked_pos s e hm, unpacked_pos (-s) e hm]
    rfl

private theorem abs_unpacked (s : Sign) (m : Nat) (e : Int) :
    (unpacked s m e).abs = unpacked .positive m e := by
  rcases m.eq_zero_or_pos with rfl | hm
  · rw [unpacked_zero, unpacked_zero]
    rfl
  · rw [unpacked_pos s e hm, unpacked_pos .positive e hm]
    rfl

def signed (s : Sign) (q : ℚ) : ℚ :=
  match s with
  | .positive => q
  | .negative => -q

theorem signed_signed (s : Sign) (q : ℚ) : signed s (signed s q) = q := by
  cases s with
  | positive => rfl
  | negative => exact neg_neg q

theorem abs_signed (s : Sign) (q : ℚ) : |signed s q| = |q| := by
  cases s with
  | positive => rfl
  | negative => exact abs_neg q

/-- The number that a finite double is; zero for NaN and the infinities. -/
def exact (x : Float) : ℚ :=
  match x.toModel.unpack with
  | .finite s m e _ => signed s (scaleTwo m e)
  | _ => 0

theorem Canonical.log2 {m : Nat} {e : Int} (h : Canonical m e) (hfull : 2 ^ 52 ≤ m) :
    m.log2 = 52 :=
  (Nat.log2_eq_iff (by omega)).2 ⟨hfull, h.digits⟩

section
variable {s : Sign} {m : Nat} {e : Int}

private theorem finite_congr {t : Sign} {n : Nat} {f : Int} {h : 0 < m} {h' : 0 < n} (hs : s = t)
    (hm : m = n) (he : e = f) : finite s m e h = finite t n f h' := by
  subst hs hm he
  rfl

private theorem canonical_of_unpack_bits {b : BitVec Format.binary64.numBits} {h : 0 < m}
    (hb : UnpackedFloat.unpack Format.binary64 b = .finite s m e h) : Canonical m e ∧ e ≤ 971 := by
  have hfraction : (unpackMantissa b).toNat < 2 ^ 52 := (unpackMantissa b).isLt
  by_cases hmax : unpackExponent b = -1#11
  · rw [unpack_of_max hmax] at hb
    split at hb <;> cases hb
  · by_cases hz : unpackExponent b = 0#11
    · rcases unpack_of_zero hmax hz with ⟨-, hu⟩ | ⟨-, hm, hu⟩
      · cases hu.symm.trans hb
      · cases hu.symm.trans hb
        exact ⟨⟨by omega, le_rfl, .inr rfl⟩, by decide⟩
    · obtain ⟨hm, hu⟩ := unpack_of_normal hmax hz
      have hlt : (unpackExponent b).toNat < 2048 := (unpackExponent b).isLt
      have hne : (unpackExponent b).toNat ≠ 2047 := fun he => hmax (BitVec.eq_of_toNat_eq he)
      have hpos : (unpackExponent b).toNat ≠ 0 := fun he => hz (BitVec.eq_of_toNat_eq he)
      have himplicit := toNat_implicit (unpackMantissa b)
      cases hu.symm.trans hb
      exact ⟨⟨by omega, by omega, .inl (by omega)⟩, by omega⟩

theorem canonical_of_unpack {x : Float} {h : 0 < m} (hx : x.toModel.unpack = .finite s m e h) :
    Canonical m e ∧ e ≤ 971 :=
  canonical_of_unpack_bits hx

theorem packComponents_fields {exponent : BitVec 11} {mantissa : BitVec 52}
    {b : BitVec Format.binary64.numBits}
    (h : packComponents Format.binary64 s exponent mantissa = b) :
    unpackExponent b = exponent ∧ unpackMantissa b = mantissa ∧
      Sign.ofBitVec (unpackSign b) = s := by
  subst h
  rw [unpackExponent_packComponents, unpackMantissa_packComponents, unpackSign_packComponents]
  exact ⟨rfl, rfl, Sign.ofBitVec_toBitVec s⟩

private theorem unpack_pack_short (hm : 0 < m) (h : m < 2 ^ 52) :
    UnpackedFloat.unpack Format.binary64
        (packComponents Format.binary64 s 0#11 (BitVec.ofNat 52 m)) =
      .finite s m (-1074) hm := by
  generalize hb : packComponents Format.binary64 s 0#11 (BitVec.ofNat 52 m) = b
  obtain ⟨hexponent, hmantissa, hsign⟩ := packComponents_fields hb
  have hv : (unpackMantissa b).toNat = m := by
    rw [hmantissa, BitVec.toNat_ofNat, Nat.mod_eq_of_lt h]
  have hmax : unpackExponent b ≠ -1#11 := by
    rw [hexponent]
    decide
  rcases unpack_of_zero hmax hexponent with ⟨hz, -⟩ | ⟨-, hpos, hu⟩
  · rw [hz] at hv
    exact absurd hv hm.ne
  · rw [hu]
    exact finite_congr hsign hv rfl

private theorem unpack_pack_full {k : Nat} (hk : 0 < k) (hmax : k < 2047) (hm : 2 ^ 52 ≤ m)
    (hlt : m < 2 ^ 53) :
    UnpackedFloat.unpack Format.binary64
        (packComponents Format.binary64 s (BitVec.ofNat 11 k) (BitVec.ofNat 52 m)) =
      .finite s m (k - 1075) (by omega) := by
  generalize hb : packComponents Format.binary64 s (BitVec.ofNat 11 k) (BitVec.ofNat 52 m) = b
  obtain ⟨hexponent, hmantissa, hsign⟩ := packComponents_fields hb
  have hv : (unpackExponent b).toNat = k := by
    rw [hexponent, toNat_exponent (by omega)]
  have htrailing : (BitVec.ofNat 52 m).toNat = m - 2 ^ 52 := by
    rw [BitVec.toNat_ofNat]
    omega
  have hw : (unpackMantissa b).toNat = m - 2 ^ 52 := by
    rw [hmantissa]
    exact htrailing
  have hnotMax : unpackExponent b ≠ -1#11 := by
    rw [hexponent]
    exact exponent_ne (l := 2047) (by omega) (by decide) (by omega)
  have hnotZero : unpackExponent b ≠ 0#11 := by
    rw [hexponent]
    exact exponent_ne (l := 0) (by omega) (by decide) (by omega)
  obtain ⟨hpos, hu⟩ := unpack_of_normal hnotMax hnotZero
  rw [hu]
  refine finite_congr hsign ?_ ?_
  · rw [toNat_implicit, hw]
    omega
  · rw [hv]
    omega

theorem unpack_pack (h : Canonical m e) (he : e ≤ 971) :
    UnpackedFloat.unpack Format.binary64 (UnpackedFloat.pack Format.binary64 (unpacked s m e)) =
      unpacked s m e := by
  rcases m.eq_zero_or_pos with rfl | hm
  · rw [unpacked_zero]
    cases s <;> rfl
  · obtain ⟨k, hk, hpack⟩ := pack_finite s m e hm
    have hdigits := h.digits
    have hleast := h.least
    rw [unpacked_pos s e hm, hpack, if_neg (by omega)]
    by_cases hfull : 2 ^ 52 ≤ m
    · rw [if_pos (by rw [h.log2 hfull]), unpack_pack_full (by omega) (by omega) hfull hdigits]
      exact finite_congr rfl rfl (by omega)
    · have hlog : m.log2 < 52 := (Nat.log2_lt hm.ne').2 (by omega)
      rw [if_neg (by omega), unpack_pack_short hm (by omega)]
      exact finite_congr rfl rfl (h.full.resolve_left hfull).symm

end

theorem eq_of_unpack_eq {x y : Float} (h : x.toModel.unpack = y.toModel.unpack) : x = y := by
  have hbits := (unpack_inj_of_valid x.toModel.valid y.toModel.valid).1 h
  exact Float.toBits_inj.1 (UInt64.toBitVec_inj.1 hbits)

/-- The digits of a finite double, a zero having the least exponent. -/
structure Digits (x : Float) (s : Sign) (m : Nat) (e : Int) : Prop where
  canonical : Canonical m e
  greatest : e ≤ 971
  unpack : x.toModel.unpack = unpacked s m e

theorem exists_digits {x : Float} (h : x.isFinite = true) : ∃ s m e, Digits x s m e := by
  have hfinite : x.toModel.unpack.isFinite = true := h
  cases hx : x.toModel.unpack with
  | notANumber | infinity =>
    rw [hx] at hfinite
    cases hfinite
  | zero s => exact ⟨s, 0, -1074, canonical_zero, by decide, hx.trans (unpacked_zero s _).symm⟩
  | finite s m e hm =>
    obtain ⟨hcanonical, hmax⟩ := canonical_of_unpack hx
    exact ⟨s, m, e, hcanonical, hmax, hx.trans (unpacked_pos s e hm).symm⟩

theorem scaleTwo_eq_div (m : Nat) (e : Int) :
    scaleTwo m e = (m * 2 ^ e.toNat : Nat) / (2 ^ (-e).toNat : Nat) := by
  rw [scaleTwo, eq_div_iff (by positivity), Nat.cast_mul, mul_assoc]
  congr 1
  rw [Nat.cast_pow, Nat.cast_pow, Nat.cast_two, ← zpow_natCast, ← zpow_natCast,
    ← zpow_add₀ two_ne_zero]
  congr 1
  omega

private theorem two_pow_dvd_iff (m : Nat) (e : Int) :
    2 ^ (-e).toNat ∣ m ↔ 2 ^ (-e).toNat ∣ m * 2 ^ e.toNat := by
  rcases le_total e 0 with h | h
  · rw [Int.toNat_of_nonpos h, Nat.pow_zero, Nat.mul_one]
  · rw [Int.toNat_of_nonpos (Int.neg_nonpos_of_nonneg h), Nat.pow_zero]
    exact ⟨fun _ => one_dvd _, fun _ => one_dvd _⟩

private theorem scaleTwo_whole_iff (m : Nat) (e : Int) :
    2 ^ (-e).toNat ∣ m ↔ ∃ n : Nat, scaleTwo m e = n := by
  have hpos : ((2 ^ (-e).toNat : Nat) : ℚ) ≠ 0 := by positivity
  rw [two_pow_dvd_iff, scaleTwo_eq_div]
  constructor
  · rintro ⟨n, hn⟩
    refine ⟨n, ?_⟩
    rw [hn, Nat.cast_mul, mul_div_cancel_left₀ _ hpos]
  · rintro ⟨n, hn⟩
    rw [div_eq_iff hpos, ← Nat.cast_mul, Nat.cast_inj] at hn
    exact ⟨n, hn.trans (Nat.mul_comm _ _)⟩

namespace Digits
variable {x : Float} {s : Sign} {m : Nat} {e : Int}

theorem finite (h : Digits x s m e) : x.isFinite = true := by
  show x.toModel.unpack.isFinite = true
  rw [h.unpack, unpacked]
  split <;> rfl

theorem unpack_pos (h : Digits x s m e) (hm : 0 < m) : x.toModel.unpack = .finite s m e hm :=
  h.unpack.trans (unpacked_pos s e hm)

theorem exact (h : Digits x s m e) : Decimal.exact x = signed s (scaleTwo m e) := by
  rw [Decimal.exact, h.unpack]
  rcases m.eq_zero_or_pos with rfl | hm
  · rw [unpacked_zero, scaleTwo_zero]
    cases s with
    | positive => rfl
    | negative => exact neg_zero.symm
  · rw [unpacked_pos s e hm]

theorem abs_exact (h : Digits x s m e) : |Decimal.exact x| = scaleTwo m e := by
  rw [h.exact, abs_signed, abs_of_nonneg (scaleTwo_nonneg m e)]

theorem isWhole (h : Digits x s m e) :
    Decimal.isWhole x = true ↔ ∃ n : Nat, scaleTwo m e = n := by
  rw [← scaleTwo_whole_iff, Decimal.isWhole, h.unpack]
  rcases m.eq_zero_or_pos with rfl | hm
  · rw [unpacked_zero]
    exact iff_of_true rfl (dvd_zero _)
  · rw [unpacked_pos s e hm]
    simp only [beq_iff_eq]
    exact Nat.dvd_iff_mod_eq_zero.symm

theorem wholePart (h : Digits x s m e) : Decimal.wholePart x = ⌊scaleTwo m e⌋₊ := by
  rw [Decimal.wholePart, h.unpack]
  rcases m.eq_zero_or_pos with rfl | hm
  · rw [unpacked_zero, scaleTwo_zero, Nat.floor_zero]
  · rw [unpacked_pos s e hm, scaleTwo_eq_div, Nat.floor_div_eq_div]
    rfl

theorem isNegative (h : Digits x s m e) : Decimal.isNegative x = (s == .negative) := by
  rw [Decimal.isNegative, h.unpack]
  rcases m.eq_zero_or_pos with rfl | hm
  · rw [unpacked_zero]
  · rw [unpacked_pos s e hm]

theorem unique {y : Float} (hx : Digits x s m e) (hy : Digits y s m e) : x = y :=
  eq_of_unpack_eq (hx.unpack.trans hy.unpack.symm)

theorem ofModel_pack (h : Canonical m e) (he : e ≤ 971) :
    Digits (Float.ofModel (.pack (unpacked s m e))) s m e :=
  ⟨h, he, unpack_pack h he⟩

theorem neg (h : Digits x s m e) : Digits (-x) (-s) m e := by
  have hx : -x = Float.ofModel (.pack (unpacked (-s) m e)) := by
    rw [← neg_unpacked, ← h.unpack]
    rfl
  exact hx ▸ ofModel_pack h.canonical h.greatest

theorem abs (h : Digits x s m e) : Digits x.abs .positive m e := by
  have hx : x.abs = Float.ofModel (.pack (unpacked .positive m e)) := by
    rw [← abs_unpacked s, ← h.unpack]
    rfl
  exact hx ▸ ofModel_pack h.canonical h.greatest

end Digits

theorem isWhole_iff {x : Float} (h : x.isFinite = true) :
    isWhole x = true ↔ ∃ n : Int, exact x = n := by
  obtain ⟨s, m, e, hx⟩ := exists_digits h
  rw [hx.isWhole, ← hx.abs_exact]
  constructor
  · rintro ⟨n, hn⟩
    rcases abs_choice (exact x) with habs | habs
    · exact ⟨n, by rw [← habs, hn, Int.cast_natCast]⟩
    · refine ⟨-n, ?_⟩
      rw [habs] at hn
      rw [Int.cast_neg, Int.cast_natCast, ← hn, neg_neg]
  · rintro ⟨n, hn⟩
    exact ⟨n.natAbs, by rw [hn, Nat.cast_natAbs, Int.cast_abs]⟩

end Millwork.Decimal
