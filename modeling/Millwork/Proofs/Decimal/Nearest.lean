import Millwork.Proofs.Decimal.Rounding
/-!
# Decimal numbers that are doubles

A decimal number that is a double is read as that double, however it is written.
-/
namespace Millwork.Decimal
open Float.Model Float.Model.UnpackedFloat

theorem scaleTwo_natCast (n : Nat) : scaleTwo n 0 = n := by
  rw [scaleTwo, zpow_zero, mul_one]

private theorem scaleTwo_shiftLeft (n k : Nat) : scaleTwo (n <<< k) (-k) = n := by
  rw [Nat.shiftLeft_eq, ← scaleTwo_add, Int.add_left_neg, scaleTwo_natCast]

private theorem digits_toFloat {n : Nat} (hpos : 0 < n) (hn : n < 2 ^ 53) :
    ∃ m e, Digits n.toUInt64.toFloat .positive m e ∧ 2 ^ 52 ≤ m ∧ scaleTwo m e = n := by
  obtain ⟨m, e, hm, he, hvalue⟩ := exists_canonical (e := 0) hn.le (by decide)
  have hword : n.toUInt64.toNat = n := Nat.mod_eq_of_lt (hn.trans (by decide))
  have hmodel : n.toUInt64.toFloat = Float.ofModel (.pack (unpacked .positive m e)) := by
    rw [← round_exact .positive hpos hm hvalue.symm]
    show Float.ofModel (.pack (UnpackedFloat.normalize _ (n.toUInt64.toNat : Int) 0 _)) = _
    rw [hword, UnpackedFloat.normalize, Int.compare_eq_gt.2 (Int.natCast_pos.2 hpos),
      Int.toNat_natCast]
  refine ⟨m, e, hmodel ▸ .ofModel_pack hm (by omega), ?_, hvalue.trans (scaleTwo_natCast n)⟩
  refine hm.full.resolve_right fun hleast => ?_
  have hshifted : scaleTwo n 0 = scaleTwo (n * 2 ^ 1074) (-1074) := by
    rw [← scaleTwo_add]
    rfl
  rw [hshifted, hleast] at hvalue
  have hdigits := hm.digits
  have hlarge : 2 ^ 1074 ≤ m := by
    rw [scaleTwo_inj hvalue]
    exact Nat.le_mul_of_pos_left _ hpos
  omega

private theorem powersOfTen_whole : ∀ k : Fin 23,
    let p := Float.exactlyRepresentablePowersOfTen[k.val]!
    p.isFinite = true ∧ isNegative p = false ∧ isWhole p = true ∧ wholePart p = 10 ^ k.val := by
  decide

theorem size_powersOfTen : Float.exactlyRepresentablePowersOfTen.size = 23 :=
  rfl

theorem digits_powerOfTen {k : Nat} (h : k < Float.exactlyRepresentablePowersOfTen.size) :
    ∃ m e, Digits Float.exactlyRepresentablePowersOfTen[k] .positive m e ∧
      scaleTwo m e = 10 ^ k := by
  obtain ⟨hfinite, hsign, hwhole, hpart⟩ := powersOfTen_whole ⟨k, h⟩
  rw [getElem!_pos _ k h] at hfinite hsign hwhole hpart
  obtain ⟨s, m, e, hp⟩ := exists_digits hfinite
  obtain rfl : s = .positive := by
    rw [hp.isNegative] at hsign
    cases s with
    | positive => rfl
    | negative => cases hsign
  obtain ⟨n, hn⟩ := hp.isWhole.1 hwhole
  rw [hp.wholePart, hn, Nat.floor_natCast] at hpart
  exact ⟨m, e, hp, by rw [hn, hpart, Nat.cast_pow, Nat.cast_ofNat]⟩

section
variable {significand m : Nat} {e : Int}

private theorem digits_short {k : Nat} (hpos : 0 < significand) (hlt : significand < 2 ^ 53)
    (hk : k < Float.exactlyRepresentablePowersOfTen.size) (hm : Canonical m e) (he : e ≤ 971) :
    let x := significand.toUInt64.toFloat
    let power := Float.exactlyRepresentablePowersOfTen[k]
    ((significand : ℚ) = scaleTwo m e * 10 ^ k → Digits (x / power) .positive m e) ∧
    ((significand : ℚ) * 10 ^ k = scaleTwo m e → Digits (x * power) .positive m e) := by
  intro x power
  obtain ⟨n, f, hx, hdigits, hvalue⟩ := digits_toFloat hpos hlt
  obtain ⟨n', f', hy, hpower⟩ := digits_powerOfTen hk
  have hn : 0 < n' := Nat.pos_of_ne_zero fun hzero => by
    rw [hzero, scaleTwo_zero] at hpower
    exact (pow_pos (by norm_num : (0 : ℚ) < 10) k).ne hpower
  rw [← hvalue, ← hpower]
  exact ⟨hx.div hy (by omega) hn hm he, hx.mul hy hdigits hn hm he⟩

private theorem scaleTwo_bounds (hpos : 0 < m) (hm : Canonical m e) (he : e ≤ 971) :
    (2 : ℚ) ^ (-1074 : Int) ≤ scaleTwo m e ∧ scaleTwo m e < 2 ^ (1024 : Int) := by
  have hdigits : (m : ℚ) < 2 ^ 53 := by exact_mod_cast hm.digits
  have hone : (1 : ℚ) ≤ m := by exact_mod_cast hpos
  constructor
  · calc (2 : ℚ) ^ (-1074 : Int) ≤ 2 ^ e := zpow_le_zpow_right₀ one_le_two hm.least
      _ ≤ scaleTwo m e := le_mul_of_one_le_left (two_zpow_pos e).le hone
  · calc scaleTwo m e < 2 ^ 53 * 2 ^ e := mul_lt_mul_of_pos_right hdigits (two_zpow_pos e)
      _ ≤ 2 ^ 53 * 2 ^ (971 : Int) := by gcongr; exact one_le_two
      _ = 2 ^ (1024 : Int) := by
          rw [← zpow_natCast, ← zpow_add₀ two_ne_zero]
          rfl

private theorem scale_bounds {scale : Int} (hpos : 0 < significand) (hm : Canonical m e) (he : e ≤ 971)
    (h : (significand : ℚ) * 10 ^ scale = scaleTwo m e) :
    -(1074 + significand.log2) ≤ scale ∧ scale ≤ 1024 := by
  have hsignificand : (1 : ℚ) ≤ significand := by exact_mod_cast hpos
  have hlog : (significand : ℚ) < 2 ^ (significand.log2 + 1) := by
    exact_mod_cast Nat.lt_log2_self
  have hmpos : 0 < m := Nat.pos_of_ne_zero fun hzero => by
    rw [hzero, scaleTwo_zero] at h
    exact (by positivity : (0 : ℚ) < significand * 10 ^ scale).ne' h
  obtain ⟨hleast, hgreatest⟩ := scaleTwo_bounds hmpos hm he
  rcases le_total 0 scale with hscale | hscale
  · refine ⟨by omega, ?_⟩
    obtain ⟨k, rfl⟩ : ∃ k : Nat, scale = k := ⟨_, (Int.toNat_of_nonneg hscale).symm⟩
    have hpower : (2 : ℚ) ^ (k : Int) < 2 ^ (1024 : Int) := by
      calc (2 : ℚ) ^ (k : Int) ≤ 10 ^ (k : Int) := by
            rw [zpow_natCast, zpow_natCast]
            exact pow_le_pow_left₀ (by norm_num) (by norm_num) k
        _ ≤ significand * 10 ^ (k : Int) := le_mul_of_one_le_left (by positivity) hsignificand
        _ < 2 ^ (1024 : Int) := h ▸ hgreatest
    exact ((zpow_lt_zpow_iff_right₀ one_lt_two).1 hpower).le
  · refine ⟨?_, by omega⟩
    obtain ⟨k, rfl⟩ : ∃ k : Nat, scale = -k := ⟨(-scale).toNat, by omega⟩
    have hpower : (2 : ℚ) ^ (-1074 : Int) < 2 ^ ((significand.log2 + 1 : Nat) + -(k : Int)) := by
      calc (2 : ℚ) ^ (-1074 : Int) ≤ significand * 10 ^ (-k : Int) := h ▸ hleast
        _ ≤ significand * 2 ^ (-k : Int) := by
            rw [zpow_neg, zpow_neg, zpow_natCast, zpow_natCast]
            gcongr
            norm_num
        _ < 2 ^ (significand.log2 + 1) * 2 ^ (-k : Int) :=
            mul_lt_mul_of_pos_right hlog (two_zpow_pos _)
        _ = 2 ^ ((significand.log2 + 1 : Nat) + -(k : Int)) := by
            rw [zpow_add₀ two_ne_zero, zpow_natCast]
    have hlt := (zpow_lt_zpow_iff_right₀ one_lt_two).1 hpower
    omega

private theorem ten_zpow_neg_mul (k : Nat) : (10 : ℚ) ^ (-k : Int) * 10 ^ k = 1 := by
  rw [zpow_neg, zpow_natCast, inv_mul_cancel₀ (by positivity)]

private theorem scaleTwo_ten_pow (k : Nat) : scaleTwo (10 ^ k) 0 = 10 ^ k := by
  rw [scaleTwo_natCast, Nat.cast_pow, Nat.cast_ofNat]

private theorem ofScientific_exact {scale : Int} (hpos : 0 < significand) (hm : Canonical m e)
    (he : e ≤ 971) (h : (significand : ℚ) * 10 ^ scale = scaleTwo m e) :
    UnpackedFloat.ofScientific Format.binary64 significand scale = unpacked .positive m e := by
  have hbits : (2 : Int) ^ Format.binary64.exponentBits = 2048 := rfl
  obtain ⟨hlow, hhigh⟩ := scale_bounds hpos hm he h
  rw [UnpackedFloat.ofScientific, dif_neg hpos.ne', hbits, if_neg (by omega), if_neg (by omega)]
  split
  · rename_i hscale
    obtain ⟨k, rfl⟩ : ∃ k : Nat, scale = k := ⟨_, (Int.toNat_of_nonneg hscale).symm⟩
    apply mul_exact .positive .positive _ _ _ hm
    · rw [Int.toNat_natCast, scaleTwo_ten_pow, scaleTwo_shiftLeft]
      exact h
    · show 2 ^ 52 ≤ significand <<< 53
      rw [Nat.shiftLeft_eq]
      omega
  · rename_i hscale
    obtain ⟨k, rfl⟩ : ∃ k : Nat, scale = -k := ⟨(-scale).toNat, by omega⟩
    apply div_exact .positive .positive _ _ hm
    rw [Int.neg_neg, Int.toNat_natCast, scaleTwo_ten_pow, ← h, scaleTwo_natCast, mul_assoc,
      ten_zpow_neg_mul, mul_one]

theorem digits_nearest {scale : Int} (hpos : 0 < significand) (hm : Canonical m e) (he : e ≤ 971)
    (h : (significand : ℚ) * 10 ^ scale = scaleTwo m e) :
    Digits (nearest significand scale) .positive m e := by
  have hlong : Digits (Float.ofModel (Float.Model.ofScientific significand scale)) .positive m e := by
    rw [Float.Model.ofScientific, ofScientific_exact hpos hm he h]
    exact .ofModel_pack hm he
  have hsize := size_powersOfTen
  rw [nearest]
  split
  · obtain ⟨k, rfl⟩ : ∃ k : Nat, scale = -k := ⟨(-scale).toNat, by omega⟩
    rw [Int.neg_neg, Int.toNat_natCast, Float.ofScientific]
    split
    · rename_i hshort
      refine (digits_short hpos hshort.1 (by omega) hm he).1 ?_
      rw [← h, mul_assoc, ten_zpow_neg_mul, mul_one]
    · have hscale : Int.negOfNat k = -k := Int.negOfNat_eq
      rw [← hscale] at hlong
      exact hlong
  · obtain ⟨k, rfl⟩ : ∃ k : Nat, scale = k := ⟨scale.toNat, by omega⟩
    rw [Int.toNat_natCast, Float.ofScientific]
    split
    · rename_i hshort
      refine (digits_short hpos hshort.1 (by omega) hm he).2 ?_
      exact h
    · exact hlong

end

theorem digits_nearest_natCast {n : Nat} (h : n ≤ 2 ^ 53) :
    ∃ m e, Digits (nearest n 0) .positive m e ∧ scaleTwo m e = n := by
  rcases n.eq_zero_or_pos with rfl | hpos
  · exact ⟨0, -1074, ⟨canonical_zero, by decide, rfl⟩, by rw [scaleTwo_zero, Nat.cast_zero]⟩
  · obtain ⟨m, e, hm, he, hvalue⟩ := exists_canonical (e := 0) h (by decide)
    rw [scaleTwo_natCast] at hvalue
    refine ⟨m, e, digits_nearest hpos hm (by omega) ?_, hvalue⟩
    rw [zpow_zero, mul_one, hvalue]

end Millwork.Decimal
