import Millwork.Proofs.Decimal.Exact
/-!
# Faithful rounding

Rounding never crosses a double: what lies between two doubles is rounded to a number between them, and
what is a double is not changed. So a product, a quotient or a sum that is a double is exact.
-/
namespace Millwork.Decimal
open Float.Model Float.Model.UnpackedFloat

def Faithful (v w : ℚ) : Prop :=
  ∀ q, Representable q → (q ≤ v → q ≤ w) ∧ (v ≤ q → w ≤ q)

theorem Faithful.refl (v : ℚ) : Faithful v v :=
  fun _ _ => ⟨id, id⟩

theorem Faithful.neg {v w : ℚ} (h : Faithful v w) : Faithful (-v) (-w) := by
  intro q hq
  obtain ⟨hlow, hhigh⟩ := h (-q) hq.neg
  exact ⟨fun hle => le_neg_of_le_neg (hhigh (le_neg_of_le_neg hle)),
    fun hle => neg_le_of_neg_le (hlow (neg_le_of_neg_le hle))⟩

theorem Faithful.signed {v w : ℚ} (h : Faithful v w) (s : Sign) :
    Faithful (signed s v) (signed s w) := by
  cases s with
  | positive => exact h
  | negative => exact h.neg

theorem Faithful.eq {v w : ℚ} (h : Faithful v w) (hv : Representable v) : w = v :=
  le_antisymm ((h v hv).2 le_rfl) ((h v hv).1 le_rfl)

private theorem representable_scaleTwo {m : Nat} {e : Int} (h : Canonical m e) :
    Representable (scaleTwo m e) :=
  ⟨m, e, h, abs_of_nonneg (scaleTwo_nonneg m e)⟩

private theorem Faithful.canonical_eq {m n : Nat} {e f : Int}
    (h : Faithful (scaleTwo n f) (scaleTwo m e))
    (hm : Canonical m e) (hn : Canonical n f) : m = n ∧ e = f :=
  hm.unique hn (h.eq (representable_scaleTwo hn))

private theorem faithful_of_canonical {v w : ℚ} (hv : 0 ≤ v) (hw : 0 ≤ w)
    (h : ∀ m e, Canonical m e → (scaleTwo m e ≤ v → scaleTwo m e ≤ w) ∧
      (v ≤ scaleTwo m e → w ≤ scaleTwo m e)) : Faithful v w := by
  rintro q ⟨m, e, hcanonical, hq⟩
  rcases le_or_gt 0 q with hpos | hneg
  · rw [abs_of_nonneg hpos] at hq
    rw [hq]
    exact h m e hcanonical
  · exact ⟨fun _ => hneg.le.trans hw, fun hle => absurd (hv.trans hle) hneg.not_ge⟩

private theorem faithful_dropped {m k r : Nat} {e : Int} (hfull : 2 ^ 52 ≤ m / 2 ^ k ∨ e + k = -1074)
    (hlow : m / 2 ^ k ≤ r) (hhigh : ∀ n, m ≤ n * 2 ^ k → r ≤ n) :
    Faithful (scaleTwo m e) (scaleTwo r (e + k)) := by
  apply faithful_of_canonical (scaleTwo_nonneg _ _) (scaleTwo_nonneg _ _)
  intro n f hn
  rcases le_or_gt (e + k) f with hle | hlt
  · -- a multiple of the last digit that is kept
    obtain ⟨j, rfl⟩ : ∃ j : Nat, f = e + k + j := ⟨(f - (e + k)).toNat, by omega⟩
    have hcompare : scaleTwo n (e + k + j) = scaleTwo (n * 2 ^ j * 2 ^ k) e := by
      rw [scaleTwo_add, scaleTwo_add]
    rw [scaleTwo_add n, scaleTwo_le_iff, scaleTwo_le_iff, ← scaleTwo_add n, hcompare,
      scaleTwo_le_iff, scaleTwo_le_iff]
    exact ⟨fun h => ((Nat.le_div_iff_mul_le (Nat.two_pow_pos k)).2 h).trans hlow, hhigh _⟩
  · have hfirst : 2 ^ 52 ≤ m / 2 ^ k := hfull.resolve_right fun h => by
      have hn := hn.least
      omega
    have hbelow : scaleTwo n f < scaleTwo (m / 2 ^ k) (e + k) := hn.lt_of_exponent hfirst hlt
    have hdropped : scaleTwo (m / 2 ^ k) (e + k) ≤ scaleTwo m e := by
      rw [scaleTwo_add, scaleTwo_le_iff]
      exact Nat.div_mul_le_self m _
    exact ⟨fun _ => hbelow.le.trans (scaleTwo_le_iff.2 hlow),
      fun h => absurd (hdropped.trans h) hbelow.not_ge⟩

def greatest : ℚ :=
  scaleTwo (2 ^ 53 - 1) 971

private theorem Faithful.exponent_le {v : ℚ} {s : Sign} {n : Nat} {f : Int}
    (h : Faithful v (Decimal.signed s (scaleTwo n f))) (hn : Canonical n f)
    (hv : |v| ≤ greatest) : f ≤ 971 := by
  have hgreatest : Canonical (2 ^ 53 - 1) 971 := ⟨by decide, by decide, .inl (by decide)⟩
  have hunsigned : Faithful (Decimal.signed s v) (scaleTwo n f) := by
    have htwice := h.signed s
    rwa [signed_signed] at htwice
  have hle : Decimal.signed s v ≤ greatest := by
    rw [← abs_signed s] at hv
    exact (le_abs_self _).trans hv
  by_contra hf
  have hfull : 2 ^ 52 ≤ n := hn.full.resolve_right (by omega)
  have habove := hgreatest.lt_of_exponent hfull (Int.not_le.1 hf)
  exact absurd ((hunsigned _ (representable_scaleTwo hgreatest)).2 hle) habove.not_ge

theorem exists_carried (s : Sign) {r : Nat} {e : Int} (hr : r ≤ 2 ^ 53) (he : -1074 ≤ e)
    (hfull : 2 ^ 52 ≤ r ∨ e = -1074) :
    ∃ n f, Canonical n f ∧ carried s r e = unpacked s n f ∧ scaleTwo n f = scaleTwo r e := by
  obtain ⟨k, hm, hexp, hk, -⟩ := shiftToTargetExponent_eq r e .exact
  have hcarried : carried s r e = unpacked s (r / 2 ^ k) (e + k) := by
    rw [← hm, ← hexp]
    rfl
  rw [totalExponent] at hk
  rcases hr.lt_or_eq with hlt | rfl
  · have hlog := log2_le_of_lt hlt
    obtain rfl : k = 0 := by omega
    rw [Nat.pow_zero, Nat.div_one, Int.natCast_zero, Int.add_zero] at hcarried
    exact ⟨r, e, ⟨hlt, he, hfull⟩, hcarried, rfl⟩
  · obtain rfl : k = 1 := by
      rw [Nat.log2_two_pow] at hk
      omega
    refine ⟨2 ^ 52, e + (1 : Nat), ⟨by decide, by omega, .inl le_rfl⟩, hcarried, ?_⟩
    exact scaleTwo_add _ _ _

private theorem roundWithAccuracy_faithful (s : Sign) {m : Nat} {e : Int}
    (hdigits : 2 ^ 52 ≤ m ∨ e ≤ -1074) :
    ∃ n f, Canonical n f ∧ roundWithAccuracy Format.binary64 s m e .exact = unpacked s n f ∧
      Faithful (scaleTwo m e) (scaleTwo n f) := by
  obtain ⟨k, r, hround, hk, hlow, hhigh, hexact⟩ := roundWithAccuracy_eq s m e .exact
  rw [totalExponent] at hk
  have hlog : 2 ^ 52 ≤ m → 52 ≤ m.log2 := fun h => (Nat.le_log2 (by omega)).2 h
  have hkept : m / 2 ^ k < 2 ^ 53 := by
    rw [Nat.div_lt_iff_lt_mul (Nat.two_pow_pos k), ← Nat.pow_add]
    exact Nat.lt_log2_self.trans_le (Nat.pow_le_pow_right (by decide) (by omega))
  have hfull : 2 ^ 52 ≤ m / 2 ^ k ∨ e + k = -1074 := by
    by_cases hleast : e + k = -1074
    · exact .inr hleast
    · left
      have hm : m ≠ 0 := by
        rintro rfl
        rw [Nat.log2_zero] at hk
        omega
      have hplaces : 52 + k ≤ m.log2 := by omega
      rw [Nat.le_div_iff_mul_le (Nat.two_pow_pos k), ← Nat.pow_add]
      exact (Nat.le_log2 hm).1 hplaces
  obtain ⟨n, f, hn, hcarried, hvalue⟩ := exists_carried s (r := r) (by omega) (by omega)
    (hfull.imp_left fun h => h.trans hlow)
  refine ⟨n, f, hn, hround.trans hcarried, hvalue ▸ faithful_dropped hfull hlow ?_⟩
  intro n hle
  by_cases hdvd : 2 ^ k ∣ m
  · rw [hexact rfl hdvd]
    exact Nat.div_le_of_le_mul (by rwa [Nat.mul_comm])
  · have hlt : m / 2 ^ k < n := by
      rw [Nat.div_lt_iff_lt_mul (Nat.two_pow_pos k)]
      exact hle.lt_of_ne fun h => hdvd ⟨n, by rw [h, Nat.mul_comm]⟩
    omega

private theorem scaleTwo_decreaseExponent (m : Nat) (e target : Int) :
    scaleTwo (decreaseExponent m e target).1 (decreaseExponent m e target).2 = scaleTwo m e := by
  rw [decreaseExponent, Nat.shiftLeft_eq, ← scaleTwo_add, Int.sub_add_cancel]

private theorem round_faithful (s : Sign) {m : Nat} (hm : 0 < m) (e : Int) :
    ∃ n f, Canonical n f ∧ UnpackedFloat.round Format.binary64 s m e = unpacked s n f ∧
      Faithful (scaleTwo m e) (scaleTwo n f) := by
  obtain ⟨k, hk⟩ : ∃ k : Nat, k = (e - max (totalExponent m e - 53) (-1074)).toNat := ⟨_, rfl⟩
  have hround : UnpackedFloat.round Format.binary64 s m e =
      roundWithAccuracy Format.binary64 s (m * 2 ^ k) (e - k) .exact := by
    rw [UnpackedFloat.round, decreaseExponent, targetExponent_binary64, Nat.shiftLeft_eq, hk]
  have hvalue : scaleTwo (m * 2 ^ k) (e - k) = scaleTwo m e := by
    rw [← scaleTwo_add, Int.sub_add_cancel]
  rw [hround, ← hvalue]
  apply roundWithAccuracy_faithful
  rw [totalExponent] at hk
  by_cases hleast : e - k ≤ -1074
  · exact .inr hleast
  · left
    calc 2 ^ 52 ≤ 2 ^ (m.log2 + k) := Nat.pow_le_pow_right (by decide) (by omega)
      _ = 2 ^ m.log2 * 2 ^ k := Nat.pow_add ..
      _ ≤ m * 2 ^ k := Nat.mul_le_mul_right _ (Nat.log2_self_le hm.ne')

theorem round_exact (s : Sign) {m n : Nat} {e f : Int} (hm : 0 < m) (hn : Canonical n f)
    (h : scaleTwo m e = scaleTwo n f) :
    UnpackedFloat.round Format.binary64 s m e = unpacked s n f := by
  obtain ⟨k, g, hk, hround, hfaithful⟩ := round_faithful s hm e
  rw [h] at hfaithful
  obtain ⟨rfl, rfl⟩ := hfaithful.canonical_eq hk hn
  exact hround

private theorem signed_zero (s : Sign) : signed s 0 = 0 := by
  cases s with
  | positive => rfl
  | negative => exact neg_zero

theorem cast_apply (s : Sign) (m : Nat) (e : Int) :
    ((s.apply m : Int) : ℚ) * 2 ^ e = signed s (scaleTwo m e) := by
  cases s with
  | positive => exact congrArg (· * (2 : ℚ) ^ e) (Int.cast_natCast m)
  | negative =>
    rw [Sign.apply, Int.cast_neg, Int.cast_natCast, neg_mul]
    rfl

private theorem exists_signed (n : Int) (hn : n ≠ 0) (e : Int) (zeroSign : Sign) :
    ∃ s m, 0 < m ∧ n = s.apply m ∧ UnpackedFloat.normalize Format.binary64 n e zeroSign =
      UnpackedFloat.round Format.binary64 s m e := by
  rcases lt_or_gt_of_ne hn with hneg | hpos
  · refine ⟨.negative, (-n).toNat, by omega, ?_, ?_⟩
    · show n = -((-n).toNat : Int)
      omega
    · rw [UnpackedFloat.normalize, Int.compare_eq_lt.2 hneg]
  · refine ⟨.positive, n.toNat, by omega, ?_, ?_⟩
    · show n = (n.toNat : Int)
      omega
    · rw [UnpackedFloat.normalize, Int.compare_eq_gt.2 hpos]

private theorem normalize_faithful (n e : Int) (zeroSign : Sign) :
    ∃ s m f, Canonical m f ∧
      UnpackedFloat.normalize Format.binary64 n e zeroSign = unpacked s m f ∧
      Faithful (n * 2 ^ e) (signed s (scaleTwo m f)) := by
  by_cases hn : n = 0
  · refine ⟨zeroSign, 0, -1074, canonical_zero, ?_, ?_⟩
    · rw [hn, unpacked_zero]
      rfl
    · rw [hn, scaleTwo_zero, signed_zero, Int.cast_zero, zero_mul]
      exact .refl _
  · obtain ⟨s, m, hm, rfl, hnormalize⟩ := exists_signed n hn e zeroSign
    obtain ⟨k, f, hk, hround, hfaithful⟩ := round_faithful s hm e
    refine ⟨s, k, f, hk, hnormalize.trans hround, ?_⟩
    rw [cast_apply]
    exact hfaithful.signed s

private theorem cast_apply_decreaseExponent (s : Sign) (m : Nat) {e target : Int} (h : target ≤ e) :
    ((s.apply (decreaseExponent m e target).1 : Int) : ℚ) * 2 ^ target =
      signed s (scaleTwo m e) := by
  have htarget : (decreaseExponent m e target).2 = target := by
    rw [decreaseExponent]
    omega
  have hvalue := scaleTwo_decreaseExponent m e target
  rw [htarget] at hvalue
  rw [cast_apply, hvalue]

private theorem add_faithful (s t : Sign) {m n : Nat} {e f : Int} (hm : Canonical m e)
    (hn : Canonical n f) :
    ∃ u k g, Canonical k g ∧
      UnpackedFloat.add Format.binary64 (unpacked s m e) (unpacked t n f) = unpacked u k g ∧
      Faithful (signed s (scaleTwo m e) + signed t (scaleTwo n f)) (signed u (scaleTwo k g)) := by
  rcases m.eq_zero_or_pos with rfl | hmpos
  · rcases n.eq_zero_or_pos with rfl | hnpos
    · refine ⟨if s == t then s else .positive, 0, -1074, canonical_zero, ?_, ?_⟩
      · rw [unpacked_zero, unpacked_zero, unpacked_zero]
        cases s <;> cases t <;> rfl
      · rw [scaleTwo_zero, scaleTwo_zero, scaleTwo_zero, signed_zero, signed_zero, signed_zero, add_zero]
        exact .refl _
    · refine ⟨t, n, f, hn, ?_, ?_⟩
      · rw [unpacked_zero, unpacked_pos t f hnpos]
        rfl
      · rw [scaleTwo_zero, signed_zero, zero_add]
        exact .refl _
  · rcases n.eq_zero_or_pos with rfl | hnpos
    · refine ⟨s, m, e, hm, ?_, ?_⟩
      · rw [unpacked_zero, unpacked_pos s e hmpos]
        rfl
      · rw [scaleTwo_zero, signed_zero, add_zero]
        exact .refl _
    · obtain ⟨u, k, g, hk, hnormalize, hfaithful⟩ := normalize_faithful
        (s.apply (decreaseExponent m e (min e f)).1 + t.apply (decreaseExponent n f (min e f)).1)
        (min e f) .positive
      refine ⟨u, k, g, hk, ?_, ?_⟩
      · rw [unpacked_pos s e hmpos, unpacked_pos t f hnpos]
        exact hnormalize
      · rwa [Int.cast_add, add_mul, cast_apply_decreaseExponent s m (min_le_left e f),
          cast_apply_decreaseExponent t n (min_le_right e f)] at hfaithful

theorem exact_add {x y : Float} (hx : x.isFinite = true) (hy : y.isFinite = true)
    (hsum : |exact x + exact y| ≤ greatest) :
    (x + y).isFinite = true ∧ Faithful (exact x + exact y) (exact (x + y)) := by
  obtain ⟨s, m, e, hx⟩ := exists_digits hx
  obtain ⟨t, n, f, hy⟩ := exists_digits hy
  obtain ⟨u, k, g, hk, hadd, hfaithful⟩ := add_faithful s t hx.canonical hy.canonical
  rw [← hx.exact, ← hy.exact] at hfaithful
  have hg : g ≤ 971 := hfaithful.exponent_le hk hsum
  have hdigits : Digits (x + y) u k g := by
    have hmodel : x + y = Float.ofModel (.pack (unpacked u k g)) := by
      rw [← hadd, ← hx.unpack, ← hy.unpack]
      rfl
    rw [hmodel]
    exact .ofModel_pack hk hg
  exact ⟨hdigits.finite, hdigits.exact ▸ hfaithful⟩

private theorem roundWithAccuracy_exact (s : Sign) {m n : Nat} {e f : Int}
    (hdigits : 2 ^ 52 ≤ m ∨ e ≤ -1074) (hn : Canonical n f) (h : scaleTwo m e = scaleTwo n f) :
    roundWithAccuracy Format.binary64 s m e .exact = unpacked s n f := by
  obtain ⟨k, g, hk, hround, hfaithful⟩ := roundWithAccuracy_faithful s hdigits
  rw [h] at hfaithful
  obtain ⟨rfl, rfl⟩ := hfaithful.canonical_eq hk hn
  exact hround

theorem mul_exact (s t : Sign) {m n k : Nat} {e f g : Int} (hm : 0 < m) (hn : 0 < n)
    (hdigits : 2 ^ 52 ≤ m) (hk : Canonical k g)
    (h : scaleTwo m e * scaleTwo n f = scaleTwo k g) :
    UnpackedFloat.mul Format.binary64 (.finite s m e hm) (.finite t n f hn) =
      unpacked (s * t) k g := by
  rw [scaleTwo_mul] at h
  exact roundWithAccuracy_exact (s * t) (.inl (hdigits.trans (Nat.le_mul_of_pos_right m hn))) hk h

theorem totalExponent_eq {m n : Nat} {e f : Int} (hm : 0 < m) (hn : 0 < n)
    (h : scaleTwo m e = scaleTwo n f) : totalExponent m e = totalExponent n f := by
  wlog he : e ≤ f generalizing m n e f
  · exact (this hn hm h.symm (by omega)).symm
  obtain ⟨k, rfl⟩ : ∃ k : Nat, f = e + k := ⟨(f - e).toNat, by omega⟩
  rw [scaleTwo_add] at h
  have hback : m / 2 ^ k = n := by
    rw [scaleTwo_inj h, Nat.mul_div_cancel _ (Nat.two_pow_pos k)]
  have hlog := log2_div_two_pow (m := m) (k := k) (by omega)
  rw [hback] at hlog
  rw [totalExponent, totalExponent]
  omega

private theorem divCore_exact {m n k : Nat} {e f g : Int} (hm : 0 < m) (hn : 0 < n)
    (hk : Canonical k g) (h : scaleTwo m e = scaleTwo (k * n) (g + f)) :
    ∃ j : Nat, divCore Format.binary64 m e n f = (k * 2 ^ j, g - j, .exact) := by
  have hpos : 0 < k * n := Nat.pos_of_ne_zero fun hzero => by
    rw [hzero, scaleTwo_zero] at h
    exact (scaleTwo_pos hm e).ne' h
  have hplace := totalExponent_eq hm hpos h
  have hlog := log2_mul_le k n
  have hdigits := log2_le_of_lt hk.digits
  obtain ⟨target, htarget⟩ : ∃ target, target = min (e - f)
      (max (totalExponent m e - totalExponent n f - 53) (-1074)) := ⟨_, rfl⟩
  have hle : target ≤ g := by
    have hleast := hk.least
    rw [hplace, totalExponent, totalExponent] at htarget
    omega
  obtain ⟨i, hi⟩ : ∃ i : Nat, e - f - target = i := ⟨_, (Int.toNat_of_nonneg (by omega)).symm⟩
  obtain ⟨j, hj⟩ : ∃ j : Nat, g - target = j := ⟨_, (Int.toNat_of_nonneg (by omega)).symm⟩
  have hquotient : m * 2 ^ i = k * 2 ^ j * n := by
    have he : e = target + f + i := by omega
    have hg : g + f = target + f + j := by omega
    rw [he, hg, scaleTwo_add, scaleTwo_add] at h
    rw [scaleTwo_inj h]
    ring
  refine ⟨j, ?_⟩
  have hcore : divCore Format.binary64 m e n f = ((m * 2 ^ i) / n, target,
      accuracyOfFraction ((m * 2 ^ i) % n) n) := by
    rw [divCore, targetExponent_binary64, ← htarget, hi, Int.toNat_natCast, Nat.shiftLeft_eq]
  have hexponent : target = g - j := by omega
  rw [hcore, hquotient, Nat.mul_div_cancel _ hn, Nat.mul_mod_left, hexponent]
  rfl

theorem div_exact (s t : Sign) {m n k : Nat} {e f g : Int} (hm : 0 < m) (hn : 0 < n)
    (hk : Canonical k g) (h : scaleTwo m e = scaleTwo k g * scaleTwo n f) :
    UnpackedFloat.div Format.binary64 (.finite s m e hm) (.finite t n f hn) =
      unpacked (s / t) k g := by
  rw [scaleTwo_mul] at h
  obtain ⟨j, hcore⟩ := divCore_exact hm hn hk h
  have hdiv : UnpackedFloat.div Format.binary64 (.finite s m e hm) (.finite t n f hn) =
      roundWithAccuracy Format.binary64 (s / t) (k * 2 ^ j) (g - j) .exact := by
    rw [UnpackedFloat.div, hcore]
  rw [hdiv]
  apply roundWithAccuracy_exact (s / t) _ hk
  · rw [← scaleTwo_add, Int.sub_add_cancel]
  · rcases hk.full with hfull | hleast
    · exact .inl (hfull.trans (Nat.le_mul_of_pos_right k (Nat.two_pow_pos j)))
    · exact .inr (by omega)

section
variable {x y : Float} {s t : Sign} {m n k : Nat} {e f g : Int}

theorem Digits.mul (hx : Digits x s m e) (hy : Digits y t n f) (hdigits : 2 ^ 52 ≤ m) (hn : 0 < n)
    (hk : Canonical k g) (hg : g ≤ 971) (h : scaleTwo m e * scaleTwo n f = scaleTwo k g) :
    Digits (x * y) (s * t) k g := by
  have hm : 0 < m := by omega
  have hmodel : x * y = Float.ofModel (.pack (unpacked (s * t) k g)) := by
    rw [← mul_exact s t hm hn hdigits hk h, ← hx.unpack_pos hm, ← hy.unpack_pos hn]
    rfl
  exact hmodel ▸ .ofModel_pack hk hg

theorem Digits.div (hx : Digits x s m e) (hy : Digits y t n f) (hm : 0 < m) (hn : 0 < n)
    (hk : Canonical k g) (hg : g ≤ 971) (h : scaleTwo m e = scaleTwo k g * scaleTwo n f) :
    Digits (x / y) (s / t) k g := by
  have hmodel : x / y = Float.ofModel (.pack (unpacked (s / t) k g)) := by
    rw [← div_exact s t hm hn hk h, ← hx.unpack_pos hm, ← hy.unpack_pos hn]
    rfl
  exact hmodel ▸ .ofModel_pack hk hg

end
end Millwork.Decimal
