import Millwork.Proofs.Decimal.Nearest
import Millwork.Proofs.Decimal.Front
/-!
# Texts of numbers read back

The text of a finite double is a sign and a decimal number that is nearest to the double, written without
an exponent. So each reader gives the double back, the one of whole numbers if the double is whole.
-/
namespace Millwork.Decimal
open Text Float.Model Float.Model.UnpackedFloat

section
variable {x : Float} {s : Sign} {m : Nat} {e : Int}

private theorem toFloat_exactly (hx : Digits x s m e) (hm : 0 < m) : (exactly m e).toFloat = x.abs := by
  have hpos : 0 < (exactly m e).coefficient := by
    show 0 < m * 2 ^ e.toNat * 5 ^ (-e).toNat
    positivity
  have hvalue : ((exactly m e).coefficient : ℚ) * 10 ^ (-(exactly m e).places : Int) =
      scaleTwo m e := by
    show ((m * 2 ^ e.toNat * 5 ^ (-e).toNat : Nat) : ℚ) * 10 ^ (-(-e).toNat : Int) = _
    rw [scaleTwo_eq_div, zpow_neg, zpow_natCast, ← div_eq_mul_inv, div_eq_div_iff (by positivity)
      (by positivity), Nat.cast_mul, Nat.cast_pow, Nat.cast_pow, mul_assoc]
    congr 1
    rw [← mul_pow]
    norm_num
  exact (digits_nearest hpos hx.canonical hx.greatest hvalue).unique hx.abs

private theorem onGrid?_spec {r : Ratio} {tie : Tie} {scale : Int} {d : Fixed}
    (h : onGrid? x r tie scale = some d) :
    d.toFloat = x ∧ ∃ n, d = .scaled n scale := by
  have hone : ∀ first second, (if (Fixed.scaled first scale).toFloat = x then
      some (Fixed.scaled first scale) else if (Fixed.scaled second scale).toFloat = x then
      some (Fixed.scaled second scale) else none) = some d →
      d.toFloat = x ∧ ∃ n, d = .scaled n scale := by
    intro first second hd
    split at hd
    · rename_i hfirst
      rw [← Option.some.inj hd]
      exact ⟨hfirst, first, rfl⟩
    · split at hd
      · rename_i hsecond
        rw [← Option.some.inj hd]
        exact ⟨hsecond, second, rfl⟩
      · cases hd
  cases habove : (r.inUnits scale).prefersAbove tie with
  | true =>
    simp only [onGrid?, habove, if_true] at h
    exact hone _ _ h
  | false =>
    simp only [onGrid?, habove, Bool.false_eq_true, if_false] at h
    exact hone _ _ h

private theorem toFloat_of_coarsest? {r : Ratio} {tie : Tie} {scale : Int} {grids : Nat} {d : Fixed}
    (h : coarsest? x r tie scale grids = some d) : d.toFloat = x := by
  induction grids generalizing scale with
  | zero => cases h
  | succ grids ih =>
    rw [coarsest?] at h
    split at h
    · rename_i found hgrid
      rw [← Option.some.inj h]
      exact (onGrid?_spec hgrid).1
    · exact ih h

private theorem toFloat_shortest (tie : Tie) (hx : Digits x s m e) (hm : 0 < m) :
    (shortest tie x).toFloat = x.abs := by
  rw [shortest, hx.unpack_pos hm]
  dsimp only
  generalize hfound : coarsest? x.abs (.binary m e) tie (topScale m e) 20 = found
  cases found with
  | none => exact toFloat_exactly hx hm
  | some d => exact toFloat_of_coarsest? hfound

private theorem pos_of_scaleTwo_eq {n : Nat} (hm : 0 < m) (hn : scaleTwo m e = n) : 0 < n := by
  have hpos := scaleTwo_pos hm e
  rwa [hn, Nat.cast_pos] at hpos

private theorem nearest_of_whole {n : Nat} (hx : Digits x s m e) (hm : 0 < m) (hn : scaleTwo m e = n) :
    nearest n 0 = x.abs := by
  refine (digits_nearest (pos_of_scaleTwo_eq hm hn) hx.canonical hx.greatest ?_).unique hx.abs
  rw [zpow_zero, mul_one, hn]

private theorem places_of_onGrid? {r : Ratio} {tie : Tie} {scale : Int} {d : Fixed} (hscale : 0 ≤ scale)
    (h : onGrid? x r tie scale = some d) : d.places = 0 := by
  obtain ⟨-, n, rfl⟩ := onGrid?_spec h
  rw [Fixed.scaled, if_neg (by omega)]

private theorem places_of_coarsest? {r : Ratio} {tie : Tie} {scale : Int} {grids : Nat}
    (hscale : 0 ≤ scale) (hwhole : (onGrid? x r tie 0).isSome = true) :
    match coarsest? x r tie scale grids with
    | some d => d.places = 0
    | none => grids ≤ scale := by
  induction grids generalizing scale with
  | zero => exact hscale
  | succ grids ih =>
    rw [coarsest?]
    cases hgrid : onGrid? x r tie scale with
    | some d => exact places_of_onGrid? hscale hgrid
    | none =>
      have hne : scale ≠ 0 := by
        rintro rfl
        rw [hgrid] at hwhole
        cases hwhole
      have hbelow : 0 ≤ scale - 1 := by omega
      have hnext := ih hbelow
      dsimp only
      split
      · rename_i d hd
        rw [hd] at hnext
        exact hnext
      · rename_i hd
        rw [hd] at hnext
        dsimp only at hnext
        omega

private theorem onGrid?_whole {n : Nat} (tie : Tie) (hx : Digits x s m e) (hm : 0 < m)
    (hn : scaleTwo m e = n) : (onGrid? x.abs (.binary m e) tie 0).isSome = true := by
  have hpos : 0 < 2 ^ (-e).toNat := Nat.two_pow_pos _
  have hnumerator : m * 2 ^ e.toNat = n * 2 ^ (-e).toNat := by
    rw [scaleTwo_eq_div, div_eq_iff (by positivity), ← Nat.cast_mul, Nat.cast_inj] at hn
    exact hn
  have hunits : (Ratio.binary m e).inUnits 0 = ⟨n * 2 ^ (-e).toNat, 2 ^ (-e).toNat⟩ := by
    rw [← hnumerator]
    show Ratio.mk (m * 2 ^ e.toNat * 1) (2 ^ (-e).toNat * 1) = _
    rw [Nat.mul_one, Nat.mul_one]
  have hbelow : Ratio.below ⟨n * 2 ^ (-e).toNat, 2 ^ (-e).toNat⟩ = n := Nat.mul_div_cancel n hpos
  have habove : Ratio.prefersAbove ⟨n * 2 ^ (-e).toNat, 2 ^ (-e).toNat⟩ tie = false := by
    rw [Ratio.prefersAbove]
    dsimp only
    rw [Nat.mul_mod_left, Nat.mul_zero, Nat.compare_eq_lt.2 hpos]
  have hlower : (Fixed.scaled n 0).toFloat = x.abs := by
    show nearest (n * 1) 0 = x.abs
    rw [Nat.mul_one, nearest_of_whole hx hm hn]
  simp only [onGrid?, hunits, hbelow, habove, Bool.false_eq_true, if_false, hlower, if_true,
    Option.isSome_some]

private theorem topScale_whole {n : Nat} (hm : Canonical m e) (hpos : 0 < m) (hn : scaleTwo m e = n) :
    0 ≤ topScale m e ∧ (20 ≤ topScale m e → 0 ≤ e) := by
  have hlog := log2_le_of_lt hm.digits
  have hplace := totalExponent_eq hpos (pos_of_scaleTwo_eq hpos hn)
    (hn.trans (scaleTwo_natCast n).symm)
  rw [totalExponent, totalExponent] at hplace
  rw [topScale, Int.fdiv_eq_ediv_of_nonneg _ (by decide)]
  omega

private theorem places_shortest {n : Nat} (tie : Tie) (hx : Digits x s m e) (hm : 0 < m)
    (hn : scaleTwo m e = n) : (shortest tie x).places = 0 := by
  obtain ⟨htop, hlarge⟩ := topScale_whole hx.canonical hm hn
  have hplaces := @places_of_coarsest? _ _ _ _ 20 htop (onGrid?_whole tie hx hm hn)
  rw [shortest, hx.unpack_pos hm]
  dsimp only
  generalize coarsest? x.abs (.binary m e) tie (topScale m e) 20 = found at hplaces
  cases found with
  | none => exact Int.toNat_of_nonpos (Int.neg_nonpos_of_nonneg (hlarge hplaces))
  | some d => exact hplaces

end

private theorem ofDigits_digitsOf (n : Nat) : ofDigits (digitsOf n) = n :=
  Nat.ofDigitChars_ten_toDigits

private theorem padded_remainder {n k : Nat} (hk : 0 < k) (hn : n < 10 ^ k) :
    let padded := List.replicate (k - (digitsOf n).length) '0' ++ digitsOf n
    padded.length = k ∧ ofDigits padded = n := by
  intro padded
  have hlength : (digitsOf n).length ≤ k := (Nat.length_toDigits_le_iff (by decide) hk).2 hn
  constructor
  · simp only [padded, List.length_append, List.length_replicate]
    omega
  · rw [ofDigits_append, ofDigits_digitsOf, ofDigits, Nat.ofDigitChars_replicate_zero, Nat.mul_zero,
      Nat.mul_zero, Nat.zero_add]

namespace Fixed

private theorem significand_positionalLiteral (d : Fixed) :
    d.positionalLiteral.significand = d.coefficient ∧ d.positionalLiteral.scale = -d.places := by
  have hpow : Nat.pow 10 d.places = 10 ^ d.places := rfl
  rw [positionalLiteral, hpow]
  split
  · rename_i hplaces
    rw [hplaces, Literal.significand, List.append_nil, ofDigits_digitsOf]
    exact ⟨rfl, rfl⟩
  · rename_i hplaces
    have hpos : 0 < 10 ^ d.places := Nat.pow_pos (by decide)
    obtain ⟨hlength, hvalue⟩ := padded_remainder (Nat.pos_of_ne_zero hplaces)
      (Nat.mod_lt d.coefficient hpos)
    dsimp only
    constructor
    · rw [Literal.significand, ofDigits_append, hlength, hvalue, ofDigits_digitsOf]
      exact Nat.div_add_mod d.coefficient _
    · rw [Literal.scale, hlength]
      exact Int.zero_sub _

end Fixed

private def signOf (negative : Bool) : Option Char :=
  if negative then some '-' else none

private theorem withSign_eq (negative : Bool) (s : List Char) :
    withSign negative s = (signOf negative).toList ++ s := by
  cases negative <;> rfl

private theorem isSign_signOf (negative : Bool) : IsSign (signOf negative) := by
  intro c hc
  cases negative with
  | false => cases hc
  | true => exact .inr (Option.some.inj hc).symm

private theorem written_positional (negative : Bool) (d : Fixed) :
    Written (withSign negative d.positional) (if negative then -d.toFloat else d.toFloat) := by
  obtain ⟨hsignificand, hscale⟩ := d.significand_positionalLiteral
  have hvalue : (if negative then -d.toFloat else d.toFloat) = nearestSigned (signOf negative == some '-')
      d.positionalLiteral.significand d.positionalLiteral.scale := by
    rw [hsignificand, hscale]
    cases negative <;> rfl
  rw [withSign_eq, hvalue, ← d.positionalLiteral_spelling]
  exact .signed (isSign_signOf negative) (.literal d.positionalLiteral_wellFormed)

private theorem readAll_of_written {s : List Char} {x : Float} (h : Written s x) : readAll s = x := by
  have hread := readAll_written (List.forall_mem_nil _) (List.forall_mem_nil _) h
  rwa [List.nil_append, List.append_nil] at hread

private theorem skipBlanks_of_written {s : List Char} {x : Float} (h : Written s x) :
    skipBlanks s = s := by
  have hsurrounded := (h.surrounded (List.forall_mem_nil _) []).2
  rwa [List.append_nil, List.nil_append] at hsurrounded

private theorem readFront_of_written {s : List Char} {x : Float} (h : Written s x) :
    readFront s = x := by
  have hskip := skipBlanks_of_written h
  rcases readFront_cases s with ⟨number, rest, hs, hnumber, hlongest⟩ | ⟨hnone, -⟩
  · rw [hskip] at hs hlongest
    have hle := hlongest s x h (List.prefix_refl s)
    have hrest : rest = [] := by
      rw [hs, List.length_append] at hle
      exact List.length_eq_zero_iff.1 (by omega)
    rw [hrest, List.append_nil] at hs
    rw [← readAll_of_written hnumber, ← hs, readAll_of_written h]
  · rw [hskip] at hnone
    exact absurd (List.prefix_refl s) (hnone s x h)

private theorem readWholeFront_of_places (negative : Bool) {d : Fixed} (h : d.places = 0) :
    readWholeFront (withSign negative d.positional) =
      if negative then -d.toFloat else d.toFloat := by
  have hunsigned : Unsigned (signOf negative == some '-') d.positional
      (nearestSigned (signOf negative == some '-') d.positionalLiteral.significand
        d.positionalLiteral.scale) := by
    rw [← d.positionalLiteral_spelling]
    exact .literal d.positionalLiteral_wellFormed
  have hsplit := hunsigned.splitSign_append (isSign_signOf negative) []
  have hdigits : d.positional = digitsOf d.coefficient := if_pos h
  have hfront : digitsAtFront (digitsOf d.coefficient) = digitsOf d.coefficient := by
    have hspan := (@span_digits (digitsOf d.coefficient) [] (digitsOf_allDigits _) rfl).1
    rwa [List.append_nil] at hspan
  have hne : (digitsOf d.coefficient).isEmpty = false :=
    List.isEmpty_eq_false_iff.2 (digitsOf_ne_nil _)
  rw [List.append_nil, ← withSign_eq] at hsplit
  rw [readWholeFront, skipBlanks_of_written (written_positional negative d), hsplit, hdigits]
  simp only [hfront, hne, Bool.false_eq_true, if_false, ofDigits_digitsOf]
  rw [Fixed.toFloat, h]
  cases negative <;> rfl

section
variable {x : Float} {s : Sign} {m : Nat} {e : Int}

private theorem abs_signed_eq (hx : Digits x s m e) : (if isNegative x then -x.abs else x.abs) = x := by
  rw [hx.isNegative]
  cases s with
  | positive => exact hx.abs.unique hx
  | negative => exact hx.abs.neg.unique hx

private theorem exists_positional (hx : Digits x s m e) (hm : 0 < m) :
    ∃ d : Fixed, (text x).toList = withSign (isNegative x) d.positional ∧ d.toFloat = x.abs ∧
      (isWhole x = true → d.places = 0) := by
  have hfinite := hx.finite
  rw [isFinite_eq, Bool.not_eq_true', Bool.or_eq_false_iff] at hfinite
  rw [text, hfinite.2]
  simp only [Bool.false_eq_true, if_false]
  split
  · rename_i hshort
    obtain ⟨n, hn⟩ := hx.isWhole.1 (Bool.and_eq_true_iff.1 hshort).1
    have hpart : wholePart x = n := by
      rw [hx.wholePart, hn, Nat.floor_natCast]
    have hne : (n != 0) = true := bne_iff_ne.2 (pos_of_scaleTwo_eq hm hn).ne'
    refine ⟨⟨n, 0⟩, ?_, nearest_of_whole hx hm hn, fun _ => rfl⟩
    rw [String.toList_ofList, hpart, hne, Bool.and_true]
    rfl
  · refine ⟨shortest .up x, ?_, toFloat_shortest .up hx hm, fun hwhole => ?_⟩
    · rw [plainText, hfinite.1, hfinite.2]
      simp only [Bool.false_eq_true, if_false, String.toList_ofList]
    · obtain ⟨n, hn⟩ := hx.isWhole.1 hwhole
      exact places_shortest .up hx hm hn

private theorem read_text_of_digits (hx : Digits x s m e) (hm : 0 < m) :
    readAll (text x).toList = x ∧ readFront (text x).toList = x ∧
      (isWhole x = true → readWholeFront (text x).toList = x) := by
  obtain ⟨d, htext, hvalue, hplaces⟩ := exists_positional hx hm
  have hwritten := written_positional (isNegative x) d
  rw [hvalue, abs_signed_eq hx] at hwritten
  rw [htext]
  refine ⟨readAll_of_written hwritten, readFront_of_written hwritten, fun hwhole => ?_⟩
  rw [readWholeFront_of_places _ (hplaces hwhole), hvalue, abs_signed_eq hx]

end

/-- Equal as numbers, as the two zeros are; NaN counts as equal to itself. -/
def SameNumber (x y : Float) : Prop :=
  (x == y) = true ∨ (x.isNaN = true ∧ y.isNaN = true)

instance (x y : Float) : Decidable (SameNumber x y) :=
  inferInstanceAs (Decidable (_ ∨ _))

private theorem sameNumber_refl (x : Float) : SameNumber x x := by
  by_cases h : x = Float.nan
  · rw [h]
    exact .inr (by decide)
  · exact .inl (Float.beq_self_iff.2 h)

private def specials : List Float :=
  [notANumber, infinity false, infinity true, 0.0, -0.0]

private theorem mem_specials_or_digits (x : Float) :
    x ∈ specials ∨ ∃ s m e, 0 < m ∧ Digits x s m e := by
  cases hx : x.toModel.unpack with
  | notANumber =>
    obtain rfl : x = notANumber := eq_of_unpack_eq hx
    exact .inl (by simp [specials])
  | infinity s =>
    cases s with
    | positive =>
      obtain rfl : x = infinity false := eq_of_unpack_eq hx
      exact .inl (by simp [specials])
    | negative =>
      obtain rfl : x = infinity true := eq_of_unpack_eq hx
      exact .inl (by simp [specials])
  | zero s =>
    cases s with
    | positive =>
      obtain rfl : x = 0.0 := eq_of_unpack_eq hx
      exact .inl (by simp [specials])
    | negative =>
      obtain rfl : x = -0.0 := eq_of_unpack_eq hx
      exact .inl (by simp [specials])
  | finite s m e hm =>
    obtain ⟨hcanonical, hmax⟩ := canonical_of_unpack hx
    exact .inr ⟨s, m, e, hm, hcanonical, hmax, hx.trans (unpacked_pos s e hm).symm⟩

private theorem read_specials : ∀ x ∈ specials,
    SameNumber (readAll (text x).toList) x ∧ SameNumber (readFront (text x).toList) x ∧
      (x.isFinite = true → SameNumber (readWholeFront (text x).toList) x) := by
  decide +kernel

/-- A number that is written as a text is read as that number: strictly, from the front of the text and,
if it is a whole number, from its digits only. -/
theorem read_text (x : Float) :
    SameNumber (readAll (text x).toList) x ∧ SameNumber (readFront (text x).toList) x ∧
      (x.isFinite = true → (∃ n : Int, exact x = n) →
        SameNumber (readWholeFront (text x).toList) x) := by
  rcases mem_specials_or_digits x with hspecial | ⟨s, m, e, hm, hx⟩
  · obtain ⟨hall, hfront, hwhole⟩ := read_specials x hspecial
    exact ⟨hall, hfront, fun hfinite _ => hwhole hfinite⟩
  · obtain ⟨hall, hfront, hwhole⟩ := read_text_of_digits hx hm
    refine ⟨?_, ?_, fun hfinite hn => ?_⟩
    · rw [hall]
      exact sameNumber_refl x
    · rw [hfront]
      exact sameNumber_refl x
    · rw [hwhole ((isWhole_iff hfinite).2 hn)]
      exact sameNumber_refl x

theorem read_text_large :
    (1e21 : Float).isFinite = true ∧ (∃ n : Int, exact 1e21 = n) ∧
      SameNumber (readWholeFront (text 1e21).toList) 1e21 := by
  have hfinite : (1e21 : Float).isFinite = true := by decide
  have hwhole : ∃ n : Int, exact 1e21 = n := (isWhole_iff hfinite).1 (by decide)
  exact ⟨hfinite, hwhole, (read_text 1e21).2.2 hfinite hwhole⟩

end Millwork.Decimal
