import Millwork.Proofs.Measurement.Sum
import Millwork.Proofs.Decimal.Overflow
/-!
# Measurements as numbers

The parts of a measurement have the positive sign, and so has their sum. A part is NaN only if it is a
fraction of two runs of digits that are both rounded to infinity, and then the sum is NaN as well.
-/
namespace Millwork.Measurement
open Text Decimal Float.Model Float.Model.UnpackedFloat

theorem amount_positive (n : Nat) : IsPositive (amount n) :=
  isPositive_nearest n 0

private theorem isNaN_amount (n : Nat) : (amount n).isNaN = false :=
  isNaN_nearest n 0

private theorem isInf_amount_iff (n : Nat) : (amount n).isInf = true ↔ overflow ≤ n :=
  isInf_nearest_iff n

theorem digits_twelve : Digits 12 .positive (3 * 2 ^ 51) (-49) :=
  ⟨⟨by decide, by decide, .inl (by decide)⟩, by decide, rfl⟩

private theorem isNaN_mul_twelve (x : Float) : (x * 12).isNaN = x.isNaN := by
  have hproduct : (x * 12).isNaN = (UnpackedFloat.mul Format.binary64 x.toModel.unpack
      (.finite .positive (3 * 2 ^ 51) (-49) (by decide))).isNaN :=
    isNaN_unpack_pack _
  exact hproduct.trans (isNaN_mul_finite _ _ _ _ _)

private theorem isNaN_quotient_iff {n d : Nat} (hd : d ≠ 0) :
    (amount n / amount d).isNaN = true ↔ overflow ≤ n ∧ overflow ≤ d := by
  have hzero : amount d ≠ 0 := nearest_ne_zero (Nat.pos_of_ne_zero hd)
  rw [(amount_positive n).isNaN_div (amount_positive d) (isNaN_amount n) (isNaN_amount d) hzero,
    Bool.and_eq_true, isInf_amount_iff, isInf_amount_iff]

theorem exists_literal_of_plainNumber? {s : List Char} {x : Float} (h : plainNumber? s = some x) :
    ∃ l : Literal, x = l.toFloat := by
  unfold plainNumber? at h
  split at h
  · rename_i l hread
    split at h
    · exact ⟨l, (Option.some.inj h).symm⟩
    · cases h
  · cases h

private theorem mem_parts {s : List Char} {x : Float} (h : x ∈ parts s) :
    (∃ n, x = amount n * 12) ∨ (∃ f ∈ fraction.tokens s, x = amount f.1 / amount f.2) ∨
      (∃ n, x = amount n) ∨ ∃ l : Literal, x = l.toFloat := by
  simp only [parts, List.mem_append, Option.mem_toList, Option.map_eq_some_iff, List.mem_map] at h
  rcases h with ((⟨n, -, rfl⟩ | ⟨f, hf, rfl⟩) | ⟨found, -, rfl⟩) | hplain
  · exact .inl ⟨n, rfl⟩
  · exact .inr (.inl ⟨f, hf, rfl⟩)
  · exact .inr (.inr (.inl ⟨found.1, rfl⟩))
  · exact .inr (.inr (.inr (exists_literal_of_plainNumber? hplain)))

private theorem quotient_mem_parts {s : List Char} {f : Nat × Nat} (h : f ∈ fraction.tokens s) :
    amount f.1 / amount f.2 ∈ parts s := by
  have hmem := List.mem_map_of_mem (f := fun f => amount f.1 / amount f.2) h
  simp only [parts, List.mem_append]
  exact .inl (.inl (.inr hmem))

private theorem positive_of_mem_parts {s : List Char} {x : Float} (h : x ∈ parts s) : IsPositive x := by
  rcases mem_parts h with ⟨n, rfl⟩ | ⟨f, -, rfl⟩ | ⟨n, rfl⟩ | ⟨l, rfl⟩
  · exact (amount_positive n).mul digits_twelve.isPositive
  · exact (amount_positive f.1).div (amount_positive f.2)
  · exact amount_positive n
  · exact isPositive_nearest _ _

private theorem exists_isNaN_iff {s : List Char} (hzero : ∀ f ∈ fraction.tokens s, f.2 ≠ 0) :
    (∃ x ∈ parts s, x.isNaN = true) ↔
      ∃ f ∈ fraction.tokens s, overflow ≤ f.1 ∧ overflow ≤ f.2 := by
  constructor
  · rintro ⟨x, hx, hnan⟩
    rcases mem_parts hx with ⟨n, rfl⟩ | ⟨f, hf, rfl⟩ | ⟨n, rfl⟩ | ⟨l, rfl⟩
    · rw [isNaN_mul_twelve, isNaN_amount] at hnan
      cases hnan
    · exact ⟨f, hf, (isNaN_quotient_iff (hzero f hf)).1 hnan⟩
    · rw [isNaN_amount] at hnan
      cases hnan
    · have hliteral : l.toFloat.isNaN = false := isNaN_nearest _ _
      rw [hliteral] at hnan
      cases hnan
  · rintro ⟨f, hf, hlarge⟩
    exact ⟨_, quotient_mem_parts hf, (isNaN_quotient_iff (hzero f hf)).2 hlarge⟩

private theorem foldl_add_positive {xs : List Float} {start : Float} (hs : IsPositive start)
    (h : ∀ x ∈ xs, IsPositive x) : IsPositive (xs.foldl (· + ·) start) ∧
      ((xs.foldl (· + ·) start).isNaN = true ↔ start.isNaN = true ∨ ∃ x ∈ xs, x.isNaN = true) := by
  induction xs generalizing start with
  | nil => simpa using hs
  | cons x xs ih =>
    obtain ⟨hx, hxs⟩ := List.forall_mem_cons.1 h
    obtain ⟨hpositive, hnan⟩ := ih (hs.add hx) hxs
    refine ⟨hpositive, ?_⟩
    rw [List.foldl_cons, hnan, hs.isNaN_add hx, Bool.or_eq_true, List.exists_mem_cons_iff, or_assoc]

private theorem positive_zero : IsPositive 0.0 :=
  Positive.zero

private theorem exists_overflowing_iff (s : List Char) :
    (∃ f ∈ fraction.tokens s, overflow ≤ f.1 ∧ overflow ≤ f.2) ↔
      HasFraction (fun n d => overflow ≤ ofDigits n ∧ overflow ≤ ofDigits d) s :=
  exists_mem_tokens_iff (p := fun n d => overflow ≤ n ∧ overflow ≤ d)
    (fun hle hlarge => ⟨hlarge.1.trans hle, hlarge.2⟩) s

/-- A measurement is a number and at least zero exactly if it has no fraction whose numbers are both too
large for a double. -/
theorem read_number_iff {text : String} {x : Float} (h : read text = .ok x) :
    (x.isNaN = false ∧ 0 ≤ x) ↔
      ¬HasFraction (fun n d => overflow ≤ ofDigits n ∧ overflow ≤ ofDigits d)
        (lower (trim text.toList)) := by
  obtain ⟨hzero, -, rfl⟩ := (read_eq_ok_iff text x).1 h
  obtain ⟨hpositive, hnan⟩ := foldl_add_positive positive_zero fun x hx => positive_of_mem_parts hx
  have hstart : (0.0 : Float).isNaN = false := by decide
  rw [hstart, or_iff_right Bool.false_ne_true, exists_isNaN_iff hzero, exists_overflowing_iff] at hnan
  rw [← hnan, Bool.not_eq_true]
  exact ⟨And.left, fun hn => ⟨hn, hpositive.zero_le hn⟩⟩

theorem read_number_fraction :
    let text := "7 ft 10 in 5/8 in"
    read text = .ok 94.625 ∧ (94.625 : Float).isNaN = false ∧ (0 : Float) ≤ 94.625 := by
  intro text
  have hread : read text = .ok 94.625 := by decide +kernel
  have hfound : ¬∃ f ∈ fraction.tokens (lower (trim text.toList)), overflow ≤ f.1 ∧ overflow ≤ f.2 := by
    decide +kernel
  refine ⟨hread, (read_number_iff hread).2 ?_⟩
  rwa [← exists_overflowing_iff]

private theorem read_quotient {n d : List Char} {text : String} (hd : ofDigits d ≠ 0)
    (h : Row AllBlank Component.Written [.fraction n d] text.toList) :
    read text = .ok (0.0 + amount (ofDigits n) / amount (ofDigits d)) := by
  refine (read_eq_ok_iff _ _).2 ?_
  rw [(h.lower_trim.search fraction_startsWithDigit fraction_meets).1,
    parts_row h.lower_trim (Nat.zero_le 1) (Nat.zero_le 1)]
  refine ⟨?_, List.cons_ne_nil _ _, rfl⟩
  simpa [Component.fraction?] using hd

/-- Three hundred and nine nines over as many: both numbers are rounded to infinity. -/
theorem read_nines :
    let nines := List.replicate 309 '9'
    ∃ x, read (String.ofList (nines ++ ['/'] ++ nines ++ [' ', 'i', 'n'])) = .ok x ∧
      x.isNaN = true := by
  intro nines
  have hrun : IsRun nines := ⟨fun c hc => by rw [List.eq_of_mem_replicate hc]; rfl, by decide⟩
  have hnone : AllBlank [] := by decide
  have hbar : IsSlash ['/'] := ⟨[], [], hnone, hnone, rfl⟩
  have hrow : Row AllBlank Component.Written [.fraction nines nines]
      (String.ofList (nines ++ ['/'] ++ nines ++ [' ', 'i', 'n'])).toList := by
    have hwritten : Component.Written (.fraction nines nines)
        (nines ++ (['/'] ++ (nines ++ ([' '] ++ ['i', 'n'])))) :=
      .fraction hrun hbar hrun (by decide) (by decide)
    have hcons := Row.cons hnone hwritten (.nil hnone)
    simpa using hcons
  have hlarge : overflow ≤ ofDigits nines := by decide +kernel
  have hzero : ofDigits nines ≠ 0 := by
    have hpos : 0 < overflow := by decide +kernel
    omega
  refine ⟨_, read_quotient hzero hrow, ?_⟩
  rw [positive_zero.isNaN_add ((amount_positive _).div (amount_positive _)),
    (isNaN_quotient_iff hzero).2 ⟨hlarge, hlarge⟩, Bool.or_true]

end Millwork.Measurement
