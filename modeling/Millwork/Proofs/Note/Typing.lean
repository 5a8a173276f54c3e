import Millwork.Note
import Millwork.Proofs.Measurement.Sum
import Millwork.Proofs.Text.Lower.Letters
/-!
# Typed values

The value of a labelled line is typed: a yes or a no becomes a flag, what reads as a measurement becomes a
number of inches, and everything else stays a text. A value is only read as a measurement if a digit in it
has a unit or a slash behind it, in letters of any case. That lets all measurements pass but those that are
nothing but a number.
-/
namespace Millwork

namespace Measurement
open Text

private theorem isKept_of_mem_mark {units : List (List Char)} (hu : units ⊆ feetUnits ++ inchMarks)
    {mark : List Char} (h : IsMark units mark) : ∀ c ∈ mark, IsKept c := by
  obtain ⟨blanks, unit, hb, hmem, rfl⟩ := h
  have hunits : ((feetUnits ++ inchMarks).all fun unit => unit.all fun c =>
      0 < c.toNat && c.toNat < 0x80 && c != 'k') = true := by
    decide
  intro c hc
  rcases List.mem_append.1 hc with hblank | hunit
  · exact .inl (hb c hblank)
  · refine .inr ?_
    simpa [and_assoc] using List.all_eq_true.1 (List.all_eq_true.1 hunits unit (hu hmem)) c hunit

private theorem getLast?_mark {units : List (List Char)} (hu : units ⊆ feetUnits ++ inchMarks)
    {mark : List Char} (h : IsMark units mark) (c : Char) : (c :: mark).getLast? ≠ some 'i' := by
  obtain ⟨blanks, unit, -, hmem, rfl⟩ := h
  have hunits : ∀ unit ∈ feetUnits ++ inchMarks, unit ≠ [] ∧ unit.getLast? ≠ some 'i' := by
    decide
  obtain ⟨hne, hlast⟩ := hunits unit (hu hmem)
  rw [← List.cons_append, List.getLast?_append_of_ne_nil _ hne]
  exact hlast

theorem HasUnit.map_toLower {units : List (List Char)} (hu : units ⊆ feetUnits ++ inchMarks)
    {s : List Char} (h : HasUnit units (lower s)) : HasUnit units (s.map Char.toLower) := by
  obtain ⟨before, c, mark, after, hs, hc, hm⟩ := h
  have hdigit := (isDigit_iff c).1 hc
  have hkept : ∀ d ∈ c :: mark, IsKept d := by
    refine List.forall_mem_cons.2 ⟨.inr ⟨by omega, by omega, ?_⟩, isKept_of_mem_mark hu hm⟩
    rintro rfl
    cases hc
  have hin : c :: mark <:+: lower s := ⟨before, after, by rw [hs]; simp⟩
  obtain ⟨front, back, hsplit⟩ := isInfix_map_toLower hkept (getLast?_mark hu hm c) hin
  exact ⟨front, c, mark, back, by rw [← hsplit]; simp, hc, hm⟩

private theorem IsPlainNumber.isDigit_or_point {s : List Char} (h : IsPlainNumber s) :
    ∀ c ∈ s, c.isDigit = true ∨ c = '.' := by
  obtain ⟨whole, hw, hs⟩ := h
  intro c hc
  rcases hs with rfl | ⟨fraction, hf, rfl⟩
  · exact .inl (hw.digits c hc)
  · rcases List.mem_append.1 hc with hc | hc
    · exact .inl (hw.digits c hc)
    · rcases List.mem_cons.1 hc with hpoint | hc
      · exact .inr hpoint
      · exact .inl (hf.digits c hc)

private theorem IsPlainNumber.of_lower {s : List Char} (h : IsPlainNumber (lower s)) :
    IsPlainNumber s := by
  have hcode : ∀ c ∈ lower s, 0x2e ≤ c.toNat ∧ c.toNat ≤ 0x39 := by
    intro c hc
    rcases h.isDigit_or_point c hc with hdigit | hpoint
    · have := (isDigit_iff c).1 hdigit
      omega
    · rw [hpoint]
      decide
  have hne : ∀ c ∈ lower s, c ≠ 'k' ∧ c ≠ 'i' := by
    intro c hc
    constructor
    · rintro rfl
      exact absurd (hcode _ hc).2 (by decide)
    · rintro rfl
      exact absurd (hcode _ hc).2 (by decide)
  have hmap : s.map Char.toLower = lower s := by
    apply map_toLower_eq_lower
    · intro c hc
      have := hcode c hc
      exact .inr ⟨by omega, by omega, (hne c hc).1⟩
    · intro hi
      exact (hne _ (List.mem_of_getLast? hi)).2 rfl
  have hself : s.map Char.toLower = s := by
    apply map_toLower_of
    intro c hc
    have hl := toNat_toLower c
    have := hcode c.toLower (hmap ▸ List.mem_map_of_mem hc)
    split at hl <;> omega
  rwa [← hmap, hself] at h

end Measurement

namespace Note
open Text Measurement

def marks : List (List Char) :=
  ['/'] :: (feetUnits ++ inchMarks)

private theorem unitMark_eq_some_iff {s rest : List Char} :
    unitMark s = some rest ↔ ∃ mark, IsMark marks mark ∧ s = mark ++ rest := by
  constructor
  · intro h
    obtain ⟨blanks, hb, hs⟩ := exists_skipBlanks s
    have hunit : ∀ units ⊆ marks, (∃ mark, IsMark units mark ∧ skipBlanks s = mark ++ rest) →
        ∃ mark, IsMark marks mark ∧ s = mark ++ rest := by
      intro units hu hmark
      obtain ⟨_, ⟨more, unit, hm, hmem, rfl⟩, hskip⟩ := hmark
      refine ⟨_, ⟨blanks ++ more, unit, List.forall_mem_append.2 ⟨hb, hm⟩, hu hmem, rfl⟩, ?_⟩
      rw [hs, hskip]
      simp
    unfold unitMark at h
    split at h
    · rename_i t ht
      cases h
      exact hunit [['/']] (by decide) ⟨['/'], ⟨[], ['/'], List.forall_mem_nil _, by decide, rfl⟩, ht⟩
    · rcases Option.or_eq_some_iff.1 h with hfeet | ⟨-, hinches⟩
      · exact hunit feetUnits (by decide) (feetMark_eq_some_iff.1 hfeet)
      · exact hunit inchMarks (by decide) (inchMark_eq_some_iff.1 hinches)
  · rintro ⟨_, ⟨blanks, unit, hb, hu, rfl⟩, rfl⟩
    have hskip : unitMark (blanks ++ unit ++ rest) = unitMark (unit ++ rest) := by
      rw [unitMark, List.append_assoc, skipBlanks_append hb, ← unitMark]
    simp only [marks, feetUnits, inchMarks, List.cons_append, List.nil_append, List.mem_cons,
      List.not_mem_nil, or_false] at hu
    rw [hskip]
    rcases hu with rfl | rfl | rfl | rfl | rfl | rfl <;> rfl

private theorem measured_read_eq_some_iff {s run rest : List Char} :
    measured.read s = some (run, rest) ↔
    ∃ digits mark, IsRun digits ∧ IsMark marks mark ∧ s = digits ++ (mark ++ rest) ∧ run = digits := by
  have hread : ∀ {run t}, IsRun run → EndsRun t →
      measured.read (run ++ t) = (unitMark t).map (run, ·) := by
    intro run t hr ht
    simp [measured, Pattern.followedBy, read_run hr ht]
  constructor
  · intro h
    rcases exists_run_or_endsRun s with ⟨digits, t, hr, ht, rfl⟩ | hs
    · rw [hread hr ht] at h
      obtain ⟨after, hm, he⟩ := Option.map_eq_some_iff.1 h
      cases he
      obtain ⟨mark, hmark, rfl⟩ := unitMark_eq_some_iff.1 hm
      exact ⟨_, mark, hr, hmark, rfl, rfl⟩
    · simp [measured, Pattern.followedBy, read_endsRun hs] at h
  · rintro ⟨digits, mark, hr, hm, rfl, rfl⟩
    have hends : EndsRun (mark ++ rest) :=
      (hm.noDigit (by decide)).endsRun_append (hm.ne_nil (by decide)) rest
    rw [hread hr hends, unitMark_eq_some_iff.2 ⟨mark, hm, rfl⟩]
    rfl

private theorem looksMeasured_iff (s : List Char) :
    looksMeasured s = true ↔ HasUnit marks (s.map Char.toLower) := by
  have hnone := reads_nowhere_iff (fun _ _ _ => measured_read_eq_some_iff) (s.map Char.toLower)
  rw [← Pattern.cutFirst?_eq_none_iff] at hnone
  rw [looksMeasured, Pattern.occursIn, ← not_iff_not, ← hnone, Bool.not_eq_true,
    Option.isSome_eq_false_iff, Option.isNone_iff_eq_none]

private theorem isDigit_of_toLower {c : Char} (h : c.toLower.isDigit = true) : c.isDigit = true := by
  rw [isDigit_iff, toNat_toLower] at h
  rw [isDigit_iff]
  split at h <;> omega

theorem exists_isDigit_of_looksMeasured {s : List Char} (h : looksMeasured s = true) :
    ∃ c ∈ s, c.isDigit = true := by
  obtain ⟨before, d, mark, after, hs, hd, -⟩ := (looksMeasured_iff s).1 h
  have hmem : d ∈ s.map Char.toLower := by simp [hs]
  obtain ⟨c, hc, rfl⟩ := List.mem_map.1 hmem
  exact ⟨c, hc, isDigit_of_toLower hd⟩

private theorem looksMeasured_of_isPlainNumber {s : List Char} (h : IsPlainNumber s) :
    looksMeasured s = false := by
  have hmarks : (marks.all fun unit => unit.any fun c => !c.isDigit && c != '.') = true := by decide
  have hlower : s.map Char.toLower = s := by
    apply map_toLower_of
    intro c hc
    rcases h.isDigit_or_point c hc with hdigit | hpoint
    · have := (isDigit_iff c).1 hdigit
      omega
    · rw [hpoint]
      decide
  rw [← Bool.not_eq_true, looksMeasured_iff, hlower]
  rintro ⟨before, d, _, after, hs, -, blanks, unit, -, hu, rfl⟩
  obtain ⟨c, hc, hdigit, hpoint⟩ : ∃ c ∈ unit, c.isDigit = false ∧ c ≠ '.' := by
    simpa using List.all_eq_true.1 hmarks unit hu
  rcases h.isDigit_or_point c (by simp [hs, hc]) with hd | hp
  · rw [hdigit] at hd
    cases hd
  · exact hpoint hp

private theorem looksMeasured_of_read {text : String} {x : Float} (ht : trim text.toList = text.toList)
    (h : Measurement.read text = .ok x) (hp : ¬IsPlainNumber text.toList) :
    looksMeasured text.toList = true := by
  obtain ⟨-, hparts, -⟩ := (read_eq_ok_iff text x).1 h
  rw [Ne, parts_eq_nil_iff, trim_lower_trim, ht] at hparts
  have hunit : HasUnit (feetUnits ++ inchUnits) (lower text.toList) := by
    by_contra hno
    exact hparts ⟨hno, fun hplain => hp hplain.of_lower⟩
  rw [hasUnit_append_iff, hasUnit_inchUnits_iff, ← hasUnit_append_iff] at hunit
  rw [looksMeasured_iff]
  exact (hunit.map_toLower (List.Subset.refl _)).mono (List.subset_cons_self _ _)

private theorem toLower_of_caseless {c d : Char} (h : caseless c = d) (hd : d ≠ 's') :
    c.toLower = d := by
  unfold caseless at h
  split at h
  · exact absurd h.symm hd
  · exact h

private theorem head_of_isWord {word : String} {s : List Char} (h : isWord word s = true) {d : Char}
    {more : List Char} (hw : word.toList = d :: more) (hd : d ≠ 's') :
    ∃ c rest, s = c :: rest ∧ c.toLower = d := by
  rw [isWord, beq_iff_eq, hw] at h
  obtain ⟨c, rest, rfl, hc, -⟩ := List.map_eq_cons_iff.1 h
  exact ⟨c, rest, rfl, toLower_of_caseless hc hd⟩

/-- A text is typed as a flag, in which case its first letter tells which, or as a number, in which case
it looks like a measurement, or stays a text. -/
theorem valueOf_cases (s : List Char) :
    (valueOf s = .bool true ∧ ∃ c rest, s = c :: rest ∧ c.toLower = 'y') ∨
      (valueOf s = .bool false ∧ ∃ c rest, s = c :: rest ∧ c.toLower = 'n') ∨
      (looksMeasured s = true ∧ ∃ x, valueOf s = .number x) ∨
      valueOf s = .text (String.ofList s) := by
  unfold valueOf
  split
  · rename_i hyes
    refine .inl ⟨rfl, ?_⟩
    rcases Bool.or_eq_true_iff.1 hyes with h | h
    · exact head_of_isWord h rfl (by decide)
    · exact head_of_isWord h rfl (by decide)
  · split
    · rename_i hno
      refine .inr (.inl ⟨rfl, ?_⟩)
      rcases Bool.or_eq_true_iff.1 hno with h | h
      · exact head_of_isWord h rfl (by decide)
      · exact head_of_isWord h rfl (by decide)
    · refine .inr (.inr ?_)
      dsimp only
      split
      · rename_i hm
        split
        · exact .inl ⟨hm, _, rfl⟩
        · exact .inr rfl
      · exact .inr rfl

private theorem valueOf_eq_number_iff {s : List Char} (h : looksMeasured s = true) (x : Float) :
    valueOf s = .number x ↔ Measurement.read (String.ofList s) = .ok x := by
  obtain ⟨c, hc, hdigit⟩ := exists_isDigit_of_looksMeasured h
  have hcaseless : caseless c = c := by
    have hl := toNat_toLower c
    have hcode := (isDigit_iff c).1 hdigit
    rw [if_neg (by omega)] at hl
    rw [caseless, if_neg, Char.toNat_inj.1 hl]
    rintro rfl
    cases hdigit
  have hword : ∀ word : String, (word.toList.all fun d => !d.isDigit) = true → isWord word s = false := by
    intro word hw
    rw [← Bool.not_eq_true, isWord, beq_iff_eq]
    intro heq
    have hmem : c ∈ word.toList := by
      rw [← heq, ← hcaseless]
      exact List.mem_map_of_mem hc
    have hno := List.all_eq_true.1 hw c hmem
    rw [hdigit] at hno
    cases hno
  simp only [valueOf, hword "yes" (by decide), hword "y" (by decide), hword "no" (by decide),
    hword "n" (by decide), h, Bool.or_self, Bool.false_eq_true, if_false, if_true]
  cases Measurement.read (String.ofList s) with
  | ok inches => simp
  | error e => simp

/-- A trimmed text is typed as a number exactly if that is what it measures and it is not a number
already, and otherwise as a flag or as the text that it is. -/
theorem valueOf_typed {text : String} (ht : trimString text = text) :
    (∀ x, valueOf text.toList = .number x ↔
        Measurement.read text = .ok x ∧ ¬IsPlainNumber text.toList) ∧
      ((∀ x, valueOf text.toList ≠ .number x) →
        (∃ on, valueOf text.toList = .bool on) ∨ valueOf text.toList = .text text) := by
  have htrim := toList_trimmed ht
  have hcases := valueOf_cases text.toList
  rw [String.ofList_toList] at hcases
  constructor
  · intro x
    constructor
    · intro hx
      have hm : looksMeasured text.toList = true := by
        rw [hx] at hcases
        simpa using hcases
      rw [valueOf_eq_number_iff hm, String.ofList_toList] at hx
      refine ⟨hx, fun hplain => ?_⟩
      rw [looksMeasured_of_isPlainNumber hplain] at hm
      cases hm
    · intro h
      have hm := looksMeasured_of_read htrim h.1 h.2
      rw [valueOf_eq_number_iff hm, String.ofList_toList]
      exact h.1
  · intro hno
    rcases hcases with ⟨hyes, -⟩ | ⟨hno', -⟩ | ⟨-, x, hx⟩ | htext
    · exact .inl ⟨true, hyes⟩
    · exact .inl ⟨false, hno'⟩
    · exact absurd hx (hno x)
    · exact .inr htext

/-- Feet with capital letters, inches, and a fraction with the inch sign. -/
theorem valueOf_typed_mixed :
    let text := "7 FT 10 In 5/8\""
    trimString text = text ∧ Measurement.read text = .ok 94.625 ∧ ¬IsPlainNumber text.toList ∧
      valueOf text.toList = .number 94.625 := by
  intro text
  have ht : trimString text = text := by decide +kernel
  have hread : Measurement.read text = .ok 94.625 := by decide +kernel
  have hplain : ¬IsPlainNumber text.toList := by
    intro h
    have hall := h.isDigit_or_point 'F' (by decide)
    revert hall
    decide
  exact ⟨ht, hread, hplain, ((valueOf_typed ht).1 94.625).2 ⟨hread, hplain⟩⟩

end Note
end Millwork
