import Millwork.Proofs.Measurement.Tokens
import Millwork.Proofs.Text.Lower.Blank
/-!
# Outcomes of reading a measurement

Which texts are measurements, and what is wrong with the others. All that matters is whether certain
pieces stand somewhere in the text: a digit with a unit behind it, or a fraction of inches over zero.
-/
namespace Millwork.Measurement
open Text Decimal

/-- The units of inches as they are written. -/
def inchUnits : List (List Char) :=
  [['i', 'n'], ['i', 'n', 'c', 'h'], ['"']]

/-- Somewhere a digit has one of the units behind it. -/
def HasUnit (units : List (List Char)) (s : List Char) : Prop :=
  ∃ before c mark after, s = before ++ c :: (mark ++ after) ∧ c.isDigit = true ∧ IsMark units mark

/-- Somewhere a run of digits stands over zeros, with a unit of inches behind them. -/
def HasZeroFraction (s : List Char) : Prop :=
  ∃ before run bar zeros mark after,
    s = before ++ (run ++ (bar ++ (zeros ++ (mark ++ after)))) ∧ IsRun run ∧ IsSlash bar ∧
      IsRun zeros ∧ (∀ c ∈ zeros, c = '0') ∧ IsMark inchMarks mark

/-- Digits, perhaps with a point and more digits, and nothing else. -/
def IsPlainNumber (s : List Char) : Prop :=
  ∃ whole, IsRun whole ∧ (s = whole ∨ ∃ fraction, IsRun fraction ∧ s = whole ++ '.' :: fraction)

theorem IsMark.mono {units more : List (List Char)} (h : units ⊆ more) {mark : List Char}
    (hm : IsMark units mark) : IsMark more mark := by
  obtain ⟨blanks, unit, hb, hu, rfl⟩ := hm
  exact ⟨blanks, unit, hb, h hu, rfl⟩

theorem HasUnit.mono {units more : List (List Char)} (h : units ⊆ more) {s : List Char}
    (hs : HasUnit units s) : HasUnit more s := by
  obtain ⟨before, c, mark, after, rfl, hc, hm⟩ := hs
  exact ⟨before, c, mark, after, rfl, hc, hm.mono h⟩

theorem hasUnit_inchUnits_iff (s : List Char) : HasUnit inchUnits s ↔ HasUnit inchMarks s := by
  constructor
  · rintro ⟨before, c, mark, after, rfl, hc, blanks, unit, hb, hu, rfl⟩
    simp only [inchUnits, List.mem_cons, List.not_mem_nil, or_false] at hu
    rcases hu with rfl | rfl | rfl
    · exact ⟨before, c, _, after, rfl, hc, blanks, ['i', 'n'], hb, by decide, rfl⟩
    · exact ⟨before, c, blanks ++ ['i', 'n'], 'c' :: 'h' :: after, by simp, hc, blanks, ['i', 'n'],
        hb, by decide, rfl⟩
    · exact ⟨before, c, _, after, rfl, hc, blanks, ['"'], hb, by decide, rfl⟩
  · exact HasUnit.mono (by decide)

theorem hasUnit_append_iff (units more : List (List Char)) (s : List Char) :
    HasUnit (units ++ more) s ↔ HasUnit units s ∨ HasUnit more s := by
  constructor
  · rintro ⟨before, c, mark, after, rfl, hc, blanks, unit, hb, hu, rfl⟩
    rcases List.mem_append.1 hu with hu | hu
    · exact .inl ⟨before, c, _, after, rfl, hc, blanks, unit, hb, hu, rfl⟩
    · exact .inr ⟨before, c, _, after, rfl, hc, blanks, unit, hb, hu, rfl⟩
  · rintro (h | h)
    · exact h.mono (List.subset_append_left units more)
    · exact h.mono (List.subset_append_right units more)

theorem reads_nowhere_iff {α : Type} {p : Pattern α} {value : List Char → α} {units : List (List Char)}
    (hp : ∀ s a rest, p.read s = some (a, rest) ↔ ∃ run mark, IsRun run ∧ IsMark units mark ∧
      s = run ++ (mark ++ rest) ∧ a = value run) (s : List Char) :
    (∀ t, t <:+ s → p.read t = none) ↔ ¬HasUnit units s := by
  constructor
  · rintro hall ⟨before, c, mark, after, rfl, hc, hm⟩
    have hrun : IsRun [c] := ⟨by simpa [AllDigits] using hc, List.cons_ne_nil c []⟩
    have hread : p.read (c :: (mark ++ after)) = some (value [c], after) :=
      (hp _ _ _).2 ⟨[c], mark, hrun, hm, rfl, rfl⟩
    rw [hall _ (List.suffix_append before _)] at hread
    cases hread
  · intro hno t ht
    cases hread : p.read t with
    | none => rfl
    | some found =>
      obtain ⟨run, mark, hrun, hm, rfl, -⟩ := (hp _ _ _).1 hread
      obtain ⟨before, rfl⟩ := ht
      obtain ⟨init, c, rfl⟩ := (List.eq_nil_or_concat run).resolve_left hrun.nonempty
      refine absurd ⟨before ++ init, c, mark, found.2, by simp, ?_, hm⟩ hno
      exact hrun.digits c (by simp)

private theorem feet_tokens_eq_nil_iff (s : List Char) : feet.tokens s = [] ↔ ¬HasUnit feetUnits s :=
  Pattern.tokens_eq_nil_iff.trans (reads_nowhere_iff (fun _ _ _ => feet_read_eq_some_iff) s)

private theorem inches_cutFirst?_eq_none_iff (s : List Char) :
    inches.cutFirst? s = none ↔ ¬HasUnit inchMarks s :=
  Pattern.cutFirst?_eq_none_iff.trans (reads_nowhere_iff (fun _ _ _ => inches_read_eq_some_iff) s)

private theorem fraction_tokens_eq_nil {s : List Char} (h : ¬HasUnit inchMarks s) :
    fraction.tokens s = [] := by
  have hinches := (reads_nowhere_iff (fun _ _ _ => inches_read_eq_some_iff) s).2 h
  rw [Pattern.tokens_eq_nil_iff]
  intro t ht
  cases hread : fraction.read t with
  | none => rfl
  | some found =>
    obtain ⟨run, bar, u, -, -, hu, rfl, -⟩ := fraction_read_eq_some_iff.1 hread
    have hsuffix : u <:+ s :=
      ((List.suffix_append bar u).trans (List.suffix_append run _)).trans ht
    rw [hinches u hsuffix] at hu
    cases hu

theorem ofDigits_eq_zero_iff {s : List Char} (h : AllDigits s) :
    ofDigits s = 0 ↔ ∀ c ∈ s, c = '0' := by
  induction s with
  | nil => simp [ofDigits]
  | cons c s ih =>
    have hs : AllDigits s := fun d hd => h d (List.mem_cons_of_mem c hd)
    have hc := (isDigit_iff c).1 (h c List.mem_cons_self)
    have hzero : c.toNat - '0'.toNat = 0 ↔ c = '0' := by
      rw [← Char.toNat_inj]
      show c.toNat - 48 = 0 ↔ c.toNat = 48
      omega
    have hten : 10 ^ s.length ≠ 0 := (Nat.pow_pos (by decide)).ne'
    rw [ofDigits] at ih
    rw [ofDigits, Nat.ofDigitChars_cons, Nat.ofDigitChars_eq_ofDigitChars_zero, Nat.add_eq_zero_iff,
      Nat.mul_eq_zero, or_iff_right hten, Nat.mul_zero, Nat.zero_add, hzero, ih hs,
      List.forall_mem_cons]

-- What starts with a digit starts behind a gap without digits, or in the middle of a run.
theorem exists_behind_gap {x t gap rest : List Char} (hg : NoDigit gap) (ht : ¬EndsRun t)
    (h : x ++ t = gap ++ rest) : ∃ y, y ++ t = rest := by
  rcases List.append_eq_append_iff.1 h with ⟨a, rfl, rfl⟩ | ⟨y, -, rfl⟩
  · cases a with
    | nil => exact ⟨[], rfl⟩
    | cons c a =>
      have hno : NoDigit (c :: a) := (noDigit_append.1 hg).2
      exact absurd (hno.endsRun_append (List.cons_ne_nil c a) rest) ht
  · exact ⟨y, rfl⟩

private theorem exists_behind_run {x t run rest : List Char} (hr : IsRun run)
    (h : x ++ t = run ++ rest) :
    (∃ r, IsRun r ∧ t = r ++ rest) ∨ ∃ y, y ++ t = rest := by
  rcases List.append_eq_append_iff.1 h with ⟨a, rfl, rfl⟩ | ⟨y, -, rfl⟩
  · by_cases hne : a = []
    · exact .inr ⟨[], by rw [hne, List.nil_append, List.nil_append]⟩
    · exact .inl ⟨a, hr.of_suffix (List.suffix_append x a) hne, rfl⟩
  · exact .inr ⟨y, rfl⟩

private theorem fraction_crossed {x t rest behind : List Char} {n d n' d' : Nat}
    (h : fraction.read t = some ((n, d), rest))
    (hx : fraction.read (x ++ t) = some ((n', d'), behind)) (hlt : behind.length < t.length) :
    n ≤ n' ∧ d' = d := by
  have ht : ¬EndsRun t := by
    intro hends
    rw [fraction_startsWithDigit t hends] at h
    cases h
  obtain ⟨run, bar, u, hrun, hbar, hu, hs, rfl⟩ := fraction_read_eq_some_iff.1 hx
  rcases exists_behind_run hrun hs with ⟨r, hr, rfl⟩ | ⟨y, hy⟩
  · rw [fraction_read_eq_some_iff.2 ⟨r, bar, u, hr, hbar, hu, rfl, rfl⟩] at h
    cases h
    rw [← List.append_assoc, List.append_cancel_right_eq] at hs
    rw [← hs, ofDigits_append]
    exact ⟨Nat.le_add_left _ _, rfl⟩
  · obtain ⟨z, hz⟩ := exists_behind_gap hbar.noDigit ht hy
    obtain ⟨den, mark, hden, hm, rfl, -⟩ := inches_read_eq_some_iff.1 hu
    rcases exists_behind_run hden hz with ⟨r, hr, rfl⟩ | ⟨y, hy⟩
    · rw [fraction_read_run hr (hm.endsRun_inches behind), slash_eq_none (.inl hm)] at h
      cases h
    · obtain ⟨z, rfl⟩ := exists_behind_gap (hm.noDigit (by decide)) ht hy
      simp only [List.length_append] at hlt
      omega

/-- Somewhere two runs of digits with a slash between them and a unit of inches behind them have the
property. -/
def HasFraction (p : List Char → List Char → Prop) (s : List Char) : Prop :=
  ∃ before numerator bar denominator mark after,
    s = before ++ (numerator ++ (bar ++ (denominator ++ (mark ++ after)))) ∧ IsRun numerator ∧
      IsSlash bar ∧ IsRun denominator ∧ p numerator denominator ∧ IsMark inchMarks mark

theorem exists_mem_tokens_iff {p : Nat → Nat → Prop} (hp : ∀ {n n' d}, n ≤ n' → p n d → p n' d)
    (s : List Char) : (∃ f ∈ fraction.tokens s, p f.1 f.2) ↔
      HasFraction (fun n d => p (ofDigits n) (ofDigits d)) s := by
  constructor
  · rintro ⟨⟨n, d⟩, hmem, hnd⟩
    obtain ⟨t, rest, ht, hread⟩ := fraction_leavesEnd.exists_read hmem
    obtain ⟨run, bar, u, hrun, hbar, hu, rfl, rfl⟩ := fraction_read_eq_some_iff.1 hread
    obtain ⟨den, mark, hden, hm, rfl, rfl⟩ := inches_read_eq_some_iff.1 hu
    obtain ⟨before, rfl⟩ := ht
    exact ⟨before, run, bar, den, mark, rest, rfl, hrun, hbar, hden, hnd, hm⟩
  · rintro ⟨before, run, bar, den, mark, after, rfl, hrun, hbar, hden, hnd, hm⟩
    have hread : fraction.read (run ++ (bar ++ (den ++ (mark ++ after)))) =
        some ((ofDigits run, ofDigits den), after) := by
      refine fraction_read_eq_some_iff.2 ⟨run, bar, _, hrun, hbar, ?_, rfl, rfl⟩
      exact inches_read_eq_some_iff.2 ⟨den, mark, hden, hm, rfl, rfl⟩
    rcases fraction_leavesEnd.mem_or_crossed (List.suffix_append before _) hread with
      hmem | ⟨x, ⟨n, d⟩, behind, -, hx, hlt, hmem⟩
    · exact ⟨_, hmem, hnd⟩
    · obtain ⟨hle, rfl⟩ := fraction_crossed hread hx hlt
      exact ⟨_, hmem, hp hle hnd⟩

private theorem zero_mem_tokens_iff (s : List Char) :
    (∃ n, (n, 0) ∈ fraction.tokens s) ↔ HasZeroFraction s := by
  have hpair : (∃ n, (n, 0) ∈ fraction.tokens s) ↔ ∃ f ∈ fraction.tokens s, f.2 = 0 := by
    simp
  refine hpair.trans ((exists_mem_tokens_iff (p := fun _ d => d = 0) (fun _ => id) s).trans ?_)
  constructor
  · rintro ⟨before, run, bar, zeros, mark, after, rfl, hrun, hbar, hzeros, hzero, hm⟩
    exact ⟨before, run, bar, zeros, mark, after, rfl, hrun, hbar, hzeros,
      (ofDigits_eq_zero_iff hzeros.digits).1 hzero, hm⟩
  · rintro ⟨before, run, bar, zeros, mark, after, rfl, hrun, hbar, hzeros, hzero, hm⟩
    exact ⟨before, run, bar, zeros, mark, after, rfl, hrun, hbar, hzeros,
      (ofDigits_eq_zero_iff hzeros.digits).2 hzero, hm⟩

theorem isPlainNumber_iff (s : List Char) :
    (plainNumber? s).isSome = true ↔ IsPlainNumber (trim s) := by
  constructor
  · intro h
    unfold plainNumber? at h
    split at h
    · rename_i l hread
      obtain ⟨hw, hs, -⟩ := (Literal.read?_eq_some_iff _ _ _).1 hread
      split at h
      · rename_i hplain
        obtain ⟨whole, point, fraction, exponent⟩ := l
        simp only [isPlain, Bool.and_eq_true, Bool.or_eq_true, Bool.not_eq_true',
          List.isEmpty_eq_false_iff, Option.isNone_iff_eq_none] at hplain
        obtain ⟨⟨hne, hfraction⟩, rfl⟩ := hplain
        refine ⟨whole, ⟨hw.whole, hne⟩, ?_⟩
        cases point with
        | false => exact .inl (by simpa [Literal.spelling] using hs)
        | true =>
          refine .inr ⟨fraction, ⟨hw.fraction, by simpa using hfraction⟩, ?_⟩
          simpa [Literal.spelling] using hs
      · cases h
    · cases h
  · have hnone : ∀ e : Exponent, none = some e → e.WellFormed := by
      intro e he
      cases he
    rintro ⟨whole, hw, hs | ⟨fraction, hf, hs⟩⟩
    · have hl : Literal.WellFormed ⟨whole, false, [], none⟩ :=
        ⟨hw.digits, List.forall_mem_nil _, fun _ => rfl, .inl hw.nonempty, hnone⟩
      have hread := Literal.read?_spelling hl ends_nil
      simp only [Literal.spelling, Bool.false_eq_true, if_false, List.append_nil, Option.map_none,
        Option.getD_none] at hread
      simp [plainNumber?, hs, hread, isPlain, hw.nonempty]
    · have hl : Literal.WellFormed ⟨whole, true, fraction, none⟩ :=
        ⟨hw.digits, hf.digits, fun hp => absurd hp.symm Bool.false_ne_true, .inl hw.nonempty, hnone⟩
      have hread := Literal.read?_spelling hl ends_nil
      simp only [Literal.spelling, if_true, List.append_nil, Option.map_none,
        Option.getD_none] at hread
      simp [plainNumber?, hs, hread, isPlain, hw.nonempty, hf.nonempty]

theorem parts_eq_nil_iff (s : List Char) :
    parts s = [] ↔ ¬HasUnit (feetUnits ++ inchUnits) s ∧ ¬IsPlainNumber (trim s) := by
  have hplain : plainNumber? s = none ↔ ¬IsPlainNumber (trim s) := by
    rw [← isPlainNumber_iff, Bool.not_eq_true, Option.isSome_eq_false_iff, Option.isNone_iff_eq_none]
  rw [hasUnit_append_iff, hasUnit_inchUnits_iff, not_or, ← feet_tokens_eq_nil_iff,
    ← inches_cutFirst?_eq_none_iff, ← hplain, parts]
  constructor
  · intro h
    simp only [List.append_eq_nil_iff, Option.toList_eq_nil_iff, Option.map_eq_none_iff,
      List.head?_eq_none_iff, List.map_eq_nil_iff] at h
    obtain ⟨⟨⟨hfeet, hfraction⟩, hinches⟩, hlast⟩ := h
    rw [Pattern.without_of_tokens_eq_nil hfeet, Pattern.without_of_tokens_eq_nil hfraction] at hinches hlast
    rw [hinches] at hlast
    exact ⟨⟨hfeet, hinches⟩, hlast⟩
  · rintro ⟨⟨hfeet, hinches⟩, hnone⟩
    have hfraction := fraction_tokens_eq_nil ((inches_cutFirst?_eq_none_iff s).1 hinches)
    simp [hfeet, hfraction, Pattern.without_of_tokens_eq_nil hfeet,
      Pattern.without_of_tokens_eq_nil hfraction, hinches, hnone]

private theorem HasZeroFraction.hasUnit {s : List Char} (h : HasZeroFraction s) :
    HasUnit (feetUnits ++ inchUnits) s := by
  obtain ⟨before, run, bar, zeros, mark, after, rfl, -, -, hzeros, -, hm⟩ := h
  obtain ⟨init, c, rfl⟩ := (List.eq_nil_or_concat zeros).resolve_left hzeros.nonempty
  refine ⟨before ++ (run ++ (bar ++ init)), c, mark, after, by simp, ?_, hm.mono (by decide)⟩
  exact hzeros.digits c (by simp)

theorem HasUnit.ne_nil {units : List (List Char)} {s : List Char} (h : HasUnit units s) : s ≠ [] := by
  obtain ⟨before, c, mark, after, rfl, -⟩ := h
  simp

/-- What is read is the sum of the parts, if there are any and no fraction that is found is over zero. -/
theorem read_eq_ok_iff (text : String) (x : Float) :
    let s := lower (trim text.toList)
    read text = .ok x ↔
      (∀ f ∈ fraction.tokens s, f.2 ≠ 0) ∧ parts s ≠ [] ∧ x = (parts s).foldl (· + ·) 0.0 := by
  intro s
  have hread : read text = if s.isEmpty then .error .empty
      else if (fraction.tokens s).any (·.2 == 0) then .error (.zeroDenominator text)
      else if (parts s).isEmpty then .error (.unreadable text)
      else .ok ((parts s).foldl (· + ·) 0.0) := rfl
  have hzero : (fraction.tokens s).any (·.2 == 0) = true ↔ ¬∀ f ∈ fraction.tokens s, f.2 ≠ 0 := by
    simp
  have hempty : parts [] = [] := by
    have hplain : plainNumber? [] = none := by decide
    simp [parts, Pattern.cutFirst?, hplain]
  rw [hread]
  by_cases hs : s = []
  · simp [hs, hempty]
  · rw [if_neg (by simpa using hs)]
    by_cases hz : ∀ f ∈ fraction.tokens s, f.2 ≠ 0
    · rw [if_neg (mt hzero.1 (not_not.2 hz))]
      by_cases hp : parts s = []
      · rw [if_pos (by simpa using hp)]
        exact ⟨fun h => (by cases h), fun h => absurd hp h.2.1⟩
      · rw [if_neg (by simpa using hp), Except.ok.injEq]
        exact ⟨fun h => ⟨hz, hp, h.symm⟩, fun h => h.2.2.symm⟩
    · rw [if_pos (hzero.2 hz)]
      exact ⟨fun h => (by cases h), fun h => absurd h.1 hz⟩

/-- The text of a measurement is trimmed and in small letters before it is searched. It is empty then, or
has a fraction over zero, or is no number and has no unit behind a digit, and these are the failures. -/
theorem read_outcome (text : String) :
    let s := lower (trim text.toList)
    (read text = .error .empty ↔ s = []) ∧
    (read text = .error (.zeroDenominator text) ↔ HasZeroFraction s) ∧
    (read text = .error (.unreadable text) ↔
      s ≠ [] ∧ ¬IsPlainNumber s ∧ ¬HasUnit (feetUnits ++ inchUnits) s) ∧
    ((∃ x, read text = .ok x) ↔ s ≠ [] ∧ ¬HasZeroFraction s ∧
      (IsPlainNumber s ∨ HasUnit (feetUnits ++ inchUnits) s)) := by
  intro s
  have hzero : (fraction.tokens s).any (·.2 == 0) = true ↔ HasZeroFraction s := by
    rw [← zero_mem_tokens_iff]
    simp
  have hparts : (parts s).isEmpty = true ↔
      ¬IsPlainNumber s ∧ ¬HasUnit (feetUnits ++ inchUnits) s := by
    have htrim : trim s = s := trim_lower_trim text.toList
    rw [List.isEmpty_iff, parts_eq_nil_iff, htrim, and_comm]
  have hread : read text = if s.isEmpty then .error .empty
      else if (fraction.tokens s).any (·.2 == 0) then .error (.zeroDenominator text)
      else if (parts s).isEmpty then .error (.unreadable text)
      else .ok ((parts s).foldl (· + ·) 0.0) := rfl
  rw [hread]
  by_cases hs : s = []
  · have hz : ¬HasZeroFraction [] := fun h => h.hasUnit.ne_nil rfl
    simp [hs, hz]
  · by_cases hz : HasZeroFraction s
    · simp [hs, hzero.2 hz, hz, hz.hasUnit]
    · have hnone : ¬(fraction.tokens s).any (·.2 == 0) = true := mt hzero.1 hz
      by_cases hp : ¬IsPlainNumber s ∧ ¬HasUnit (feetUnits ++ inchUnits) s
      · simp [hs, hnone, hz, hparts.2 hp, hp]
      · have hsome : ¬(parts s).isEmpty = true := mt hparts.1 hp
        have hpiece : IsPlainNumber s ∨ HasUnit (feetUnits ++ inchUnits) s :=
          (not_and_or.1 hp).imp not_not.1 not_not.1
        simp [hs, hnone, hz, hsome, hp, hpiece]

end Millwork.Measurement
