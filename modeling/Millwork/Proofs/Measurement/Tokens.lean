import Millwork.Measurement
import Millwork.Proofs.Decimal.Longest
import Millwork.Proofs.Text.Pattern
/-!
# Tokens of a measurement

What the tokens of a measurement look like: a run of digits, blanks and a unit, or two runs of digits with
a slash between them and a unit of inches. A token starts with a digit and its unit has none, so a search
passes over all that has no digits and over every run of digits that is followed by something else.
-/
namespace Millwork.Measurement
open Text Decimal

structure IsRun (s : List Char) : Prop where
  digits : AllDigits s
  nonempty : s ≠ []

instance decidableIsRun (s : List Char) : Decidable (IsRun s) :=
  decidable_of_iff (s.all Char.isDigit = true ∧ s ≠ [])
    ⟨fun h => ⟨List.all_eq_true.1 h.1, h.2⟩, fun h => ⟨List.all_eq_true.2 h.digits, h.nonempty⟩⟩

instance decidableAllBlank (s : List Char) : Decidable (AllBlank s) :=
  decidable_of_iff (s.all isBlank = true) List.all_eq_true

def NoDigit (s : List Char) : Prop :=
  ∀ c ∈ s, c.isDigit = false

/-- A run of digits that this follows ends there. -/
def EndsRun (s : List Char) : Prop :=
  s.head?.any Char.isDigit = false

theorem NoDigit.endsRun_append {gap : List Char} (h : NoDigit gap) (hne : gap ≠ [])
    (rest : List Char) : EndsRun (gap ++ rest) := by
  obtain ⟨c, gap, rfl⟩ := List.exists_cons_of_ne_nil hne
  simpa [EndsRun] using h c List.mem_cons_self

theorem AllBlank.noDigit {blanks : List Char} (h : AllBlank blanks) : NoDigit blanks := by
  intro c hc
  cases hd : c.isDigit with
  | false => rfl
  | true =>
    have hblank := h c hc
    rw [isBlank_of_isDigit hd] at hblank
    cases hblank

theorem noDigit_append {a b : List Char} : NoDigit (a ++ b) ↔ NoDigit a ∧ NoDigit b :=
  List.forall_mem_append

theorem IsRun.of_suffix {s t : List Char} (h : IsRun s) (ht : t <:+ s) (hne : t ≠ []) : IsRun t :=
  ⟨fun c hc => h.digits c (ht.subset hc), hne⟩

theorem exists_run_or_endsRun (s : List Char) :
    (∃ run rest, IsRun run ∧ EndsRun rest ∧ s = run ++ rest) ∨ EndsRun s := by
  by_cases hne : digitsAtFront s = []
  · refine .inr ?_
    have hafter := head?_afterDigits s
    have hs := digitsAtFront_append_afterDigits s
    rw [hne, List.nil_append] at hs
    rwa [hs] at hafter
  · exact .inl ⟨_, _, ⟨allDigits_digitsAtFront s, hne⟩, head?_afterDigits s,
      (digitsAtFront_append_afterDigits s).symm⟩

def feetUnits : List (List Char) :=
  [['f', 't'], ['f', 'e', 'e', 't'], ['\'']]

/-- The units of inches as far as they are read: of `inch` the first two letters. -/
def inchMarks : List (List Char) :=
  [['i', 'n'], ['"']]

/-- One of the units, with blanks in front of it. -/
def IsMark (units : List (List Char)) (mark : List Char) : Prop :=
  ∃ blanks unit, AllBlank blanks ∧ unit ∈ units ∧ mark = blanks ++ unit

/-- A slash with blanks around it. -/
def IsSlash (mark : List Char) : Prop :=
  ∃ before after, AllBlank before ∧ AllBlank after ∧ mark = before ++ '/' :: after

private theorem skipBlanks_append_head {blanks : List Char} (hb : AllBlank blanks) {c : Char}
    (hc : isBlank c = false) (rest : List Char) : skipBlanks (blanks ++ c :: rest) = c :: rest := by
  rw [skipBlanks_append hb, skipBlanks_eq_self (by simpa using hc)]

theorem exists_skipBlanks (s : List Char) : ∃ blanks, AllBlank blanks ∧ s = blanks ++ skipBlanks s :=
  ⟨_, allBlank_takeWhile s, List.takeWhile_append_dropWhile.symm⟩

theorem feetMark_eq_some_iff {s rest : List Char} :
    feetMark s = some rest ↔ ∃ mark, IsMark feetUnits mark ∧ s = mark ++ rest := by
  constructor
  · intro h
    obtain ⟨blanks, hb, hs⟩ := exists_skipBlanks s
    unfold feetMark at h
    split at h
    · rename_i t ht
      cases h
      exact ⟨_, ⟨blanks, ['\''], hb, by decide, rfl⟩, by rw [hs, ht]; simp⟩
    · rename_i t ht
      cases h
      exact ⟨_, ⟨blanks, ['f', 't'], hb, by decide, rfl⟩, by rw [hs, ht]; simp⟩
    · rename_i t ht
      cases h
      exact ⟨_, ⟨blanks, ['f', 'e', 'e', 't'], hb, by decide, rfl⟩, by rw [hs, ht]; simp⟩
    · cases h
  · rintro ⟨_, ⟨blanks, unit, hb, hu, rfl⟩, rfl⟩
    simp only [feetUnits, List.mem_cons, List.not_mem_nil, or_false] at hu
    rw [List.append_assoc]
    rcases hu with rfl | rfl | rfl
    · simp [feetMark, skipBlanks_append_head hb (c := 'f') rfl]
    · simp [feetMark, skipBlanks_append_head hb (c := 'f') rfl]
    · simp [feetMark, skipBlanks_append_head hb (c := '\'') rfl]

theorem inchMark_eq_some_iff {s rest : List Char} :
    inchMark s = some rest ↔ ∃ mark, IsMark inchMarks mark ∧ s = mark ++ rest := by
  constructor
  · intro h
    obtain ⟨blanks, hb, hs⟩ := exists_skipBlanks s
    unfold inchMark at h
    split at h
    · rename_i t ht
      cases h
      exact ⟨_, ⟨blanks, ['"'], hb, by decide, rfl⟩, by rw [hs, ht]; simp⟩
    · rename_i t ht
      cases h
      exact ⟨_, ⟨blanks, ['i', 'n'], hb, by decide, rfl⟩, by rw [hs, ht]; simp⟩
    · cases h
  · rintro ⟨_, ⟨blanks, unit, hb, hu, rfl⟩, rfl⟩
    simp only [inchMarks, List.mem_cons, List.not_mem_nil, or_false] at hu
    rw [List.append_assoc]
    rcases hu with rfl | rfl
    · simp [inchMark, skipBlanks_append_head hb (c := 'i') rfl]
    · simp [inchMark, skipBlanks_append_head hb (c := '"') rfl]

theorem exists_of_slash {s rest : List Char} (h : slash s = some rest) :
    ∃ mark, IsSlash mark ∧ s = mark ++ rest := by
  obtain ⟨before, hb, hs⟩ := exists_skipBlanks s
  unfold slash at h
  split at h
  · rename_i t ht
    obtain ⟨after, ha, hafter⟩ := exists_skipBlanks t
    cases h
    refine ⟨_, ⟨before, after, hb, ha, rfl⟩, ?_⟩
    rw [List.append_assoc, List.cons_append, ← hafter, ← ht, ← hs]
  · cases h

private theorem slash_append {mark rest : List Char} (h : IsSlash mark)
    (hr : rest.head?.any isBlank = false) : slash (mark ++ rest) = some rest := by
  obtain ⟨before, after, hb, ha, rfl⟩ := h
  have hskip : skipBlanks (after ++ rest) = rest := by
    rw [skipBlanks_append ha, skipBlanks_eq_self hr]
  simp [slash, skipBlanks_append_head hb (c := '/') rfl, hskip]

-- What one kind of mark starts with is not what another one starts with.
theorem feetMark_eq_none {mark : List Char} (h : IsMark inchMarks mark ∨ IsSlash mark)
    (rest : List Char) : feetMark (mark ++ rest) = none := by
  rcases h with ⟨blanks, unit, hb, hu, rfl⟩ | ⟨before, after, hb, -, rfl⟩
  · simp only [inchMarks, List.mem_cons, List.not_mem_nil, or_false] at hu
    rcases hu with rfl | rfl
    · simp [feetMark, skipBlanks_append_head hb (c := 'i') rfl]
    · simp [feetMark, skipBlanks_append_head hb (c := '"') rfl]
  · simp [feetMark, skipBlanks_append_head hb (c := '/') rfl]

theorem slash_eq_none {mark : List Char} (h : IsMark inchMarks mark ∨ IsMark feetUnits mark)
    (rest : List Char) : slash (mark ++ rest) = none := by
  rcases h with ⟨blanks, unit, hb, hu, rfl⟩ | ⟨blanks, unit, hb, hu, rfl⟩
  · simp only [inchMarks, List.mem_cons, List.not_mem_nil, or_false] at hu
    rcases hu with rfl | rfl
    · simp [slash, skipBlanks_append_head hb (c := 'i') rfl]
    · simp [slash, skipBlanks_append_head hb (c := '"') rfl]
  · simp only [feetUnits, List.mem_cons, List.not_mem_nil, or_false] at hu
    rcases hu with rfl | rfl | rfl
    · simp [slash, skipBlanks_append_head hb (c := 'f') rfl]
    · simp [slash, skipBlanks_append_head hb (c := 'f') rfl]
    · simp [slash, skipBlanks_append_head hb (c := '\'') rfl]

-- No mark has a digit in it.
theorem IsMark.ne_nil {units : List (List Char)} {mark : List Char} (h : IsMark units mark)
    (hu : [] ∉ units) : mark ≠ [] := by
  obtain ⟨blanks, unit, -, hmem, rfl⟩ := h
  rintro hnil
  rw [(List.append_eq_nil_iff.1 hnil).2] at hmem
  exact hu hmem

theorem IsMark.noDigit {units : List (List Char)} {mark : List Char} (h : IsMark units mark)
    (hu : ∀ unit ∈ units, unit.all (!·.isDigit) = true) : NoDigit mark := by
  obtain ⟨blanks, unit, hb, hmem, rfl⟩ := h
  refine noDigit_append.2 ⟨AllBlank.noDigit hb, ?_⟩
  intro c hc
  simpa using List.all_eq_true.1 (hu unit hmem) c hc

theorem IsMark.endsRun_feet {mark : List Char} (h : IsMark feetUnits mark) (rest : List Char) :
    EndsRun (mark ++ rest) :=
  (h.noDigit (by decide)).endsRun_append (h.ne_nil (by decide)) rest

theorem IsMark.endsRun_inches {mark : List Char} (h : IsMark inchMarks mark) (rest : List Char) :
    EndsRun (mark ++ rest) :=
  (h.noDigit (by decide)).endsRun_append (h.ne_nil (by decide)) rest

theorem IsSlash.noDigit {mark : List Char} (h : IsSlash mark) : NoDigit mark := by
  obtain ⟨before, after, hb, ha, rfl⟩ := h
  refine noDigit_append.2 ⟨AllBlank.noDigit hb, ?_⟩
  intro c hc
  rcases List.mem_cons.1 hc with rfl | hmem
  · rfl
  · exact AllBlank.noDigit ha c hmem

theorem IsSlash.endsRun {mark : List Char} (h : IsSlash mark) (rest : List Char) :
    EndsRun (mark ++ rest) := by
  refine h.noDigit.endsRun_append ?_ rest
  obtain ⟨before, after, -, -, rfl⟩ := h
  simp

section Reading
variable {run rest : List Char}

theorem read_run (h : IsRun run) (hr : EndsRun rest) : digits.read (run ++ rest) = some (run, rest) := by
  obtain ⟨hfront, hafter⟩ := span_digits h.digits hr
  have hne : (digitsAtFront (run ++ rest)).isEmpty = false := by
    simpa [hfront] using h.nonempty
  simp [digits, hfront, hafter, h.nonempty]

theorem read_endsRun (hr : EndsRun rest) : digits.read rest = none := by
  have hfront := (span_digits (List.forall_mem_nil _) hr).1
  rw [List.nil_append] at hfront
  simp [digits, hfront]

theorem feet_read_run (h : IsRun run) (hr : EndsRun rest) :
    feet.read (run ++ rest) = (feetMark rest).map (ofDigits run, ·) := by
  simp [feet, Pattern.map, Pattern.followedBy, read_run h hr, Option.map_map, Function.comp_def]

theorem inches_read_run (h : IsRun run) (hr : EndsRun rest) :
    inches.read (run ++ rest) = (inchMark rest).map (ofDigits run, ·) := by
  simp [inches, Pattern.map, Pattern.followedBy, read_run h hr, Option.map_map, Function.comp_def]

theorem fraction_read_run (h : IsRun run) (hr : EndsRun rest) :
    fraction.read (run ++ rest) = (slash rest).bind fun t =>
      (inches.read t).map fun found => ((ofDigits run, found.1), found.2) := by
  simp [fraction, Pattern.pair, Pattern.map, Pattern.followedBy, read_run h hr, Option.bind_map,
    Function.comp_def]

def StartsWithDigit {α : Type} (p : Pattern α) : Prop :=
  ∀ s, EndsRun s → p.read s = none

theorem feet_startsWithDigit : StartsWithDigit feet := by
  intro s hs
  simp [feet, Pattern.map, Pattern.followedBy, read_endsRun hs]

theorem inches_startsWithDigit : StartsWithDigit inches := by
  intro s hs
  simp [inches, Pattern.map, Pattern.followedBy, read_endsRun hs]

theorem fraction_startsWithDigit : StartsWithDigit fraction := by
  intro s hs
  simp [fraction, Pattern.pair, Pattern.map, Pattern.followedBy, read_endsRun hs]

/-- A feet token is a run of digits with a unit of feet. -/
theorem feet_read_eq_some_iff {s : List Char} {n : Nat} : feet.read s = some (n, rest) ↔
    ∃ run mark, IsRun run ∧ IsMark feetUnits mark ∧ s = run ++ (mark ++ rest) ∧ n = ofDigits run := by
  constructor
  · intro h
    rcases exists_run_or_endsRun s with ⟨run, t, hr, ht, rfl⟩ | hs
    · rw [feet_read_run hr ht] at h
      obtain ⟨after, hm, he⟩ := Option.map_eq_some_iff.1 h
      cases he
      obtain ⟨mark, hmark, rfl⟩ := feetMark_eq_some_iff.1 hm
      exact ⟨run, mark, hr, hmark, rfl, rfl⟩
    · rw [feet_startsWithDigit s hs] at h
      cases h
  · rintro ⟨run, mark, hr, hm, rfl, rfl⟩
    rw [feet_read_run hr (hm.endsRun_feet rest), feetMark_eq_some_iff.2 ⟨mark, hm, rfl⟩]
    rfl

theorem inches_read_eq_some_iff {s : List Char} {n : Nat} : inches.read s = some (n, rest) ↔
    ∃ run mark, IsRun run ∧ IsMark inchMarks mark ∧ s = run ++ (mark ++ rest) ∧ n = ofDigits run := by
  constructor
  · intro h
    rcases exists_run_or_endsRun s with ⟨run, t, hr, ht, rfl⟩ | hs
    · rw [inches_read_run hr ht] at h
      obtain ⟨after, hm, he⟩ := Option.map_eq_some_iff.1 h
      cases he
      obtain ⟨mark, hmark, rfl⟩ := inchMark_eq_some_iff.1 hm
      exact ⟨run, mark, hr, hmark, rfl, rfl⟩
    · rw [inches_startsWithDigit s hs] at h
      cases h
  · rintro ⟨run, mark, hr, hm, rfl, rfl⟩
    rw [inches_read_run hr (hm.endsRun_inches rest), inchMark_eq_some_iff.2 ⟨mark, hm, rfl⟩]
    rfl

theorem IsRun.head?_isBlank (h : IsRun run) (rest : List Char) :
    (run ++ rest).head?.any isBlank = false := by
  obtain ⟨c, run, rfl⟩ := List.exists_cons_of_ne_nil h.nonempty
  have hc := h.digits c List.mem_cons_self
  simpa using isBlank_of_isDigit hc

/-- A fraction is a run of digits, a slash, and inches. -/
theorem fraction_read_eq_some_iff {s : List Char} {n d : Nat} :
    fraction.read s = some ((n, d), rest) ↔
      ∃ run bar t, IsRun run ∧ IsSlash bar ∧ inches.read t = some (d, rest) ∧
        s = run ++ (bar ++ t) ∧ n = ofDigits run := by
  constructor
  · intro h
    rcases exists_run_or_endsRun s with ⟨run, u, hr, hu, rfl⟩ | hs
    · rw [fraction_read_run hr hu] at h
      obtain ⟨t, hslash, hmap⟩ := Option.bind_eq_some_iff.1 h
      obtain ⟨found, hf, he⟩ := Option.map_eq_some_iff.1 hmap
      cases he
      obtain ⟨bar, hbar, rfl⟩ := exists_of_slash hslash
      exact ⟨run, bar, t, hr, hbar, hf, rfl, rfl⟩
    · rw [fraction_startsWithDigit s hs] at h
      cases h
  · rintro ⟨run, bar, t, hr, hbar, ht, rfl, rfl⟩
    obtain ⟨den, mark, hden, -, rfl, rfl⟩ := inches_read_eq_some_iff.1 ht
    rw [fraction_read_run hr (hbar.endsRun _), slash_append hbar (hden.head?_isBlank _)]
    simp [ht]

private theorem inches_leavesEnd : inches.LeavesEnd := by
  intro s n rest h
  obtain ⟨run, mark, -, -, rfl, -⟩ := inches_read_eq_some_iff.1 h
  exact (List.suffix_append mark rest).trans (List.suffix_append run _)

theorem fraction_leavesEnd : fraction.LeavesEnd := by
  rintro s ⟨n, d⟩ rest h
  obtain ⟨run, bar, t, -, -, ht, rfl, -⟩ := fraction_read_eq_some_iff.1 h
  exact (inches_leavesEnd _ _ _ ht).trans
    ((List.suffix_append bar t).trans (List.suffix_append run _))

theorem StartsWithDigit.passes_gap {α : Type} {p : Pattern α} (hp : StartsWithDigit p)
    {gap : List Char} (hg : NoDigit gap) (s : List Char) : p.Passes gap s := by
  intro t ht hne
  have hno : NoDigit t := fun c hc => hg c (ht.subset hc)
  exact hp _ (hno.endsRun_append hne s)

theorem passes_run {α : Type} {p : Pattern α} {s : List Char}
    (h : ∀ run, IsRun run → p.read (run ++ s) = none) (hr : IsRun run) : p.Passes run s := by
  intro t ht hne
  exact h t (hr.of_suffix ht hne)

end Reading

end Millwork.Measurement
