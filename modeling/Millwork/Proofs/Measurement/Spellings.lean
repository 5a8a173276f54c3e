import Millwork.Proofs.Measurement.Units
import Millwork.Proofs.Text.Lower.Border
import Millwork.Proofs.Text.Pattern.Border
/-!
# Spellings of inches

The word `in` and the inch sign are read alike wherever they stand. Of the word `inch` only the first two
letters are read, and the other two stay in the text that is left over, where they keep apart what is on
their sides.
-/
namespace Millwork.Measurement
open Text Decimal

private def UnitToken (units : List (List Char)) (n : Nat) (token : List Char) : Prop :=
  ∃ run mark, IsRun run ∧ IsMark units mark ∧ token = run ++ mark ∧ n = ofDigits run

private def FractionToken (f : Nat × Nat) (token : List Char) : Prop :=
  ∃ run bar t, IsRun run ∧ IsSlash bar ∧ UnitToken inchMarks f.2 t ∧ token = run ++ (bar ++ t) ∧
    f.1 = ofDigits run

private theorem reads_unitToken {p : Pattern Nat} {units : List (List Char)}
    (hp : ∀ s n rest, p.read s = some (n, rest) ↔ ∃ run mark, IsRun run ∧ IsMark units mark ∧
      s = run ++ (mark ++ rest) ∧ n = ofDigits run) : p.Reads (UnitToken units) := by
  intro s n rest
  rw [hp]
  constructor
  · rintro ⟨run, mark, hr, hm, rfl, hn⟩
    exact ⟨_, ⟨run, mark, hr, hm, rfl, hn⟩, (List.append_assoc _ _ _).symm⟩
  · rintro ⟨_, ⟨run, mark, hr, hm, rfl, hn⟩, rfl⟩
    exact ⟨run, mark, hr, hm, List.append_assoc _ _ _, hn⟩

private theorem feet_reads : feet.Reads (UnitToken feetUnits) :=
  reads_unitToken fun _ _ _ => feet_read_eq_some_iff

private theorem inches_reads : inches.Reads (UnitToken inchMarks) :=
  reads_unitToken fun _ _ _ => inches_read_eq_some_iff

private theorem fraction_reads : fraction.Reads FractionToken := by
  rintro s ⟨n, d⟩ rest
  rw [fraction_read_eq_some_iff]
  constructor
  · rintro ⟨run, bar, t, hr, hbar, ht, rfl, hn⟩
    obtain ⟨token, htoken, rfl⟩ := (inches_reads _ _ _).1 ht
    exact ⟨_, ⟨run, bar, token, hr, hbar, htoken, rfl, hn⟩, by simp⟩
  · rintro ⟨_, ⟨run, bar, token, hr, hbar, htoken, rfl, hn⟩, rfl⟩
    exact ⟨run, bar, token ++ rest, hr, hbar, (inches_reads _ _ _).2 ⟨token, htoken, rfl⟩,
      by simp, hn⟩

private theorem exists_behind_of_not_mem {front rest x z : List Char} {c : Char} (hc : c ∉ front)
    (h : front ++ rest = x ++ c :: z) : ∃ w, x = front ++ w ∧ rest = w ++ c :: z := by
  rcases List.append_eq_append_iff.1 h with ⟨w, rfl, rfl⟩ | ⟨y, rfl, hy⟩
  · exact ⟨w, rfl, rfl⟩
  · cases y with
    | nil => exact ⟨[], by simp, by simpa using hy.symm⟩
    | cons d y =>
      obtain ⟨rfl, -⟩ := List.cons.inj hy
      exact absurd (by simp) hc

/-- Of the characters of a token these are only in its unit. -/
structure IsUnitChar (c : Char) : Prop where
  not_digit : c.isDigit = false
  not_blank : isBlank c = false
  not_slash : c ≠ '/'

namespace IsUnitChar
variable {c : Char} {x z : List Char}

private theorem not_mem_run (h : IsUnitChar c) {run : List Char} (hr : IsRun run) : c ∉ run := by
  intro hmem
  have hdigit := h.not_digit
  rw [hr.digits c hmem] at hdigit
  cases hdigit

private theorem not_mem_blanks (h : IsUnitChar c) {blanks : List Char} (hb : AllBlank blanks) :
    c ∉ blanks := by
  intro hmem
  have hblank := h.not_blank
  rw [hb c hmem] at hblank
  cases hblank

private theorem not_mem_slash (h : IsUnitChar c) {bar : List Char} (hb : IsSlash bar) : c ∉ bar := by
  obtain ⟨before, after, hbefore, hafter, rfl⟩ := hb
  rw [List.mem_append, List.mem_cons]
  rintro (hmem | hslash | hmem)
  · exact h.not_mem_blanks hbefore hmem
  · exact h.not_slash hslash
  · exact h.not_mem_blanks hafter hmem

private theorem exists_unit (h : IsUnitChar c) {units : List (List Char)} {n : Nat}
    (ht : UnitToken units n (x ++ c :: z)) :
    ∃ w, w ++ c :: z ∈ units ∧ ∀ other, w ++ other ∈ units → UnitToken units n (x ++ other) := by
  obtain ⟨run, mark, hr, ⟨blanks, unit, hb, hu, rfl⟩, htoken, hn⟩ := ht
  have hfront : c ∉ run ++ blanks :=
    List.not_mem_append (h.not_mem_run hr) (h.not_mem_blanks hb)
  rw [← List.append_assoc] at htoken
  obtain ⟨w, rfl, rfl⟩ := exists_behind_of_not_mem hfront htoken.symm
  refine ⟨w, hu, fun other hother => ?_⟩
  exact ⟨run, blanks ++ (w ++ other), hr, ⟨blanks, _, hb, hother, rfl⟩, by simp, hn⟩

private theorem exists_inches (h : IsUnitChar c) {f : Nat × Nat} (ht : FractionToken f (x ++ c :: z)) :
    ∃ w, UnitToken inchMarks f.2 (w ++ c :: z) ∧
      ∀ other, UnitToken inchMarks f.2 (w ++ other) → FractionToken f (x ++ other) := by
  obtain ⟨run, bar, t, hr, hbar, ht, htoken, hn⟩ := ht
  have hfront : c ∉ run ++ bar := List.not_mem_append (h.not_mem_run hr) (h.not_mem_slash hbar)
  rw [← List.append_assoc] at htoken
  obtain ⟨w, rfl, rfl⟩ := exists_behind_of_not_mem hfront htoken.symm
  exact ⟨w, ht, fun other hother => ⟨run, bar, w ++ other, hr, hbar, hother, by simp, hn⟩⟩

end IsUnitChar

/-- A pattern that starts with a digit, that takes the word `in` and the inch sign for each other, and that
reads nothing behind them and no other letter of `inch`. -/
structure SpellsAlike {α : Type} (p : Pattern α) (Token : α → List Char → Prop) : Prop where
  reads : p.Reads Token
  starts : StartsWithDigit p
  word_ends : Pattern.Ends Token 'i' ['n']
  letter_ends : Pattern.Ends Token 'n' []
  sign_ends : Pattern.Ends Token '"' []
  word_iff_sign : ∀ a x, Token a (x ++ ['i', 'n']) ↔ Token a (x ++ ['"'])
  not_mem : ∀ a token, Token a token → 'c' ∉ token

private theorem isUnitChar_i : IsUnitChar 'i' := ⟨rfl, by decide, by decide⟩

private theorem isUnitChar_n : IsUnitChar 'n' := ⟨rfl, by decide, by decide⟩

private theorem isUnitChar_sign : IsUnitChar '"' := ⟨rfl, by decide, by decide⟩

private theorem isUnitChar_c : IsUnitChar 'c' := ⟨rfl, by decide, by decide⟩

private theorem feet_not_mem {c : Char} (hc : IsUnitChar c) (hunits : ∀ unit ∈ feetUnits, c ∉ unit)
    (n : Nat) (token : List Char) (ht : UnitToken feetUnits n token) : c ∉ token := by
  intro hmem
  obtain ⟨x, z, rfl⟩ := List.append_of_mem hmem
  obtain ⟨w, hw, -⟩ := hc.exists_unit ht
  exact hunits _ hw (by simp)

private theorem feet_ends {c : Char} (hc : IsUnitChar c) (hunits : ∀ unit ∈ feetUnits, c ∉ unit)
    (tail : List Char) : Pattern.Ends (UnitToken feetUnits) c tail :=
  fun n _ _ ht => absurd (by simp) (feet_not_mem hc hunits n _ ht)

private theorem feet_spells : SpellsAlike feet (UnitToken feetUnits) where
  reads := feet_reads
  starts := feet_startsWithDigit
  word_ends := feet_ends isUnitChar_i (by decide) _
  letter_ends := feet_ends isUnitChar_n (by decide) _
  sign_ends := feet_ends isUnitChar_sign (by decide) _
  word_iff_sign n x := by
    have hi := feet_not_mem isUnitChar_i (by decide) n (x ++ ['i', 'n'])
    have hsign := feet_not_mem isUnitChar_sign (by decide) n (x ++ ['"'])
    exact iff_of_false (fun ht => hi ht (by simp)) fun ht => hsign ht (by simp)
  not_mem := feet_not_mem isUnitChar_c (by decide)

private theorem eq_of_mem_inchMarks {c : Char} {w z : List Char} (h : w ++ c :: z ∈ inchMarks) :
    (c = 'i' ∧ w = [] ∧ z = ['n']) ∨ (c = 'n' ∧ w = ['i'] ∧ z = []) ∨ (c = '"' ∧ w = [] ∧ z = []) := by
  rcases w with _ | ⟨d, _ | ⟨e, w⟩⟩
  · simp [inchMarks] at h
    tauto
  · simp [inchMarks] at h
    tauto
  · simp [inchMarks] at h

private theorem UnitToken.inches_cases {n : Nat} {c : Char} {x z : List Char} (hc : IsUnitChar c)
    (ht : UnitToken inchMarks n (x ++ c :: z)) :
    (c = 'i' ∧ z = ['n'] ∧ UnitToken inchMarks n (x ++ ['"'])) ∨ (c = 'n' ∧ z = []) ∨
      (c = '"' ∧ z = [] ∧ UnitToken inchMarks n (x ++ ['i', 'n'])) := by
  obtain ⟨w, hw, hother⟩ := hc.exists_unit ht
  rcases eq_of_mem_inchMarks hw with ⟨rfl, rfl, rfl⟩ | ⟨rfl, rfl, rfl⟩ | ⟨rfl, rfl, rfl⟩
  · exact .inl ⟨rfl, rfl, hother ['"'] (by decide)⟩
  · exact .inr (.inl ⟨rfl, rfl⟩)
  · exact .inr (.inr ⟨rfl, rfl, hother ['i', 'n'] (by decide)⟩)

private theorem inches_spells : SpellsAlike inches (UnitToken inchMarks) where
  reads := inches_reads
  starts := inches_startsWithDigit
  word_ends n x z ht := by
    have hcases : z = ['n'] ∧ UnitToken inchMarks n (x ++ ['"']) := by
      simpa using ht.inches_cases isUnitChar_i
    exact hcases.1
  letter_ends n x z ht := by
    simpa using ht.inches_cases isUnitChar_n
  sign_ends n x z ht := by
    have hcases : z = [] ∧ UnitToken inchMarks n (x ++ ['i', 'n']) := by
      simpa using ht.inches_cases isUnitChar_sign
    exact hcases.1
  word_iff_sign n x := by
    constructor
    · intro ht
      simpa using ht.inches_cases isUnitChar_i
    · intro ht
      simpa using ht.inches_cases isUnitChar_sign
  not_mem n token ht hmem := by
    obtain ⟨x, z, rfl⟩ := List.append_of_mem hmem
    simpa using ht.inches_cases isUnitChar_c

private theorem fraction_spells : SpellsAlike fraction FractionToken where
  reads := fraction_reads
  starts := fraction_startsWithDigit
  word_ends f x z ht := by
    obtain ⟨w, hinches, -⟩ := isUnitChar_i.exists_inches ht
    exact inches_spells.word_ends _ w z hinches
  letter_ends f x z ht := by
    obtain ⟨w, hinches, -⟩ := isUnitChar_n.exists_inches ht
    exact inches_spells.letter_ends _ w z hinches
  sign_ends f x z ht := by
    obtain ⟨w, hinches, -⟩ := isUnitChar_sign.exists_inches ht
    exact inches_spells.sign_ends _ w z hinches
  word_iff_sign f x := by
    constructor
    · intro ht
      obtain ⟨w, hinches, hother⟩ := isUnitChar_i.exists_inches ht
      exact hother _ ((inches_spells.word_iff_sign _ w).1 hinches)
    · intro ht
      obtain ⟨w, hinches, hother⟩ := isUnitChar_sign.exists_inches ht
      exact hother _ ((inches_spells.word_iff_sign _ w).2 hinches)
  not_mem f token ht hmem := by
    obtain ⟨x, z, rfl⟩ := List.append_of_mem hmem
    obtain ⟨w, hinches, -⟩ := isUnitChar_c.exists_inches ht
    exact inches_spells.not_mem _ _ hinches (by simp)

def Respelled (s t : List Char) : Prop :=
  s = t ∨ ∃ x y, s = x ++ 'i' :: 'n' :: y ∧ t = x ++ '"' :: y

theorem Respelled.cons {s t : List Char} (c : Char) (h : Respelled s t) :
    Respelled (c :: s) (c :: t) := by
  rcases h with rfl | ⟨x, y, rfl, rfl⟩
  · exact .inl rfl
  · exact .inr ⟨c :: x, y, rfl, rfl⟩

section Respelled
variable {α : Type} {p : Pattern α} {Token : α → List Char → Prop} {s t : List Char}

private theorem SpellsAlike.read_respelled (hp : SpellsAlike p Token) (x y : List Char) :
    (p.read (x ++ 'i' :: 'n' :: y) = none ∧ p.read (x ++ '"' :: y) = none) ∨
      ∃ a s t, p.read (x ++ 'i' :: 'n' :: y) = some (a, s) ∧ p.read (x ++ '"' :: y) = some (a, t) ∧
        Respelled s t := by
  have hword : ∀ {a rest}, p.read (x ++ 'i' :: 'n' :: y) = some (a, rest) ↔ _ :=
    hp.reads.read_ends hp.word_ends
  have hsign : ∀ {a rest}, p.read (x ++ '"' :: y) = some (a, rest) ↔ _ :=
    hp.reads.read_ends hp.sign_ends
  cases hs : p.read (x ++ 'i' :: 'n' :: y) with
  | some found =>
    rcases hword.1 hs with ⟨r, hr, hrest⟩ | ⟨htoken, hrest⟩
    · exact .inr ⟨_, _, _, rfl, hsign.2 (.inl ⟨r, hr, rfl⟩), .inr ⟨r, y, hrest, rfl⟩⟩
    · exact .inr ⟨_, _, _, rfl, hsign.2 (.inr ⟨(hp.word_iff_sign _ x).1 htoken, rfl⟩), .inl hrest⟩
  | none =>
    refine .inl ⟨rfl, Option.eq_none_iff_forall_ne_some.2 fun found ht => ?_⟩
    rcases hsign.1 ht with ⟨r, hr, -⟩ | ⟨htoken, -⟩
    · cases hs.symm.trans (hword.2 (.inl ⟨r, hr, rfl⟩))
    · cases hs.symm.trans (hword.2 (.inr ⟨(hp.word_iff_sign _ x).2 htoken, rfl⟩))

private theorem SpellsAlike.read_letters (hp : SpellsAlike p Token) (y : List Char) :
    p.read ('i' :: 'n' :: y) = none ∧ p.read ('n' :: y) = none ∧ p.read ('"' :: y) = none :=
  ⟨hp.starts _ rfl, hp.starts _ rfl, hp.starts _ rfl⟩

private theorem SpellsAlike.tokens_respelled (hp : SpellsAlike p Token) (h : Respelled s t) :
    p.tokens s = p.tokens t ∧ Respelled (p.without s) (p.without t) := by
  induction hn : s.length using Nat.strongRecOn generalizing s t with
  | ind n ih =>
    obtain rfl | ⟨x, y, rfl, rfl⟩ := h
    · exact ⟨rfl, .inl rfl⟩
    · cases x with
      | nil =>
        -- at the unit itself nothing is read: one spelling takes two steps and the other one
        obtain ⟨hi, hletter, hsign⟩ := hp.read_letters y
        simp only [List.nil_append]
        rw [Pattern.tokens_of_not_read hi, Pattern.tokens_of_not_read hletter,
          Pattern.tokens_of_not_read hsign, Pattern.without_of_not_read hi,
          Pattern.without_of_not_read hletter, Pattern.without_of_not_read hsign]
        exact ⟨rfl, .inr ⟨[], p.without y, rfl, rfl⟩⟩
      | cons c x =>
        rcases hp.read_respelled (c :: x) y with ⟨hs, ht⟩ | ⟨a, s, t, hs, ht, hst⟩
        · rw [List.cons_append] at hs ht hn ⊢
          obtain ⟨htokens, hwithout⟩ := ih _ (by simp at hn ⊢; omega) (.inr ⟨x, y, rfl, rfl⟩) rfl
          rw [List.cons_append, Pattern.tokens_of_not_read hs, Pattern.tokens_of_not_read ht,
            Pattern.without_of_not_read hs, Pattern.without_of_not_read ht]
          exact ⟨htokens, hwithout.cons c⟩
        · obtain ⟨htokens, hwithout⟩ := ih _ (hn ▸ p.shorter hs) hst rfl
          rw [Pattern.tokens_of_read hs, Pattern.tokens_of_read ht, Pattern.without_of_read hs,
            Pattern.without_of_read ht, htokens]
          exact ⟨rfl, hwithout⟩

private theorem SpellsAlike.cutFirst?_respelled (hp : SpellsAlike p Token) (h : Respelled s t) :
    (p.cutFirst? s = none ∧ p.cutFirst? t = none) ∨
      ∃ a s' t', p.cutFirst? s = some (a, s') ∧ p.cutFirst? t = some (a, t') ∧ Respelled s' t' := by
  obtain rfl | ⟨x, y, rfl, rfl⟩ := h
  · cases hs : p.cutFirst? s with
    | none => exact .inl ⟨rfl, rfl⟩
    | some found => exact .inr ⟨_, _, _, rfl, rfl, .inl rfl⟩
  · induction x with
    | nil =>
      obtain ⟨hi, hletter, hsign⟩ := hp.read_letters y
      simp only [List.nil_append]
      rw [Pattern.cutFirst?_of_not_read hi, Pattern.cutFirst?_of_not_read hletter,
        Pattern.cutFirst?_of_not_read hsign]
      cases p.cutFirst? y with
      | none => exact .inl ⟨rfl, rfl⟩
      | some found => exact .inr ⟨_, _, _, rfl, rfl, .inr ⟨[], found.2, rfl, rfl⟩⟩
    | cons c x ih =>
      rcases hp.read_respelled (c :: x) y with ⟨hs, ht⟩ | ⟨a, s', t', hs, ht, hst⟩
      · rw [List.cons_append] at hs ht ⊢
        rw [List.cons_append, Pattern.cutFirst?_of_not_read hs, Pattern.cutFirst?_of_not_read ht]
        rcases ih with ⟨hs, ht⟩ | ⟨a, s', t', hs, ht, hst⟩
        · rw [hs, ht]
          exact .inl ⟨rfl, rfl⟩
        · rw [hs, ht]
          exact .inr ⟨_, _, _, rfl, rfl, hst.cons c⟩
      · exact .inr ⟨a, s', t', Pattern.cutFirst?_of_read hs, Pattern.cutFirst?_of_read ht, hst⟩

end Respelled

private theorem plainNumber?_of_mem {s : List Char} {c : Char} (hc : IsUnitChar c) (hpoint : c ≠ '.')
    (h : c ∈ s) : plainNumber? s = none := by
  rw [← Option.isNone_iff_eq_none, ← Option.isSome_eq_false_iff, ← Bool.not_eq_true, isPlainNumber_iff]
  intro hplain
  obtain ⟨before, after, hbefore, hafter, hsplit⟩ := exists_surrounded s
  rw [hsplit, List.mem_append, List.mem_append] at h
  have hmem : c ∈ trim s :=
    (h.resolve_right (hc.not_mem_blanks hafter)).resolve_left (hc.not_mem_blanks hbefore)
  obtain ⟨whole, hw, hs | ⟨fraction, hf, hs⟩⟩ := hplain
  · exact hc.not_mem_run hw (hs ▸ hmem)
  · rw [hs, List.mem_append, List.mem_cons] at hmem
    rcases hmem with hmem | rfl | hmem
    · exact hc.not_mem_run hw hmem
    · exact hpoint rfl
    · exact hc.not_mem_run hf hmem

private theorem leftOver_respelled {s t : List Char} (h : Respelled s t) : leftOver s = leftOver t := by
  have hplain : ∀ {s t}, Respelled s t → plainNumber? s = plainNumber? t := by
    rintro s t (rfl | ⟨x, y, rfl, rfl⟩)
    · rfl
    · rw [plainNumber?_of_mem isUnitChar_i (by decide) (by simp),
        plainNumber?_of_mem isUnitChar_sign (by decide) (by simp)]
  rcases inches_spells.cutFirst?_respelled h with ⟨hs, ht⟩ | ⟨n, s', t', hs, ht, hst⟩
  · simp only [leftOver, hs, ht]
    rw [hplain h]
  · simp only [leftOver, hs, ht]
    rw [hplain hst]

private theorem parts_respelled {s t : List Char} (h : Respelled s t) :
    fraction.tokens s = fraction.tokens t ∧ parts s = parts t := by
  obtain ⟨hfeet, hrest⟩ := feet_spells.tokens_respelled h
  obtain ⟨-, hleft⟩ := fraction_spells.tokens_respelled hrest
  have hfraction := (fraction_spells.tokens_respelled h).1
  refine ⟨hfraction, ?_⟩
  rw [parts_eq, parts_eq, feetAndFractions, feetAndFractions, hfeet, hfraction, remainder, remainder,
    leftOver_respelled hleft]

section Rest
variable {α : Type} {p : Pattern α} {Token : α → List Char → Prop}

private theorem SpellsAlike.parted (hp : SpellsAlike p Token) (x y : List Char) :
    p.Parted (x ++ ['n']) y :=
  hp.reads.parted_behind hp.letter_ends x y

theorem SpellsAlike.passes (hp : SpellsAlike p Token) (y : List Char) : p.Passes ['c', 'h'] y :=
  hp.starts.passes_gap (by simp [NoDigit]) y

end Rest

/-- The inches that are read of two texts which are kept apart, and no number. -/
def apart (s t : List Char) : List Float :=
  (((inches.cutFirst? s).or (inches.cutFirst? t)).map fun found => amount found.1).toList

private theorem leftOver_apart (s t : List Char) : leftOver (s ++ 'c' :: 'h' :: t) = apart s t := by
  have hcut := (inches_reads.parted_before inches_spells.not_mem s ('h' :: t)).cutFirst?_append inches_reads
  have hrest := (inches_spells.passes t).cutFirst?
  rw [List.cons_append, List.singleton_append] at hrest
  rw [hrest] at hcut
  rw [leftOver, apart, hcut]
  have hplain : ∀ x y, plainNumber? (x ++ 'c' :: y) = none := fun x y =>
    plainNumber?_of_mem isUnitChar_c (by decide) (by simp)
  cases inches.cutFirst? s with
  | some found => simp [hplain]
  | none =>
    cases inches.cutFirst? t with
    | some found => simp [hplain]
    | none => simp [hplain]

private theorem search_behind (x y : List Char) :
    feet.tokens (x ++ ['n'] ++ y) = feet.tokens (x ++ ['n']) ++ feet.tokens y ∧
      fraction.tokens (x ++ ['n'] ++ y) = fraction.tokens (x ++ ['n']) ++ fraction.tokens y ∧
      remainder (x ++ ['n'] ++ y) = remainder (x ++ ['n']) ++ remainder y := by
  have hfeet := feet_spells.parted x y
  have hfraction := fraction_spells.parted x y
  -- the letter is in no feet, so it is still there to part the text when they are cut out
  have hletter : feet.without (x ++ ['n']) = feet.without x ++ ['n'] := by
    have hborder := feet_reads.parted_before (feet_not_mem isUnitChar_n (by decide)) x []
    have hgap : feet.Passes ['n'] [] := feet_startsWithDigit.passes_gap (by simp [NoDigit]) []
    rw [hborder.without_append feet_reads, hgap.without_eq_self]
  refine ⟨hfeet.tokens_append feet_reads, hfraction.tokens_append fraction_reads, ?_⟩
  rw [remainder, remainder, hfeet.without_append feet_reads, hletter,
    (fraction_spells.parted _ _).without_append fraction_reads, remainder]

private theorem search_rest (y : List Char) :
    feet.tokens ('c' :: 'h' :: y) = feet.tokens y ∧
      fraction.tokens ('c' :: 'h' :: y) = fraction.tokens y ∧
      remainder ('c' :: 'h' :: y) = 'c' :: 'h' :: remainder y := by
  refine ⟨(feet_spells.passes y).tokens, (fraction_spells.passes y).tokens, ?_⟩
  have hfeet : feet.without ('c' :: 'h' :: y) = ['c', 'h'] ++ feet.without y :=
    (feet_spells.passes y).without
  rw [remainder, hfeet, (fraction_spells.passes _).without]
  rfl

private theorem parts_word (x y : List Char) :
    fraction.tokens (x ++ ['n'] ++ 'c' :: 'h' :: y) = fraction.tokens (x ++ ['n'] ++ y) ∧
      parts (x ++ ['n'] ++ y) = feetAndFractions (x ++ ['n'] ++ y) ++
        leftOver (remainder (x ++ ['n']) ++ remainder y) ∧
      parts (x ++ ['n'] ++ 'c' :: 'h' :: y) = feetAndFractions (x ++ ['n'] ++ y) ++
        apart (remainder (x ++ ['n'])) (remainder y) := by
  obtain ⟨hfeet, hfraction, hremainder⟩ := search_behind x y
  obtain ⟨hfeet', hfraction', hremainder'⟩ := search_behind x ('c' :: 'h' :: y)
  obtain ⟨hfeetRest, hfractionRest, hremainderRest⟩ := search_rest y
  rw [hfeetRest, ← hfeet] at hfeet'
  rw [hfractionRest, ← hfraction] at hfraction'
  refine ⟨hfraction', by rw [parts_eq, hremainder], ?_⟩
  rw [parts_eq, feetAndFractions, hfeet', hfraction', hremainder', hremainderRest, leftOver_apart,
    feetAndFractions]

inductive ErrorKind
  | empty
  | unreadable
  | zeroDenominator
deriving DecidableEq

def Error.kind : Error → ErrorKind
  | .empty => .empty
  | .unreadable _ => .unreadable
  | .zeroDenominator _ => .zeroDenominator

/-- What is read of a text, or the kind of the error. -/
def outcome (text : String) : Except ErrorKind Float :=
  (read text).mapError Error.kind

private theorem outcome_of_hasUnit {text : String} {s : List Char} (hs : lower (trim text.toList) = s)
    (h : HasUnit (feetUnits ++ inchUnits) s) :
    outcome text = if (fraction.tokens s).any (·.2 == 0) then .error .zeroDenominator
      else .ok ((parts s).foldl (· + ·) 0.0) := by
  have hparts : parts s ≠ [] := fun hnil => ((parts_eq_nil_iff s).1 hnil).1 h
  have hne := h.ne_nil
  simp only [outcome, read, hs, List.isEmpty_iff, hne, hparts, if_false]
  split <;> rfl

/-- A text with inches in the middle, with a space on both sides of the unit. -/
def withInches (a d unit b : List Char) : String :=
  String.ofList (a ++ (d ++ (' ' :: (unit ++ ' ' :: b))))

private theorem lower_trim_withInches {d unit : List Char} (hd : IsRun d) (hu : unit ∈ inchUnits)
    (a b : List Char) :
    lower (trim (withInches a d unit b).toList) =
      lower (skipBlanks a) ++ (d ++ ' ' :: unit) ++ lower ((' ' :: b).rdropWhile isBlank) := by
  have hunit : unit ∈ feetUnits ++ inchUnits := List.mem_append_right _ hu
  have hsmall : lower (d ++ ' ' :: unit) = d ++ ' ' :: unit := by
    refine lower_of_isSmall (List.forall_mem_append.2 ⟨?_, List.forall_mem_cons.2 ⟨?_, ?_⟩⟩)
    · exact IsPlainNumber.isSmall ⟨d, hd, .inl rfl⟩
    · exact isSmall_of_isBlank (by decide)
    · exact isSmall_of_mem_unit hunit
  have hbehind : lower (d ++ ' ' :: unit ++ (' ' :: b).rdropWhile isBlank) =
      d ++ ' ' :: unit ++ lower ((' ' :: b).rdropWhile isBlank) := by
    rcases List.prefix_cons_iff.1 (List.rdropWhile_prefix isBlank (l := ' ' :: b)) with hnil | ⟨t, ht, -⟩
    · rw [hnil, List.append_nil, hsmall]
      exact (List.append_nil _).symm
    · rw [ht, lower_append_cons isBorder_space, hsmall]
  obtain ⟨c, d, rfl⟩ := List.exists_cons_of_ne_nil hd.nonempty
  obtain ⟨init, e, rfl, he⟩ := exists_last_of_unit ((map_toLower_of_unit hunit).symm ▸ hunit)
  have hc : c.isDigit = true := hd.digits c List.mem_cons_self
  have htrim : trim (withInches a (c :: d) (init ++ [e]) b).toList =
      skipBlanks a ++ c :: (d ++ ' ' :: (init ++ [e]) ++ (' ' :: b).rdropWhile isBlank) := by
    have hshape : a ++ (c :: d ++ (' ' :: (init ++ [e] ++ ' ' :: b))) =
        a ++ c :: (d ++ ' ' :: init ++ e :: ' ' :: b) := by
      simp
    rw [withInches, String.toList_ofList, hshape, trim_append_cons (isBlank_of_isDigit hc),
      rdropWhile_append_cons he]
    simp
  rw [htrim, lower_append_cons (isBorder_of_isDigit hc)]
  exact (congrArg (lower (skipBlanks a) ++ ·) hbehind).trans (List.append_assoc _ _ _).symm

private theorem outcome_withInches {d unit : List Char} (hd : IsRun d) (hu : unit ∈ inchUnits)
    (a b : List Char) :
    let s := lower (skipBlanks a) ++ (d ++ ' ' :: unit) ++ lower ((' ' :: b).rdropWhile isBlank)
    outcome (withInches a d unit b) =
      if (fraction.tokens s).any (·.2 == 0) then .error .zeroDenominator
      else .ok ((parts s).foldl (· + ·) 0.0) := by
  intro s
  apply outcome_of_hasUnit (lower_trim_withInches hd hu a b)
  obtain ⟨init, c, rfl⟩ := (List.eq_nil_or_concat d).resolve_left hd.nonempty
  have hmark : IsMark (feetUnits ++ inchUnits) (' ' :: unit) :=
    ⟨[' '], unit, by decide, List.mem_append_right _ hu, rfl⟩
  exact ⟨lower (skipBlanks a) ++ init, c, ' ' :: unit, lower ((' ' :: b).rdropWhile isBlank), by simp,
    hd.digits c (by simp), hmark⟩

/-- The word `in` and the inch sign are read alike. The word `inch` is read as `in` exactly if what is left
over without feet and fractions adds up to the same where the rest of the word keeps its two sides apart,
or if all of them fail. -/
theorem outcome_spellings {a d b : List Char} (hd : IsRun d) :
    let front := lower (skipBlanks a) ++ (d ++ [' ', 'i', 'n'])
    let behind := lower ((' ' :: b).rdropWhile isBlank)
    let sum := (feetAndFractions (front ++ behind)).foldl (· + ·) 0.0
    outcome (withInches a d ['"'] b) = outcome (withInches a d ['i', 'n'] b) ∧
      (outcome (withInches a d ['i', 'n', 'c', 'h'] b) = outcome (withInches a d ['i', 'n'] b) ↔
        (∃ e, outcome (withInches a d ['i', 'n'] b) = .error e) ∨
          (apart (remainder front) (remainder behind)).foldl (· + ·) sum =
            (leftOver (remainder front ++ remainder behind)).foldl (· + ·) sum) := by
  intro front behind sum
  have hsign : outcome (withInches a d ['"'] b) = _ := outcome_withInches hd (by decide) a b
  have hword : outcome (withInches a d ['i', 'n'] b) = _ := outcome_withInches hd (by decide) a b
  have hlong : outcome (withInches a d ['i', 'n', 'c', 'h'] b) = _ :=
    outcome_withInches hd (by decide) a b
  have hspelled : Respelled (front ++ behind) (lower (skipBlanks a) ++ (d ++ ' ' :: ['"']) ++ behind) :=
    .inr ⟨lower (skipBlanks a) ++ (d ++ [' ']), behind, by simp [front], by simp⟩
  have hfront : front = lower (skipBlanks a) ++ (d ++ [' ', 'i']) ++ ['n'] := by
    simp [front]
  have hrest : lower (skipBlanks a) ++ (d ++ ' ' :: ['i', 'n', 'c', 'h']) ++ behind =
      front ++ 'c' :: 'h' :: behind := by
    simp [front]
  obtain ⟨hfractionSign, hpartsSign⟩ := parts_respelled hspelled
  obtain ⟨hfractionLong, hpartsWord, hpartsLong⟩ :=
    parts_word (lower (skipBlanks a) ++ (d ++ [' ', 'i'])) behind
  rw [← hfront] at hfractionLong hpartsWord hpartsLong
  rw [← hfractionSign, ← hpartsSign] at hsign
  rw [hrest, hfractionLong, hpartsLong, List.foldl_append] at hlong
  refine ⟨hsign.trans hword.symm, ?_⟩
  rw [hpartsWord, List.foldl_append] at hword
  rw [hlong, hword]
  split
  · simp
  · simp [sum]

/-- Nothing else is left over in a measurement of feet, inches and a fraction, so all spellings agree. -/
theorem outcome_spellings_mixed :
    let a := ['7', ' ', 'f', 't', ' ']
    let d := ['1', '0']
    let b := ['5', '/', '8', ' ', 'i', 'n']
    IsRun d ∧ outcome (withInches a d ['"'] b) = outcome (withInches a d ['i', 'n'] b) ∧
      outcome (withInches a d ['i', 'n', 'c', 'h'] b) = outcome (withInches a d ['i', 'n'] b) := by
  intro a d b
  have hd : IsRun d := by decide
  obtain ⟨hsign, hlong⟩ := outcome_spellings (a := a) (b := b) hd
  exact ⟨hd, hsign, hlong.2 (.inr (by decide +kernel))⟩

/-- A number that is left over behind the inches counts with the word `in`, and not with `inch`. -/
theorem outcome_inch_number :
    outcome (withInches [] ['5'] ['i', 'n'] ['7']) = .ok 12 ∧
      outcome (withInches [] ['5'] ['i', 'n', 'c', 'h'] ['7']) = .ok 5 := by
  decide +kernel

end Millwork.Measurement
