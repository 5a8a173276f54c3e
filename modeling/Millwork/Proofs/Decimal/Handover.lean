import Millwork.Proofs.Decimal.Front
/-!
# Numbers that are handed over

The readers of numbers cut a text out of what they are given and hand it over to a reader of doubles. Such
a reader takes the texts of one grammar: an optional sign, digits with at most one point in or around them,
and perhaps an exponent (`Denotes`). What it does with any other text is left open, so a reader that is
never refused hands over nothing but numbers of that grammar.
-/
namespace Millwork.Decimal
open Text

inductive Mantissa : List Char → List Char → List Char → Prop
  | whole {whole : List Char} (hw : AllDigits whole) (hne : whole ≠ []) : Mantissa whole whole []
  | pointBehind {whole fraction : List Char} (hw : AllDigits whole) (hne : whole ≠ [])
    (hf : AllDigits fraction) : Mantissa (whole ++ '.' :: fraction) whole fraction
  | pointBefore {whole fraction : List Char} (hw : AllDigits whole) (hf : AllDigits fraction)
    (hne : fraction ≠ []) : Mantissa (whole ++ '.' :: fraction) whole fraction

inductive Power : List Char → Int → Prop
  | none : Power [] 0
  | exponent {mark : Char} {sign : Option Char} {digits : List Char} (hm : mark = 'e' ∨ mark = 'E')
    (hs : IsSign sign) (hd : AllDigits digits) (hne : digits ≠ []) :
    Power (mark :: (sign.toList ++ digits))
      (if sign = some '-' then -ofDigits digits else ofDigits digits)

/-- A text of the grammar, and the double nearest to the number that it stands for. -/
inductive Denotes : List Char → Float → Prop
  | number {sign : Option Char} {mantissa whole fraction power : List Char} {scale : Int}
    (hs : IsSign sign) (hm : Mantissa mantissa whole fraction) (hp : Power power scale) :
    Denotes (sign.toList ++ (mantissa ++ power))
      (nearestSigned (sign == some '-') (ofDigits (whole ++ fraction)) (scale - fraction.length))

/-- The reader takes every text of the grammar. -/
def Reads (double? : List Char → Option Float) : Prop :=
  ∀ s x, Denotes s x → double? s = some x

private theorem denotes_spelling {sign : Option Char} (hs : IsSign sign) {l : Literal}
    (h : l.WellFormed) :
    Denotes (sign.toList ++ l.spelling) (nearestSigned (sign == some '-') l.significand l.scale) := by
  obtain ⟨whole, point, fraction, exponent⟩ := l
  have hmantissa : Mantissa (whole ++ (if point then '.' :: fraction else [])) whole fraction := by
    cases point with
    | false =>
      obtain rfl : fraction = [] := h.point rfl
      rw [if_neg Bool.false_ne_true, List.append_nil]
      exact .whole h.whole (h.nonempty.resolve_right fun hf => hf rfl)
    | true =>
      rw [if_pos rfl]
      exact h.nonempty.elim (fun hne => .pointBehind h.whole hne h.fraction)
        (fun hne => .pointBefore h.whole h.fraction hne)
  have hpower : Power ((exponent.map Exponent.spelling).getD [])
      ((exponent.map Exponent.value).getD 0) := by
    cases exponent with
    | none => exact .none
    | some e =>
      have he := h.exponent e rfl
      exact .exponent he.mark he.sign he.digits he.nonempty
  exact .number hs hmantissa hpower

private theorem denotes_of_read? {s : List Char} {l : Literal}
    (h : Literal.read? (splitSign s).2 = some (l, [])) :
    Denotes s (nearestSigned ((splitSign s).1 == some '-') l.significand l.scale) := by
  have hsign : IsSign (splitSign s).1 := fun c => eq_sign_of_splitSign
  have hdenotes := denotes_spelling hsign (Literal.wellFormed_of_read? h)
  have hspelling := (Literal.spelling_of_read? h).1
  rw [List.append_nil] at hspelling
  rwa [← hspelling, splitSign_append] at hdenotes

theorem isSign_none : IsSign none :=
  nofun

theorem denotes_literal {l : Literal} (h : l.WellFormed) : Denotes l.spelling l.toFloat :=
  denotes_spelling isSign_none h

theorem denotes_digits {sign : Option Char} (hs : IsSign sign) {digits : List Char}
    (hd : AllDigits digits) (hne : digits ≠ []) :
    Denotes (sign.toList ++ digits) (nearestSigned (sign == some '-') (ofDigits digits) 0) := by
  have hnumber := Denotes.number hs (.whole hd hne) .none
  simpa using hnumber

private theorem Denotes.exists_literal {s : List Char} {x : Float} (h : Denotes s x) :
    ∃ (sign : Option Char) (l : Literal), IsSign sign ∧ l.WellFormed ∧
      s = sign.toList ++ l.spelling ∧ x = nearestSigned (sign == some '-') l.significand l.scale := by
  obtain @⟨sign, mantissa, whole, fraction, power, scale, hs, hm, hp⟩ := h
  obtain ⟨exponent, he, rfl, rfl⟩ : ∃ exponent : Option Exponent,
      (∀ e, exponent = some e → e.WellFormed) ∧
      (exponent.map Exponent.spelling).getD [] = power ∧
      (exponent.map Exponent.value).getD 0 = scale := by
    cases hp with
    | none => exact ⟨none, nofun, rfl, rfl⟩
    | @exponent mark sign digits hm hs hd hne =>
      refine ⟨some ⟨mark, sign, digits⟩, fun e he => ?_, rfl, rfl⟩
      cases he
      exact ⟨hm, hs, hd, hne⟩
  have hpoint (hf : AllDigits fraction) (hw : AllDigits whole) (hne : whole ≠ [] ∨ fraction ≠ []) :
      Literal.WellFormed ⟨whole, true, fraction, exponent⟩ :=
    ⟨hw, hf, fun hp => absurd hp.symm Bool.false_ne_true, hne, he⟩
  cases hm with
  | whole hw hne =>
    refine ⟨sign, ⟨mantissa, false, [], exponent⟩, hs,
      ⟨hw, List.forall_mem_nil _, fun _ => rfl, .inl hne, he⟩, ?_, rfl⟩
    simp [Literal.spelling]
  | pointBehind hw hne hf =>
    exact ⟨sign, ⟨whole, true, fraction, exponent⟩, hs, hpoint hf hw (.inl hne), rfl, rfl⟩
  | pointBefore hw hf hne =>
    exact ⟨sign, ⟨whole, true, fraction, exponent⟩, hs, hpoint hf hw (.inr hne), rfl, rfl⟩

def ofText? (s : List Char) : Option Float :=
  match Literal.read? (splitSign s).2 with
  | some (l, []) => some (nearestSigned ((splitSign s).1 == some '-') l.significand l.scale)
  | _ => none

private theorem ofText?_eq_some_iff (s : List Char) (x : Float) : ofText? s = some x ↔ Denotes s x := by
  constructor
  · intro h
    unfold ofText? at h
    split at h
    · rename_i l hread
      cases h
      exact denotes_of_read? hread
    · cases h
  · intro h
    obtain ⟨sign, l, hs, hl, rfl, rfl⟩ := h.exists_literal
    have hbody : Unsigned (sign == some '-') l.spelling _ := .literal hl
    have hsplit := hbody.splitSign_append hs []
    have hread := Literal.read?_spelling hl ends_nil
    rw [List.append_nil] at hsplit hread
    simp only [ofText?, hsplit, hread]

theorem reads_ofText? : Reads ofText? :=
  fun s x h => (ofText?_eq_some_iff s x).2 h

/-- A text that the reader of doubles did not take. -/
structure Refusal where
  text : List Char
deriving DecidableEq, Repr

section
variable (double? : List Char → Option Float)

/-- A text that is refused stops the reading; whoever reads would have to fall back on something else. -/
def handOver (s : List Char) : Except Refusal Float :=
  match double? s with
  | some x => .ok x
  | none => .error ⟨s⟩

def isLiteral (s : List Char) : Bool :=
  match Literal.read? (splitSign s).2 with
  | some (_, []) => true
  | _ => false

/-- Reads a text as a whole; only what looks like a number is handed over. -/
def readAllThrough (s : List Char) : Except Refusal Float :=
  let t := trim s
  if t.isEmpty then .ok 0.0
  else if t = infinityWord || t = '+' :: infinityWord then .ok (infinity false)
  else if t = '-' :: infinityWord then .ok (infinity true)
  else if isLiteral t then handOver double? t
  else .ok notANumber

/-- Reads the front of a text; the longest literal there is handed over with its sign. -/
def readFrontThrough (s : List Char) : Except Refusal Float :=
  let signed := splitSign (skipBlanks s)
  if infinityWord.isPrefixOf signed.2 then
    .ok (infinity (signed.1 == some '-'))
  else
    match Literal.read? signed.2 with
    | some (l, _) => handOver double? (signed.1.toList ++ l.spelling)
    | none => .ok notANumber

/-- Reads the front of a text; the digits there are handed over with their sign. -/
def readWholeFrontThrough (s : List Char) : Except Refusal Float :=
  let signed := splitSign (skipBlanks s)
  if (digitsAtFront signed.2).isEmpty then .ok notANumber
  else handOver double? (signed.1.toList ++ digitsAtFront signed.2)

end

section
variable {double? : List Char → Option Float}

theorem Reads.handOver_eq (h : Reads double?) {s : List Char} {x : Float} (hs : Denotes s x) :
    handOver double? s = .ok x := by
  rw [handOver, h s x hs]

theorem Reads.readFrontThrough_eq (h : Reads double?) (s : List Char) :
    readFrontThrough double? s = .ok (readFront s) := by
  have hsign : IsSign (splitSign (skipBlanks s)).1 := fun c => eq_sign_of_splitSign
  simp only [readFrontThrough, readFront]
  split
  · rfl
  · cases hread : Literal.read? (splitSign (skipBlanks s)).2 with
    | none => rfl
    | some found =>
      exact h.handOver_eq (denotes_spelling hsign (Literal.wellFormed_of_read? hread))

theorem Reads.readWholeFrontThrough_eq (h : Reads double?) (s : List Char) :
    readWholeFrontThrough double? s = .ok (readWholeFront s) := by
  have hsign : IsSign (splitSign (skipBlanks s)).1 := fun c => eq_sign_of_splitSign
  simp only [readWholeFrontThrough, readWholeFront]
  split
  · rfl
  · rename_i hne
    exact h.handOver_eq (denotes_digits hsign (allDigits_digitsAtFront _) (by simpa using hne))

private theorem eq_infinityWord_of_splitSign {s : List Char} (h : (splitSign s).2 = infinityWord) :
    s = infinityWord ∨ s = '+' :: infinityWord ∨ s = '-' :: infinityWord := by
  have hs := splitSign_append s
  rw [h] at hs
  cases hsign : (splitSign s).1 with
  | none =>
    rw [hsign] at hs
    exact .inl hs.symm
  | some c =>
    rw [hsign] at hs
    rcases eq_sign_of_splitSign hsign with rfl | rfl
    · exact .inr (.inl hs.symm)
    · exact .inr (.inr hs.symm)

theorem Reads.readAllThrough_eq (h : Reads double?) (s : List Char) :
    readAllThrough double? s = .ok (readAll s) := by
  simp only [readAllThrough, readAll]
  generalize trim s = t
  by_cases hword : (splitSign t).2 = infinityWord
  · rcases eq_infinityWord_of_splitSign hword with rfl | rfl | rfl
    · rfl
    · rfl
    · rfl
  · have hplain : t ≠ infinityWord := by
      rintro rfl
      exact hword rfl
    have hplus : t ≠ '+' :: infinityWord := by
      rintro rfl
      exact hword rfl
    have hminus : t ≠ '-' :: infinityWord := by
      rintro rfl
      exact hword rfl
    simp only [hplain, hplus, hminus, hword, decide_false, Bool.or_self, Bool.false_eq_true, if_false]
    split
    · rfl
    · rcases hread : Literal.read? (splitSign t).2 with _ | ⟨l, _ | ⟨c, rest⟩⟩
      · simp only [isLiteral, hread, Bool.false_eq_true, if_false]
      · simp only [isLiteral, hread, if_true, h.handOver_eq (denotes_of_read? hread)]
      · simp only [isLiteral, hread, Bool.false_eq_true, if_false]

end
end Millwork.Decimal
