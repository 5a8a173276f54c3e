import Millwork.Proofs.Formula.Lexemes
import Millwork.Proofs.Measurement.Handover
/-!
# No number is refused

The tokens of a formula, the three readers of numbers in texts and the reader of measurements hand over only
texts of the number grammar, so none of them needs an answer for a text that is refused
(`Decimal.Reads.never_refused`).
-/
namespace Millwork
namespace Formula
open Text Decimal

section
variable (double? : List Char → Option Float)

def readLexemeThrough (s : List Char) : Except Refusal (Option (Lexeme × List Char)) :=
  if s.head?.any fun c => c.isDigit || c = '.' then
    match Literal.read? s with
    | some (l, _) => (handOver double? l.spelling).map fun x => some (.number x, l.spelling)
    | none => .ok none
  else
    .ok (readLexeme? s)

def tokensFromThrough (offset : Nat) : List Char → Except Refusal (Except Error (List Token))
  | [] => .ok (.ok [])
  | c :: s =>
    if isBlank c then
      tokensFromThrough (offset + c.utf8Size) s
    else
      match readLexemeThrough double? (c :: s) with
      | .error refusal => .error refusal
      | .ok none => .ok (.error (badLexeme c offset))
      | .ok (some (lexeme, spelling)) =>
        (tokensFromThrough (offset + utf8Length spelling) (s.drop (spelling.length - 1))).map
          fun more => more.map (⟨lexeme, offset⟩ :: ·)
termination_by s => s.length

/-- The tokens of a text; each number is handed over when it is reached. -/
def tokensThrough (text : String) : Except Refusal (Except Error (List Token)) :=
  tokensFromThrough double? 0 text.toList

end

section
variable {double? : List Char → Option Float}

private theorem readLexemeThrough_eq (h : Reads double?) (s : List Char) :
    readLexemeThrough double? s = .ok (readLexeme? s) := by
  unfold readLexemeThrough
  split
  · rename_i hfront
    cases s with
    | nil => cases hfront
    | cons c s =>
      rw [readLexeme?_number (by simpa using hfront)]
      cases hread : Literal.read? (c :: s) with
      | none => rfl
      | some found =>
        have hd := denotes_literal (Literal.wellFormed_of_read? hread)
        simp only [h.handOver_eq hd]
        rfl
  · rfl

private theorem tokensFromThrough_eq (h : Reads double?) (offset : Nat) (s : List Char) :
    tokensFromThrough double? offset s = .ok (tokensFrom offset s) := by
  fun_induction tokensFrom offset s with
  | case1 offset => rw [tokensFromThrough]
  | case2 offset c s hb ih => rw [tokensFromThrough, if_pos hb, ih]
  | case3 offset c s hb lexeme spelling hr ih =>
    rw [tokensFromThrough, if_neg hb, readLexemeThrough_eq h, hr]
    simp only [ih]
    rfl
  | case4 offset c s hb hr => rw [tokensFromThrough, if_neg hb, readLexemeThrough_eq h, hr]

end
end Formula

namespace Decimal
/-- Whatever reader of doubles takes the texts of the number grammar, none of the texts that are handed
over to it is refused, and what is read is what is read without handing anything over. -/
theorem Reads.never_refused {double? : List Char → Option Float} (h : Reads double?) :
    (∀ text, Formula.tokensThrough double? text = .ok (Formula.tokens text)) ∧
    (∀ s, readAllThrough double? s = .ok (readAll s)) ∧
    (∀ s, readFrontThrough double? s = .ok (readFront s)) ∧
    (∀ s, readWholeFrontThrough double? s = .ok (readWholeFront s)) ∧
    ∀ text, Measurement.readThrough double? text = .ok (Measurement.read text) :=
  ⟨fun text => Formula.tokensFromThrough_eq h 0 text.toList, h.readAllThrough_eq, h.readFrontThrough_eq,
    h.readWholeFrontThrough_eq, Measurement.readThrough_eq h⟩

/-- Points at the end and at the front, exponents with and without a sign, and a measurement. -/
theorem Reads.never_refused_points :
    Reads ofText? ∧
    Formula.tokensThrough ofText? "12.e-1 .5E1" = .ok (.ok [⟨.number 1.2, 0⟩, ⟨.number 5, 7⟩]) ∧
    readAllThrough ofText? " -.5e1 ".toList = .ok (-5) ∧
    readFrontThrough ofText? "+1.5e3e in".toList = .ok 1500 ∧
    readWholeFrontThrough ofText? "-7.9".toList = .ok (-7) ∧
    Measurement.readThrough ofText? "7 ft 10 in 5/8 in 0.5" = .ok (.ok 95.125) := by
  obtain ⟨htokens, hall, hfront, hwhole, hmeasurement⟩ := Reads.never_refused reads_ofText?
  rw [htokens, hall, hfront, hwhole, hmeasurement]
  exact ⟨reads_ofText?, by decide +kernel, by decide +kernel, by decide +kernel, by decide +kernel,
    by decide +kernel⟩

end Decimal
end Millwork
