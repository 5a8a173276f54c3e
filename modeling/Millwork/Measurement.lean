import Millwork.Text.Lower
import Millwork.Text.Pattern
import Millwork.Decimal.Text
import Millwork.Json.Mismatch
/-!
# Measurements

A measurement such as `7 ft 10 in 5/8 in` is a sum of feet, fractions of an inch and inches; a number
without a unit is in inches. The first feet token counts and all of them are cut out, then every
fraction, then the first inch token; what is left may still be a plain number.
-/
namespace Millwork.Measurement
open Text Decimal

inductive Error
  | empty
  | unreadable (text : String)
  | zeroDenominator (text : String)
deriving DecidableEq, Repr

def Error.message : Error → String
  | .empty => "empty measurement string"
  | .unreadable text => "unable to parse measurement from \"" ++ text ++ "\""
  | .zeroDenominator text => "invalid fraction with zero denominator in \"" ++ text ++ "\""

/-- A run of ASCII digits. -/
def digits : Pattern (List Char) where
  read s :=
    if (digitsAtFront s).isEmpty then none else some (digitsAtFront s, afterDigits s)
  shorter {s a rest} h := by
    have hs := congrArg List.length (digitsAtFront_append_afterDigits s)
    split at h
    · simp at h
    · rename_i hd
      simp only [Option.some.injEq, Prod.mk.injEq] at h
      obtain ⟨_, rfl⟩ := h
      have := List.length_pos_iff.2 (by simpa using hd)
      simp only [List.length_append] at hs
      omega

/-- Passes over the unit of feet. -/
def feetMark (s : List Char) : Option (List Char) :=
  match skipBlanks s with
  | '\'' :: rest => some rest
  | 'f' :: 't' :: rest => some rest
  | 'f' :: 'e' :: 'e' :: 't' :: rest => some rest
  | _ => none

def inchMark (s : List Char) : Option (List Char) :=
  match skipBlanks s with
  | '"' :: rest => some rest
  | 'i' :: 'n' :: rest => some rest
  | _ => none

def slash (s : List Char) : Option (List Char) :=
  match skipBlanks s with
  | '/' :: rest => some (skipBlanks rest)
  | _ => none

theorem feetMark_le {s rest : List Char} (h : feetMark s = some rest) : rest.length ≤ s.length := by
  have hs := length_skipBlanks_le s
  unfold feetMark at h
  split at h <;> simp_all <;> omega

theorem inchMark_le {s rest : List Char} (h : inchMark s = some rest) : rest.length ≤ s.length := by
  have hs := length_skipBlanks_le s
  unfold inchMark at h
  split at h <;> simp_all <;> omega

theorem slash_le {s rest : List Char} (h : slash s = some rest) : rest.length ≤ s.length := by
  have hs := length_skipBlanks_le s
  unfold slash at h
  split at h
  · rename_i t ht
    have := length_skipBlanks_le t
    simp_all
    omega
  · simp at h

/-- A number with the unit of feet behind it. -/
def feet : Pattern Nat :=
  (digits.followedBy feetMark feetMark_le).map ofDigits

def inches : Pattern Nat :=
  (digits.followedBy inchMark inchMark_le).map ofDigits

/-- Numerator and denominator of a fraction of an inch. -/
def fraction : Pattern (Nat × Nat) :=
  ((digits.followedBy slash slash_le).map ofDigits).pair inches

def amount (n : Nat) : Float := nearest n 0

def isPlain (l : Literal) : Bool :=
  !l.whole.isEmpty && (!l.point || !l.fraction.isEmpty) && l.exponent.isNone

/-- The value of a text that is a plain number and nothing else. -/
def plainNumber? (s : List Char) : Option Float :=
  match Literal.read? (trim s) with
  | some (l, []) => if isPlain l then some l.toFloat else none
  | _ => none

/-- The parts that a lower-cased measurement adds up, in the order in which they are added. -/
def parts (s : List Char) : List Float :=
  let rest := fraction.without (feet.without s)
  let whole := inches.cutFirst? rest
  let last := (whole.map Prod.snd).getD rest
  ((feet.tokens s).head?.map fun n => amount n * 12).toList ++
    (fraction.tokens s).map (fun f => amount f.1 / amount f.2) ++
    (whole.map fun found => amount found.1).toList ++
    (plainNumber? last).toList

/-- The inches of a measurement. -/
def read (text : String) : Except Error Float :=
  let s := lower (trim text.toList)
  if s.isEmpty then
    .error .empty
  else if (fraction.tokens s).any (·.2 == 0) then
    .error (.zeroDenominator text)
  else if (parts s).isEmpty then
    .error (.unreadable text)
  else
    .ok ((parts s).foldl (· + ·) 0.0)

/-- The inches of a measurement given as JSON, which has to be a string. -/
def ofJson : Json → Except Json.Mismatch (Except Error Float)
  | .string text => .ok (read text)
  | other => .error ⟨.string, other.kind⟩

end Millwork.Measurement
