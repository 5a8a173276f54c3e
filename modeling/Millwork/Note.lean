import Millwork.Text.Lines
import Millwork.Measurement
import Millwork.Order
import Millwork.Note.Label
import Millwork.Note.Link
/-!
# Order notes

A note is free text. A line with a colon gives a field: the label before the first colon, the value
behind it. Links are collected from every line.
-/
namespace Millwork.Note
open Text

def caseless (c : Char) : Char :=
  if c = 'ſ' then 's' else c.toLower

def isWord (word : String) (s : List Char) : Bool :=
  s.map caseless == word.toList

def unitMark (s : List Char) : Option (List Char) :=
  match skipBlanks s with
  | '/' :: rest => some rest
  | rest => (Measurement.feetMark rest).or (Measurement.inchMark rest)

theorem unitMark_le {s rest : List Char} (h : unitMark s = some rest) : rest.length ≤ s.length := by
  have hs := length_skipBlanks_le s
  unfold unitMark at h
  split at h
  · simp_all
    omega
  · rename_i t _
    rcases Option.or_eq_some_iff.1 h with hf | ⟨_, hi⟩
    · exact Nat.le_trans (Measurement.feetMark_le hf) hs
    · exact Nat.le_trans (Measurement.inchMark_le hi) hs

def measured : Pattern (List Char) := Measurement.digits.followedBy unitMark unitMark_le

def looksMeasured (s : List Char) : Bool :=
  measured.occursIn (s.map Char.toLower)

/-- The value of a trimmed text: yes or no, inches, or the text as it is. -/
def valueOf (s : List Char) : Value :=
  if isWord "yes" s || isWord "y" s then
    .bool true
  else if isWord "no" s || isWord "n" s then
    .bool false
  else
    let text := String.ofList s
    if looksMeasured s then
      match Measurement.read text with
      | .ok inches => .number inches
      | .error _ => .text text
    else
      .text text

def field? (line : List Char) : Option (String × Value) :=
  match line.dropWhile (· != ':') with
  | _ :: value =>
    some (String.ofList (Label.key (trim (line.takeWhile (· != ':')))), valueOf (trim value))
  | [] => none

def trimmedLines (text : List Char) : List (List Char) :=
  (lines text).map trim

def read (text : String) : Order :=
  let found := trimmedLines text.toList
  (Order.ofList (found.filterMap field?)).withLinks (found.flatMap Link.inText)

/-- The order of a note given as JSON, which has to be a string. -/
def ofJson : Json → Except Json.Mismatch Order
  | .string text => .ok (read text)
  | other => .error ⟨.string, other.kind⟩

end Millwork.Note
