import Millwork.Decimal.Literal
import Millwork.Decimal.Layout
/-!
# JSON numbers

A JSON number is a decimal literal with an optional minus in front, without needless zeros before
its digits and with digits on both sides of its point. A double is written with its shortest digits.
Reading keeps as many leading digits as fit into 64 bits and scales them by one power of ten, so a
long number may miss the nearest double by one unit.
-/
namespace Millwork.Json
open Decimal

structure Numeral where
  negative : Bool
  literal : Literal
deriving DecidableEq, Repr

namespace Numeral
def allows (l : Literal) : Bool :=
  (match l.whole with
    | [] => false
    | [_] => true
    | digit :: _ => digit != '0') &&
  (!l.point || !l.fraction.isEmpty)

def readUnsigned? (negative : Bool) (s : List Char) : Option (Numeral × List Char) :=
  match Literal.read? s with
  | some (l, rest) => if allows l then some (⟨negative, l⟩, rest) else none
  | none => none

/-- The number at the front of a text, and what follows it. -/
def read? : List Char → Option (Numeral × List Char)
  | '-' :: rest => readUnsigned? true rest
  | s => readUnsigned? false s

theorem readUnsigned?_shorter {negative : Bool} {s : List Char} {n : Numeral} {rest : List Char}
    (h : readUnsigned? negative s = some (n, rest)) : rest.length < s.length := by
  unfold readUnsigned? at h
  split at h
  · rename_i l t hl
    split at h
    · simp only [Option.some.injEq, Prod.mk.injEq] at h
      obtain ⟨_, rfl⟩ := h
      exact Literal.read?_shorter hl
    · simp at h
  · simp at h

theorem read?_shorter {s : List Char} {n : Numeral} {rest : List Char}
    (h : read? s = some (n, rest)) : rest.length < s.length := by
  unfold read? at h
  split at h
  · have := readUnsigned?_shorter h
    simp only [List.length_cons]
    omega
  · exact readUnsigned?_shorter h

def accumulate (significand : Nat) : List Char → Nat × List Char
  | [] => (significand, [])
  | digit :: digits =>
    let next := significand * 10 + (digit.toNat - '0'.toNat)
    if next < UInt64.size then accumulate next digits else (significand, digit :: digits)

def kept (l : Literal) : Nat × Int :=
  let whole := accumulate 0 l.whole
  let all := accumulate whole.1 l.fraction
  (all.1, whole.2.length - (l.fraction.length - all.2.length) + (l.exponent.map Exponent.value).getD 0)

/-- Scales `x` by `10 ^ scale`, with one rounding per factor of at most `10 ^ 308`; none if that is
too large. -/
def scaleBy (x : Float) (scale : Int) : Option Float :=
  if scale.natAbs ≤ 308 then
    if scale < 0 then
      some (x / nearest 1 (-scale))
    else if (x * nearest 1 scale).isInf then
      none
    else
      some (x * nearest 1 scale)
  else if x == 0 then
    some x
  else if 0 ≤ scale then
    none
  else
    scaleBy (x / nearest 1 308) (scale + 308)
termination_by (-scale).toNat

/-- The value of the number; none if it is beyond the range of doubles. -/
def value? (n : Numeral) : Option Float :=
  let (significand, scale) := kept n.literal
  (scaleBy (nearest significand 0) scale).map fun x => if n.negative then -x else x

end Numeral

def writtenPlainly (d : Fixed) : Bool :=
  -5 ≤ d.leadingScale && d.leadingScale < 16

/-- A finite double in its shortest digits, a tie going to the even digit; a whole number has `.0`. -/
def numberText (x : Float) : List Char :=
  let d := shortest .even x
  withSign (isNegative x) <|
    if d.coefficient = 0 || writtenPlainly d then
      d.positional ++ (if d.places = 0 then ['.', '0'] else [])
    else
      d.scientific

end Millwork.Json
