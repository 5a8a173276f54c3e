import Millwork.Text.Blank
import Millwork.Decimal.Literal
import Millwork.Decimal.Layout
/-!
# Numbers in text

Three ways to read a number from a text: strictly, the whole text being one number; loosely, from
the longest number at its front; and loosely with digits only. What cannot be read is NaN. The
written form of a number reads back as that number.
-/
namespace Millwork.Decimal
def infinityWord : List Char :=
  ['I', 'n', 'f', 'i', 'n', 'i', 't', 'y']

/-- Blanks around the number are allowed, and a blank text is zero. -/
def readAll (s : List Char) : Float :=
  let t := Text.trim s
  if t.isEmpty then
    0.0
  else
    let signed := splitSign t
    let negative := signed.1 == some '-'
    if signed.2 = infinityWord then
      infinity negative
    else
      match Literal.read? signed.2 with
      | some (l, []) => nearestSigned negative l.significand l.scale
      | _ => notANumber

/-- Whatever follows the longest number at the front is left out. -/
def readFront (s : List Char) : Float :=
  let signed := splitSign (Text.skipBlanks s)
  let negative := signed.1 == some '-'
  if infinityWord.isPrefixOf signed.2 then
    infinity negative
  else
    match Literal.read? signed.2 with
    | some (l, _) => nearestSigned negative l.significand l.scale
    | none => notANumber

/-- Whatever follows the sign and the digits at the front is left out. -/
def readWholeFront (s : List Char) : Float :=
  let signed := splitSign (Text.skipBlanks s)
  let digits := digitsAtFront signed.2
  if digits.isEmpty then notANumber
  else nearestSigned (signed.1 == some '-') (ofDigits digits) 0

/-- Whole numbers below `10 ^ 15` are written as integers, and so is the negative zero. -/
def text (x : Float) : String :=
  if x.isInf then
    (if isNegative x then "-Infinity" else "Infinity")
  else if isWhole x && x.abs < 1e15 then
    String.ofList (withSign (isNegative x && wholePart x != 0) (digitsOf (wholePart x)))
  else
    plainText x

end Millwork.Decimal
