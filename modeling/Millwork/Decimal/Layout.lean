import Millwork.Decimal.Shortest
import Millwork.Decimal.Whole
/-!
# Layouts of a decimal number

The two ways to write a number: positional, with a point among its digits, and scientific, with one
digit before the point and an exponent behind the digits.
-/
namespace Millwork.Decimal
def digitsOf (n : Nat) : List Char :=
  Nat.toDigits 10 n

namespace Fixed
/-- The digits with a point before the last `places` of them; without places there is no point. -/
def positional (d : Fixed) : List Char :=
  if d.places = 0 then
    digitsOf d.coefficient
  else
    let unit := Nat.pow 10 d.places
    let fraction := digitsOf (d.coefficient % unit)
    digitsOf (d.coefficient / unit) ++ '.' ::
      (List.replicate (d.places - fraction.length) '0' ++ fraction)

def significantDigits (d : Fixed) : List Char :=
  ((digitsOf d.coefficient).reverse.dropWhile (· == '0')).reverse

def leadingScale (d : Fixed) : Int :=
  ((digitsOf d.coefficient).length : Int) - 1 - d.places

/-- One digit, a point and the others, as in `1.5e+21`; the exponent always has a sign. -/
def scientific (d : Fixed) : List Char :=
  let mantissa :=
    match d.significantDigits with
    | [] => ['0']
    | [digit] => [digit]
    | digit :: more => digit :: '.' :: more
  let sign := if d.leadingScale < 0 then '-' else '+'
  mantissa ++ 'e' :: sign :: digitsOf d.leadingScale.natAbs

end Fixed

def withSign (negative : Bool) (text : List Char) : List Char :=
  if negative then '-' :: text else text

/-- The plain text of a double: its shortest digits, a tie going up, and never an exponent. -/
def plainText (x : Float) : String :=
  if x.isNaN then "NaN"
  else if x.isInf then (if isNegative x then "-inf" else "inf")
  else String.ofList (withSign (isNegative x) (shortest .up x).positional)

end Millwork.Decimal
