import Millwork.Decimal.Nearest
/-!
# Whole numbers among the doubles

A finite double is `± significand * 2 ^ exponent`; its whole part and the whole numbers below and
above it are found by dividing the significand.
-/
namespace Millwork.Decimal
def isWhole (x : Float) : Bool :=
  match x.toModel.unpack with
  | .zero _ => true
  | .finite _ significand exponent _ => significand % Nat.pow 2 (-exponent).toNat == 0
  | _ => false

/-- The whole part of the absolute value; `0` unless the double is finite. -/
def wholePart (x : Float) : Nat :=
  match x.toModel.unpack with
  | .finite _ significand exponent _ =>
    significand * Nat.pow 2 exponent.toNat / Nat.pow 2 (-exponent).toNat
  | _ => 0

def isNegative (x : Float) : Bool :=
  match x.toModel.unpack with
  | .infinity sign | .zero sign | .finite sign _ _ _ => sign == .negative
  | .notANumber => false

/-- The greatest whole number not above `x`; zeros, infinities and NaN are left as they are. -/
def floor (x : Float) : Float :=
  if isWhole x || !x.isFinite then x
  else if isNegative x then -nearest (wholePart x + 1) 0
  else nearest (wholePart x) 0

/-- The least whole number not below `x`; it is the negative zero between -1 and 0. -/
def ceil (x : Float) : Float :=
  if isWhole x || !x.isFinite then x
  else if isNegative x then -nearest (wholePart x) 0
  else nearest (wholePart x + 1) 0

end Millwork.Decimal
