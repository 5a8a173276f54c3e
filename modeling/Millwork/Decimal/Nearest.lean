/-!
# Doubles of decimal numbers

The double nearest to a decimal number, and decimal numbers with a fixed count of places.
-/
namespace Millwork.Decimal
/-- The double nearest to `significand * 10 ^ scale`, a tie going to the even one. -/
def nearest (significand : Nat) (scale : Int) : Float :=
  if scale < 0 then
    Float.ofScientific significand true (-scale).toNat
  else
    Float.ofScientific significand false scale.toNat

/-- The double nearest to `± significand * 10 ^ scale`; a negated zero is the negative zero. -/
def nearestSigned (negative : Bool) (significand : Nat) (scale : Int) : Float :=
  if negative then -nearest significand scale else nearest significand scale

def infinity (negative : Bool) : Float :=
  if negative then -(1.0 / 0.0) else 1.0 / 0.0

def notANumber : Float :=
  0.0 / 0.0

/-- The number `coefficient / 10 ^ places`. -/
structure Fixed where
  coefficient : Nat
  places : Nat
deriving DecidableEq, Repr

namespace Fixed
def toFloat (d : Fixed) : Float :=
  nearest d.coefficient (-d.places)

def scaled (coefficient : Nat) (scale : Int) : Fixed :=
  if scale < 0 then ⟨coefficient, (-scale).toNat⟩ else ⟨coefficient * Nat.pow 10 scale.toNat, 0⟩

end Fixed
end Millwork.Decimal
