import Millwork.Decimal.Text
/-!
# Field values

The value of an order field: a flag, a number or a text. Every value can be read as a number and
written as a text.
-/
namespace Millwork
inductive Value
  | bool (flag : Bool)
  | number (amount : Float)
  | text (content : String)
deriving DecidableEq

namespace Value
/-- The value as a number: a flag is 1 or 0, a text is what it reads as, or NaN. -/
def toNumber : Value → Float
  | .bool flag => if flag then 1.0 else 0.0
  | .number x => x
  | .text s => Decimal.readAll s.toList

def toText : Value → String
  | .bool flag => if flag then "true" else "false"
  | .number x => Decimal.text x
  | .text s => s

/-- Values of different kinds are never the same, nor is NaN the same as anything. -/
def same : Value → Value → Bool
  | .bool a, .bool b => a == b
  | .number a, .number b => a == b
  | .text a, .text b => a == b
  | _, _ => false

def asBool? : Value → Option Bool
  | .bool flag => some flag
  | _ => none

def asNumber? : Value → Option Float
  | .number x => some x
  | _ => none

def asText? : Value → Option String
  | .text s => some s
  | _ => none

def ofInt (n : Int) : Value :=
  .number (Decimal.nearestSigned (n < 0) n.natAbs 0)

end Value
end Millwork
