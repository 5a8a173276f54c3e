/-!
# Functions of a formula

The functions that a formula may call, their names, and how many arguments they take.
-/
namespace Millwork.Formula
inductive Function
  | parseFloat
  | parseInt
  | number
  | round
  | floor
  | ceil
  | abs
  | min
  | max
deriving DecidableEq, Repr

namespace Function
def name : Function → String
  | parseFloat => "parseFloat"
  | parseInt => "parseInt"
  | number => "Number"
  | round => "Math.round"
  | floor => "Math.floor"
  | ceil => "Math.ceil"
  | abs => "Math.abs"
  | min => "Math.min"
  | max => "Math.max"

def all : List Function :=
  [parseFloat, parseInt, number, round, floor, ceil, abs, min, max]

def ofName? (text : String) : Option Function :=
  all.find? (·.name == text)

inductive Arity
  | exactlyOne
  | atLeastOne
deriving DecidableEq, Repr

def Arity.allows : Arity → Nat → Bool
  | exactlyOne, n => n == 1
  | atLeastOne, n => 1 ≤ n

def Arity.description : Arity → String
  | exactlyOne => "exactly 1"
  | atLeastOne => "at least 1"

def arity : Function → Arity
  | min | max => .atLeastOne
  | _ => .exactlyOne

end Function
end Millwork.Formula
