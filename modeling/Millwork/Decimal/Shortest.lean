import Millwork.Decimal.Nearest
/-!
# The shortest decimal of a double

Of the decimal grids, the multiples of a power of ten, the coarsest one is taken on which a number
reads back as the given double; of two such numbers on it the nearer one is chosen.
-/
namespace Millwork.Decimal
inductive Tie
  | up
  | even
deriving DecidableEq

structure Ratio where
  numerator : Nat
  denominator : Nat

namespace Ratio
/-- The number `significand * 2 ^ exponent`. -/
def binary (significand : Nat) (exponent : Int) : Ratio :=
  ⟨significand * Nat.pow 2 exponent.toNat, Nat.pow 2 (-exponent).toNat⟩

def inUnits (r : Ratio) (scale : Int) : Ratio :=
  ⟨r.numerator * Nat.pow 10 (-scale).toNat, r.denominator * Nat.pow 10 scale.toNat⟩

def below (r : Ratio) : Nat :=
  r.numerator / r.denominator

def prefersAbove (r : Ratio) (tie : Tie) : Bool :=
  match compare (2 * (r.numerator % r.denominator)) r.denominator with
  | .lt => false
  | .gt => true
  | .eq => tie == .up || r.below % 2 == 1

end Ratio

def onGrid? (x : Float) (r : Ratio) (tie : Tie) (scale : Int) : Option Fixed :=
  let units := r.inUnits scale
  let lower := Fixed.scaled units.below scale
  let upper := Fixed.scaled (units.below + 1) scale
  let (first, second) := if units.prefersAbove tie then (upper, lower) else (lower, upper)
  if first.toFloat = x then some first
  else if second.toFloat = x then some second
  else none

def coarsest? (x : Float) (r : Ratio) (tie : Tie) (scale : Int) : Nat → Option Fixed
  | 0 => none
  | grids + 1 =>
    match onGrid? x r tie scale with
    | some d => some d
    | none => coarsest? x r tie (scale - 1) grids

def topScale (significand : Nat) (exponent : Int) : Int :=
  Int.fdiv ((significand.log2 + 1 + exponent) * 30103) 100000 + 1

def exactly (significand : Nat) (exponent : Int) : Fixed :=
  ⟨significand * Nat.pow 2 exponent.toNat * Nat.pow 5 (-exponent).toNat, (-exponent).toNat⟩

/-- The shortest decimal of the absolute value of a finite double. Seventeen digits always suffice. -/
def shortest (tie : Tie) (x : Float) : Fixed :=
  match x.toModel.unpack with
  | .finite _ significand exponent _ =>
    (coarsest? x.abs (.binary significand exponent) tie (topScale significand exponent) 20).getD
      (exactly significand exponent)
  | _ => ⟨0, 0⟩

end Millwork.Decimal
