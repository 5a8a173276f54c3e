import Millwork.Decimal.Text
import Millwork.Decimal.Whole
import Millwork.Order
import Millwork.Formula.Expr
/-!
# Values of expressions

Every operand counts as a number; only the functions that read a number from the front of a text see
the text of a field itself. A field that the order lacks is NaN.
-/
namespace Millwork.Formula
inductive Operand
  | number (value : Float)
  | field (value : Value)
  | missing

namespace Operand
def toNumber : Operand → Float
  | number x => x
  | field value => value.toNumber
  | missing => Decimal.notANumber

def toText : Operand → String
  | number x => Decimal.text x
  | field value => value.toText
  | missing => "undefined"

end Operand

def Operator.apply : Operator → Float → Float → Float
  | .add, a, b => a + b
  | .sub, a, b => a - b
  | .mul, a, b => a * b
  | .div, a, b => a / b

def roundHalfUp (x : Float) : Float :=
  if Decimal.isWhole x || !x.isFinite then x else Decimal.floor (x + 0.5)

def pick (before : Float → Float → Bool) (a b : Float) : Float :=
  if a.isNaN || b.isNaN then Decimal.notANumber else if before a b then a else b

namespace Function
def firstNumber (args : List Operand) : Float :=
  (args.head?.map Operand.toNumber).getD Decimal.notANumber

def firstText (args : List Operand) : List Char :=
  (args.head?.map fun arg => arg.toText.toList).getD []

def apply (function : Function) (args : List Operand) : Float :=
  match function with
  | parseFloat => Decimal.readFront (firstText args)
  | parseInt => Decimal.readWholeFront (firstText args)
  | number => firstNumber args
  | round => roundHalfUp (firstNumber args)
  | floor => Decimal.floor (firstNumber args)
  | ceil => Decimal.ceil (firstNumber args)
  | abs => (firstNumber args).abs
  | min => (args.map Operand.toNumber).foldl (pick fun a b => a < b) (Decimal.infinity false)
  | max => (args.map Operand.toNumber).foldl (pick fun a b => b < a) (Decimal.infinity true)

end Function

namespace Expr
mutual
def eval (order : Order) : Expr → Operand
  | .number x => .number x
  | .field name =>
    match order.get? name with
    | some value => .field value
    | none => .missing
  | .neg operand => .number (-(eval order operand).toNumber)
  | .binary op lhs rhs => .number (op.apply (eval order lhs).toNumber (eval order rhs).toNumber)
  | .call function args => .number (function.apply (evalAll order args))

def evalAll (order : Order) : List Expr → List Operand
  | [] => []
  | e :: more => eval order e :: evalAll order more
end

end Expr
end Millwork.Formula
