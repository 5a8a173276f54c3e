import Millwork.Formula.Function
/-!
# Expressions

The tree of a formula.
-/
namespace Millwork.Formula
inductive Operator
  | add
  | sub
  | mul
  | div
deriving DecidableEq, Repr

inductive Expr
  | number (value : Float)
  | field (name : String)
  | neg (operand : Expr)
  | binary (op : Operator) (lhs rhs : Expr)
  | call (function : Function) (args : List Expr)

end Millwork.Formula
