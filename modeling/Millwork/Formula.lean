import Millwork.Formula.Lexer
import Millwork.Formula.Parser
import Millwork.Formula.Eval
/-!
# Formulas

A formula is a text that spells an arithmetic expression over the fields of an order.
-/
namespace Millwork
structure Formula where
  source : String
  expr : Formula.Expr

namespace Formula
/-- A text that is not a formula, and why. -/
structure Failure where
  source : String
  cause : Error
deriving DecidableEq

def Failure.message (failure : Failure) : String :=
  "failed to evaluate formula '" ++ failure.source ++ "': " ++ failure.cause.message

def exprOf (source : String) : Except Error Expr :=
  (tokens source).bind Expr.ofTokens

def parse (source : String) : Except Failure Formula :=
  match exprOf source with
  | .ok expr => .ok ⟨source, expr⟩
  | .error cause => .error ⟨source, cause⟩

def evaluate (formula : Formula) (order : Order) : Float :=
  (formula.expr.eval order).toNumber

/-- The value of a formula that is given as text. -/
def evaluateText (source : String) (order : Order) : Except Failure Float :=
  (parse source).map (·.evaluate order)

end Formula
end Millwork
