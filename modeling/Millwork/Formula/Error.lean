import Millwork.Formula.Token
import Millwork.Formula.Function
/-!
# Errors of a formula

Why a text is not a formula. Offsets are counted in bytes of UTF-8.
-/
namespace Millwork.Formula
inductive Error
  | unexpectedChar (char : Char) (offset : Nat)
  /-- An open bracket without a closing one. -/
  | unterminatedField (offset : Nat)
  | unexpectedToken (token : Token)
  | unexpectedEnd
  | empty
  | unknownFunction (name : String)
  | wrongArity (function : Function) (found : Nat)
  | tooDeep (limit : Nat)
  | tooLong (limit : Nat)
deriving DecidableEq

def Error.message : Error → String
  | unexpectedChar char offset =>
    "unexpected character '" ++ char.toString ++ "' at offset " ++ toString offset
  | unterminatedField offset =>
    "unterminated field reference starting at offset " ++ toString offset
  | unexpectedToken token =>
    "unexpected " ++ token.lexeme.description ++ " at offset " ++ toString token.offset
  | unexpectedEnd => "unexpected end of formula"
  | empty => "empty formula"
  | unknownFunction name => "function '" ++ name ++ "' is not available in formulas"
  | wrongArity function found =>
    "function '" ++ function.name ++ "' expects " ++ function.arity.description ++
      " argument(s), got " ++ toString found
  | tooDeep limit => "formula nests deeper than " ++ toString limit ++ " levels"
  | tooLong limit => "formula has more than " ++ toString limit ++ " tokens"

end Millwork.Formula
