import Millwork.Decimal.Text
/-!
# Tokens of a formula

A token is a lexeme together with the place where it begins, counted in bytes of UTF-8.
-/
namespace Millwork.Formula
inductive Lexeme
  | number (value : Float)
  | name (text : String)
  /-- The name of a field in brackets. -/
  | field (text : String)
  | plus
  | minus
  | star
  | slash
  | openParen
  | closeParen
  | comma
deriving DecidableEq

def Lexeme.description : Lexeme → String
  | .number x => "number " ++ Decimal.text x
  | .name text => "name '" ++ text ++ "'"
  | .field text => "field [" ++ text ++ "]"
  | .plus => "'+'"
  | .minus => "'-'"
  | .star => "'*'"
  | .slash => "'/'"
  | .openParen => "'('"
  | .closeParen => "')'"
  | .comma => "','"

structure Token where
  lexeme : Lexeme
  offset : Nat
deriving DecidableEq

end Millwork.Formula
