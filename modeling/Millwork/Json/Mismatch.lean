import Millwork.Json.Basic
/-!
# Values of the wrong kind

The error for a JSON value that is not of the kind that is asked for.
-/
namespace Millwork.Json
inductive Expected
  | object
  | array
  | string
  /-- A string, a boolean or a number. -/
  | scalar
deriving DecidableEq, Repr

def Expected.name : Expected → String
  | .object => "object"
  | .array => "array"
  | .string => "string"
  | .scalar => "string, boolean or number"

structure Mismatch where
  expected : Expected
  found : Kind
deriving DecidableEq, Repr

def Mismatch.message (m : Mismatch) : String :=
  "invalid input type: expected " ++ m.expected.name ++ ", got " ++ m.found.name

end Millwork.Json
