/-!
# JSON values

The values that JSON text stands for. The members of an object are kept in the order in which they
are written.
-/
namespace Millwork
inductive Json
  | null
  | bool (value : Bool)
  | number (value : Float)
  | string (text : String)
  | array (items : List Json)
  | object (members : List (String × Json))
deriving Inhabited

/-- The kinds of JSON values. -/
inductive Json.Kind
  | null
  | boolean
  | number
  | string
  | array
  | object
deriving DecidableEq, Repr

def Json.Kind.name : Json.Kind → String
  | .null => "null"
  | .boolean => "boolean"
  | .number => "number"
  | .string => "string"
  | .array => "array"
  | .object => "object"

def Json.kind : Json → Json.Kind
  | .null => .null
  | .bool _ => .boolean
  | .number _ => .number
  | .string _ => .string
  | .array _ => .array
  | .object _ => .object

end Millwork
