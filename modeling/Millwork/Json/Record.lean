import Millwork.Json.Tree
/-!
# Records in JSON

A record with named members is written as an object, or as an array of its members in the order of
their declaration. Unknown members of an object are passed over, whatever they hold; a known member
may not be given twice.
-/
namespace Millwork.Json.Tree
/-- The text of every key; none if one is not a text. -/
def namedMembers? : List (Quoted × Tree) → Option (List (String × Tree))
  | [] => some []
  | (key, value) :: more =>
    match key.string?, namedMembers? more with
    | some name, some rest => some ((name, value) :: rest)
    | _, _ => none

/-- What the members give for `name`: nothing, one value, or too many, which is an error. -/
def given? (members : List (String × Tree)) (name : String) : Option (Option Tree) :=
  match members.filter (·.1 == name) with
  | [] => some none
  | [(_, value)] => some (some value)
  | _ => none

/-- For each of the names the value that a tree gives it, if any; none if the tree is no such record. -/
def record? (names : List String) : Tree → Option (List (Option Tree))
  | .object members => (namedMembers? members).bind fun named => names.mapM (given? named)
  | .array items =>
    if items.length ≤ names.length then
      some (items.map some ++ List.replicate (names.length - items.length) none)
    else
      none
  | _ => none

def text? : Tree → Option String
  | .string quoted => quoted.string?
  | _ => none

def number? : Tree → Option Float
  | .number numeral => numeral.value?
  | _ => none

def list? {α : Type} (item : Tree → Option α) : Tree → Option (List α)
  | .array items => items.mapM item
  | _ => none

end Millwork.Json.Tree
