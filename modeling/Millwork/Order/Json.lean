import Millwork.Order
import Millwork.Json.Tree
import Millwork.Json.Printer
import Millwork.Json.Mismatch
/-!
# Orders as JSON

An order is an object with one member for each field, followed by the links under a key of their own
if there are any.
-/
namespace Millwork
def Value.toJson : Value → Json
  | .bool flag => .bool flag
  | .number x => .number x
  | .text s => .string s

def Value.ofJson? : Json → Option Value
  | .bool flag => some (.bool flag)
  | .number x => some (.number x)
  | .string s => some (.text s)
  | _ => none

namespace Order
/-- The key of the links. -/
def linksKey : String := "_urls"

def toJson (order : Order) : Json :=
  .object <|
    order.toList.map (fun field => (field.1, field.2.toJson)) ++
      (if order.links.isEmpty then [] else [(linksKey, .array (order.links.map .string))])

def linkOfJson : Json → Except Json.Mismatch String
  | .string link => .ok link
  | other => .error ⟨.string, other.kind⟩

/-- Takes over one member: a field, or the links if it has their key. -/
def addMember (order : Order) (member : String × Json) : Except Json.Mismatch Order :=
  if member.1 = linksKey then
    match member.2 with
    | .array items => (items.mapM linkOfJson).map fun links => order.withLinks (order.links ++ links)
    | other => .error ⟨.array, other.kind⟩
  else
    match Value.ofJson? member.2 with
    | some value => .ok (order.insert member.1 value)
    | none => .error ⟨.scalar, member.2.kind⟩

/-- The members are taken over by key, so the first one that is wrong decides the error. -/
def ofJson : Json → Except Json.Mismatch Order
  | .object members => (Json.sortMembers members).foldlM addMember empty
  | other => .error ⟨.object, other.kind⟩

end Order
end Millwork
