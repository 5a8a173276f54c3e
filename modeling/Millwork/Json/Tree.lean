import Std.Data.TreeMap
import Millwork.Json.Basic
import Millwork.Json.Token
/-!
# JSON trees

What a JSON text says before its scalars are judged: numbers and strings are kept as they are
written, members in the order in which they stand. A tree becomes a value if its numbers are within
the range of doubles, its strings are texts, and it is not too deep.
-/
namespace Millwork.Json
inductive Tree
  | null
  | bool (value : Bool)
  | number (value : Numeral)
  | string (value : Quoted)
  | array (items : List Tree)
  | object (members : List (Quoted × Tree))

namespace Tree
/-- An open bracket or brace with what has been read inside it, the last first. -/
inductive Frame
  | items (done : List Tree)
  | members (done : List (Quoted × Tree)) (key : Quoted)

/-- What may come next inside the innermost frame. -/
inductive Place
  /-- A value has to follow. -/
  | value
  /-- Right after an open bracket: a value or the closing bracket. -/
  | firstItem
  /-- Right after an open brace: a key or the closing brace. -/
  | firstKey
  | key (done : List (Quoted × Tree))
  | colon (done : List (Quoted × Tree)) (key : Quoted)
  /-- The value has been read in full. -/
  | after (value : Tree)

def begin? (frames : List Frame) : Token → Option (List Frame × Place)
  | .null => some (frames, .after .null)
  | .bool b => some (frames, .after (.bool b))
  | .number n => some (frames, .after (.number n))
  | .string s => some (frames, .after (.string s))
  | .openBracket => some (frames, .firstItem)
  | .openBrace => some (frames, .firstKey)
  | _ => none

def continue? (frames : List Frame) (value : Tree) (t : Token) : Option (List Frame × Place) :=
  match frames, t with
  | .items done :: outer, .comma => some (.items (value :: done) :: outer, .value)
  | .items done :: outer, .closeBracket => some (outer, .after (.array (value :: done).reverse))
  | .members done key :: outer, .comma => some (outer, .key ((key, value) :: done))
  | .members done key :: outer, .closeBrace =>
    some (outer, .after (.object ((key, value) :: done).reverse))
  | _, _ => none

def step? (state : List Frame × Place) (t : Token) : Option (List Frame × Place) :=
  match state.2, t with
  | .value, t => begin? state.1 t
  | .firstItem, .closeBracket => some (state.1, .after (.array []))
  | .firstItem, t => begin? (.items [] :: state.1) t
  | .firstKey, .closeBrace => some (state.1, .after (.object []))
  | .firstKey, .string key => some (state.1, .colon [] key)
  | .key done, .string key => some (state.1, .colon done key)
  | .colon done key, .colon => some (.members done key :: state.1, .value)
  | .after value, t => continue? state.1 value t
  | _, _ => none

def ofTokens? (tokens : List Token) : Option Tree :=
  match tokens.foldlM step? ([], .value) with
  | some ([], .after value) => some value
  | _ => none

/-- The tree of a whole text. -/
def read? (s : List Char) : Option Tree :=
  (Token.all? s).bind ofTokens?

end Tree

/-- The members by key, each key with the last of its values. -/
def sortMembers (members : List (String × Json)) : List (String × Json) :=
  (Std.TreeMap.ofList members compare).toList

/-- Brackets and braces may stand at most this deep within each other. -/
def depthLimit : Nat := 127

namespace Tree
mutual
/-- The value of a tree with at most `depth` brackets and braces within each other. -/
def toJson? (depth : Nat) : Tree → Option Json
  | .null => some .null
  | .bool b => some (.bool b)
  | .number n => n.value?.map .number
  | .string s => s.string?.map .string
  | .array items =>
    match depth with
    | 0 => none
    | depth + 1 => (itemsToJson? depth items).map .array
  | .object members =>
    match depth with
    | 0 => none
    | depth + 1 => (membersToJson? depth members).map fun found => .object (sortMembers found)

def itemsToJson? (depth : Nat) : List Tree → Option (List Json)
  | [] => some []
  | item :: more =>
    match toJson? depth item, itemsToJson? depth more with
    | some value, some values => some (value :: values)
    | _, _ => none

def membersToJson? (depth : Nat) : List (Quoted × Tree) → Option (List (String × Json))
  | [] => some []
  | (key, item) :: more =>
    match key.string?, toJson? depth item, membersToJson? depth more with
    | some name, some value, some values => some ((name, value) :: values)
    | _, _, _ => none
end

end Tree

/-- The value of a JSON text. -/
def read? (text : String) : Option Json :=
  (Tree.read? text.toList).bind (Tree.toJson? depthLimit)

end Millwork.Json
