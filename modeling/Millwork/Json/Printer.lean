import Millwork.Json.Basic
import Millwork.Json.Quoted
import Millwork.Json.Numeral
/-!
# JSON text

The two written forms of a value: compact, without blanks, and spread over indented lines. A number
that is not finite is written as `null`.
-/
namespace Millwork.Json
def wordOf : Bool → List Char
  | true => ['t', 'r', 'u', 'e']
  | false => ['f', 'a', 'l', 's', 'e']

def nullText : List Char := ['n', 'u', 'l', 'l']

def scalarNumber (x : Float) : List Char :=
  if x.isFinite then numberText x else nullText

def separated (separator : List Char) : List (List Char) → List Char
  | [] => []
  | [text] => text
  | text :: more => text ++ separator ++ separated separator more

mutual
def compact : Json → List Char
  | .null => nullText
  | .bool b => wordOf b
  | .number x => scalarNumber x
  | .string s => quote s.toList
  | .array items => '[' :: separated [','] (compactItems items) ++ [']']
  | .object members => '{' :: separated [','] (compactMembers members) ++ ['}']

def compactItems : List Json → List (List Char)
  | [] => []
  | item :: more => compact item :: compactItems more

def compactMembers : List (String × Json) → List (List Char)
  | [] => []
  | (key, item) :: more => (quote key.toList ++ ':' :: compact item) :: compactMembers more
end

def newLine (level : Nat) : List Char :=
  '\n' :: List.replicate (2 * level) ' '

def bracketed (opening closing : Char) (level : Nat) (entries : List (List Char)) : List Char :=
  if entries.isEmpty then
    [opening, closing]
  else
    opening :: newLine (level + 1) ++ separated (',' :: newLine (level + 1)) entries ++
      newLine level ++ [closing]

mutual
/-- The spread form of a value that stands at the given level. -/
def spread (level : Nat) : Json → List Char
  | .null => nullText
  | .bool b => wordOf b
  | .number x => scalarNumber x
  | .string s => quote s.toList
  | .array items => bracketed '[' ']' level (spreadItems (level + 1) items)
  | .object members => bracketed '{' '}' level (spreadMembers (level + 1) members)

def spreadItems (level : Nat) : List Json → List (List Char)
  | [] => []
  | item :: more => spread level item :: spreadItems level more

def spreadMembers (level : Nat) : List (String × Json) → List (List Char)
  | [] => []
  | (key, item) :: more =>
    (quote key.toList ++ ':' :: ' ' :: spread level item) :: spreadMembers level more
end

def compactText (value : Json) : String :=
  String.ofList (compact value)

def prettyText (value : Json) : String :=
  String.ofList (spread 0 value)

end Millwork.Json
