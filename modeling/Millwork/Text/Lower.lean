import Millwork.Text.Lower.Table
import Millwork.Text.Lower.Context
/-!
# Small letters

Lower-casing of a whole text: every capital letter becomes its small letter, and a capital sigma at
the end of a word becomes the final form.
-/
namespace Millwork.Text
/-- Only `İ` has a small form of two characters, an `i` and a combining dot. -/
def lowerChar (c : Char) : List Char :=
  if c.toNat < 0x80 then
    [c.toLower]
  else if c = 'İ' then
    ['i', '\u0307']
  else
    match capitalRuns.find? (·.contains c.toNat) with
    | some run => [Char.ofNat (c.toNat + run.shift).toNat]
    | none => [c]

def startsCased (s : List Char) : Bool :=
  match s.dropWhile isCaseIgnorable with
  | c :: _ => isCased c
  | [] => false

/-- Lower-cases a text that follows `before`, which is given from its end to its start. -/
def lowerAfter (before : List Char) : List Char → List Char
  | [] => []
  | c :: rest =>
    (if c = 'Σ' && startsCased before && !startsCased rest then ['ς'] else lowerChar c) ++
      lowerAfter (c :: before) rest

def lower (s : List Char) : List Char :=
  lowerAfter [] s

def lowerString (s : String) : String :=
  String.ofList (lower s.toList)

end Millwork.Text
