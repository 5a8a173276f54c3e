import Millwork.Text.Blank
import Millwork.Text.Lower
/-!
# Labels

The key under which the value of a labelled line is kept: the label in small letters, its blanks,
slashes and hyphens turned into underscores, and all else but ASCII letters and digits left out.
-/
namespace Millwork.Label
open Text

def isSeparator (c : Char) : Bool :=
  isBlank c || c = '/' || c = '-'

/-- Every run of separators becomes one underscore; `inRun` tells that one has been written already. -/
def underscored (inRun : Bool) : List Char → List Char
  | [] => []
  | c :: rest =>
    if isSeparator c then
      if inRun then underscored true rest else '_' :: underscored true rest
    else
      c :: underscored false rest

def isKeyChar (c : Char) : Bool :=
  ('a' ≤ c && c ≤ 'z') || c.isDigit || c = '_'

def key (label : List Char) : List Char :=
  (underscored false (lower label)).filter isKeyChar

def keyString (label : String) : String :=
  String.ofList (key label.toList)

end Millwork.Label
