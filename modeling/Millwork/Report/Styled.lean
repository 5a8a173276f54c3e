/-!
# Styled text

Text with colours and weights, and how it looks on a terminal that shows them and on one that does
not.
-/
namespace Millwork
inductive Style
  | red
  | green
  | yellow
  | blue
  | cyan
  | gray
  | bold
  | dim
deriving DecidableEq, Repr

def Style.code : Style → String
  | red => "31"
  | green => "32"
  | yellow => "33"
  | blue => "34"
  | cyan => "36"
  | gray => "90"
  | bold => "1"
  | dim => "2"

inductive Styled
  | text (content : String)
  | styled (style : Style) (inside : Styled)
  /-- Filled up with blanks to at least `width` characters, those of the escapes counted. -/
  | padded (width : Nat) (inside : Styled)
  | append (first second : Styled)

namespace Styled
instance : Append Styled := ⟨append⟩

instance : Coe String Styled := ⟨text⟩

def escape (code : String) : List Char :=
  '\x1b' :: '[' :: code.toList ++ ['m']

/-- The characters to be written, with escapes for the styles or without. -/
def render (color : Bool) : Styled → List Char
  | text content => content.toList
  | styled style inside =>
    if color then escape style.code ++ inside.render color ++ escape "0" else inside.render color
  | padded width inside =>
    let shown := inside.render color
    shown ++ List.replicate (width - shown.length) ' '
  | append first second => first.render color ++ second.render color

end Styled

namespace Style
def paint (style : Style) (inside : Styled) : Styled :=
  .styled style inside

end Style
end Millwork
