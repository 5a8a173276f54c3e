import Millwork.Order
import Millwork.Note.Label
import Millwork.Repository.Key
/-!
# The rule set of an order

The key of the rule set that an order calls for: a fixed one if its flag is set, else its style in
small letters and digits with the suffix of the product family behind it.
-/
namespace Millwork
structure Options where
  styleField : String := "Select Door Style"
  flagField : String := "Metal Framed Hinged Door?"
  /-- The key that the flag calls for. -/
  overrideKey : String := "hingedmetaldoors"
  familySuffix : String := "doors"

namespace Order
/-- A field by its label, or by the key that a note keeps that label under. -/
def labelled? (order : Order) (label : String) : Option Value :=
  (order.get? label).or (order.get? (Label.keyString label))

end Order

namespace Value
/-- A flag that is on, or the word yes. -/
def isSet : Value → Bool
  | .bool flag => flag
  | .text s => s.toList.map Char.toLower == "yes".toList || s.toList.map Char.toLower == "y".toList
  | .number _ => false

/-- Off, zero, NaN, or no text. -/
def isBlank : Value → Bool
  | .bool flag => !flag
  | .number x => x == 0.0 || x.isNaN
  | .text s => s.isEmpty

end Value

namespace Options
def isStyleChar (c : Char) : Bool :=
  ('a' ≤ c && c ≤ 'z') || c.isDigit

/-- The style of an order as part of a key. -/
def styleOf (style : Option Value) : List Char :=
  match style with
  | some value => if value.isBlank then [] else (Text.lower value.toText.toList).filter isStyleChar
  | none => []

def keyFor (options : Options) (order : Order) : String :=
  if (order.labelled? options.flagField).any Value.isSet then
    RuleSet.keyOf options.overrideKey
  else
    RuleSet.keyOf (String.ofList (styleOf (order.labelled? options.styleField)) ++ options.familySuffix)

end Options
end Millwork
