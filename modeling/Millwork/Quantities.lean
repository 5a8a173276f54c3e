import Millwork.Property
import Millwork.Json.Record
import Millwork.Json.Printer
/-!
# Quantities

One number for each property.
-/
namespace Millwork
abbrev Quantities := Property.Table Float

namespace Quantities
def defaults : Quantities :=
  .ofFunction Property.default

/-- Whether two tables hold the same numbers; a NaN is not the same as itself. -/
def same (a b : Quantities) : Bool :=
  Property.all.all fun p => a.get p == b.get p

def toJson (quantities : Quantities) : Json :=
  .object (quantities.toList.map fun entry => (entry.1.name, .number entry.2))

/-- All six members are needed, and each has to be a number. -/
def ofTree? (tree : Json.Tree) : Option Quantities := do
  match ← tree.record? (Property.all.map Property.name) with
  | [some length, some width, some thickness, some boringPlacement, some boreDepth,
      some boreBoxHeight] =>
    return {
      length := ← length.number?
      width := ← width.number?
      thickness := ← thickness.number?
      boringPlacement := ← boringPlacement.number?
      boreDepth := ← boreDepth.number?
      boreBoxHeight := ← boreBoxHeight.number? }
  | _ => none

def ofJsonText? (text : String) : Option Quantities :=
  (Json.Tree.read? text.toList).bind ofTree?

end Quantities
end Millwork
