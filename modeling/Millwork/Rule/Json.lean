import Millwork.Rule
import Millwork.Json.Record
import Millwork.Order.Json
/-!
# Rules as JSON

Rules and rule sets are records. Among the values of a condition anything may stand: what is no
string, boolean or number becomes NaN, which is the same as nothing and passes no comparison.
-/
namespace Millwork
open Json (Tree)

namespace Comparison
def toJson (comparison : Comparison) : Json :=
  .string comparison.name

/-- A comparison is its name, or an object with the name as its only key and `null` as its value. -/
def ofTree? : Tree → Option Comparison
  | .string name => name.string?.map ofName
  | .object [(name, .null)] => name.string?.map ofName
  | _ => none

end Comparison

namespace Condition
def toJson (condition : Condition) : Json :=
  .object [
    ("variable", .string condition.field),
    ("operator", condition.comparison.toJson),
    ("values", .array (condition.values.map Value.toJson))]

def valueOfTree? (depth : Nat) (tree : Tree) : Option Value :=
  (tree.toJson? depth).map fun json => (Value.ofJson? json).getD (.number Decimal.notANumber)

def valuesOfTree? (depth : Nat) : Tree → Option (List Value)
  | .null => some []
  | tree => tree.list? (valueOfTree? depth)

def ofTree? (depth : Nat) (tree : Tree) : Option Condition := do
  match ← tree.record? ["variable", "operator", "values"] with
  | [some field, some comparison, values] =>
    return {
      field := ← field.text?
      comparison := ← Comparison.ofTree? comparison
      values := ← (values.map (valuesOfTree? depth)).getD (some []) }
  | _ => none

end Condition

namespace Rule
def toJson (rule : Rule) : Json :=
  .object [
    ("conditions", .array (rule.conditions.map Condition.toJson)),
    ("formula", .string rule.formula)]

/-- The values of the conditions may be up to `depth` brackets deep. -/
def ofTree? (depth : Nat) (tree : Tree) : Option Rule := do
  match ← tree.record? ["conditions", "formula"] with
  | [conditions, some formula] =>
    return {
      conditions := ← (conditions.map (Tree.list? (Condition.ofTree? depth))).getD (some [])
      formula := ← formula.text? }
  | _ => none

/-- The values of a rule stand inside four brackets of it. -/
def ofJsonText? (text : String) : Option Rule :=
  (Tree.read? text.toList).bind (ofTree? (Json.depthLimit - 4))

end Rule

namespace RuleSet
def toJson (rules : RuleSet) : Json :=
  .object (rules.toList.map fun entry => (entry.1.name, .array (entry.2.map Rule.toJson)))

def rulesOfTree? (depth : Nat) (tree : Option Tree) : Option (List Rule) :=
  (tree.map (Tree.list? (Rule.ofTree? depth))).getD (some [])

/-- Every list of rules may be left out. -/
def ofTree? (depth : Nat) (tree : Tree) : Option RuleSet := do
  match ← tree.record? (Property.all.map Property.name) with
  | [length, width, thickness, boringPlacement, boreDepth, boreBoxHeight] =>
    return {
      length := ← rulesOfTree? depth length
      width := ← rulesOfTree? depth width
      thickness := ← rulesOfTree? depth thickness
      boringPlacement := ← rulesOfTree? depth boringPlacement
      boreDepth := ← rulesOfTree? depth boreDepth
      boreBoxHeight := ← rulesOfTree? depth boreBoxHeight }
  | _ => none

/-- The values of the rules of a rule set stand inside six brackets of it. -/
def ofJsonText? (text : String) : Option RuleSet :=
  (Tree.read? text.toList).bind (ofTree? (Json.depthLimit - 6))

end RuleSet
end Millwork
