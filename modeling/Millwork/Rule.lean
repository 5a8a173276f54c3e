import Millwork.Property
import Millwork.Order
/-!
# Rules

A rule is a formula with conditions on the fields of an order; without conditions it always applies.
A rule set has an ordered list of rules for each property.
-/
namespace Millwork
/-- How a condition compares a field with its values. -/
inductive Comparison
  | contains
  | notContains
  | gte
  | lte
  /-- Any other comparison; it never holds. -/
  | unsupported
deriving DecidableEq, Repr

structure Condition where
  field : String
  comparison : Comparison
  values : List Value

structure Rule where
  conditions : List Condition
  formula : String

namespace Comparison
def name : Comparison → String
  | contains => "contains"
  | notContains => "notContains"
  | gte => "gte"
  | lte => "lte"
  | unsupported => "unsupported"

def ofName (text : String) : Comparison :=
  ([contains, notContains, gte, lte].find? (·.name == text)).getD unsupported

end Comparison

namespace Condition
/-- Whether the field is there and is the same as one of the values. -/
def listed (values : List Value) (actual : Option Value) : Bool :=
  actual.any fun value => values.any (·.same value)

def numberOf (value : Option Value) : Float :=
  (value.map Value.toNumber).getD Decimal.notANumber

def holds (condition : Condition) (order : Order) : Bool :=
  let actual := order.get? condition.field
  match condition.comparison with
  | .contains => listed condition.values actual
  | .notContains => !listed condition.values actual
  | .gte => numberOf condition.values.head? ≤ numberOf actual
  | .lte => numberOf actual ≤ numberOf condition.values.head?
  | .unsupported => false

end Condition

/-- A rule without conditions. -/
def Rule.always (formula : String) : Rule := ⟨[], formula⟩

def Rule.applies (rule : Rule) (order : Order) : Bool :=
  rule.conditions.all (·.holds order)

/-- The rules of each property; of the rules that apply the last one counts. -/
abbrev RuleSet := Property.Table (List Rule)

namespace RuleSet
def empty : RuleSet :=
  .ofFunction fun _ => []

def addRule (rules : RuleSet) (property : Property) (rule : Rule) : RuleSet :=
  rules.set property (rules.get property ++ [rule])

def isEmpty (rules : RuleSet) : Bool :=
  Property.all.all fun p => (rules.get p).isEmpty

end RuleSet
end Millwork
