import Millwork.Calculation.Options
import Millwork.Formula
import Millwork.Quantities
import Millwork.Rule
/-!
# Calculations

The quantities of an order by a rule set. For each property the last rule that applies gives the
formula; without such a rule, or if its formula is none, the value is the default. What happens to
one property is without effect on the others.
-/
namespace Millwork
inductive Outcome
  | evaluated (value : Float)
  | noMatch
  | failed (failure : Formula.Failure)
  /-- The formula gave NaN or an infinity, and that is kept. -/
  | nonFinite (value : Float)

/-- How the value of a property was found. -/
structure Trace where
  property : Property
  /-- How many rules there are for the property. -/
  considered : Nat
  /-- The places of the rules that apply. -/
  matched : List Nat
  selected : Option Nat
  formula : Option String
  outcome : Outcome
  value : Float

/-- The places of the rules that apply, in order. -/
def matchedRules (rules : List Rule) (order : Order) : List Nat :=
  (rules.zipIdx.filter fun (rule, _) => rule.applies order).map Prod.snd

def selectedRule? (rules : List Rule) (order : Order) : Option (Rule × Nat) :=
  (rules.zipIdx.filter fun (rule, _) => rule.applies order).getLast?

def Outcome.ofFormula (property : Property) (formula : String) (order : Order) : Outcome × Float :=
  match Formula.evaluateText formula order with
  | .ok value => (if value.isFinite then .evaluated value else .nonFinite value, value)
  | .error failure => (.failed failure, property.default)

def Trace.of (property : Property) (rules : List Rule) (order : Order) : Trace :=
  let matched := matchedRules rules order
  match selectedRule? rules order with
  | some (rule, place) =>
    let (outcome, value) := Outcome.ofFormula property rule.formula order
    ⟨property, rules.length, matched, some place, some rule.formula, outcome, value⟩
  | none => ⟨property, rules.length, matched, none, none, .noMatch, property.default⟩

structure Calculation where
  /-- The key of the rule set. -/
  key : String
  /-- Whether the rule set has no rules at all. -/
  withoutRules : Bool
  quantities : Quantities
  traces : List Trace

namespace Calculation
/-- Works out every property by the given rule set, which is known by `key`. -/
def ofRules (key : String) (rules : RuleSet) (order : Order) : Calculation :=
  let traces := Property.all.map fun property => Trace.of property (rules.get property) order
  { key
    withoutRules := rules.isEmpty
    quantities := traces.foldl (fun table trace => table.set trace.property trace.value)
      Quantities.defaults
    traces }

/-- Works out an order, asking a source of rule sets for the one that the order calls for. -/
def run {σ : Type} (resolve : σ → String → RuleSet × σ) (source : σ) (options : Options)
    (order : Order) : Calculation × σ :=
  let key := options.keyFor order
  let found := resolve source key
  (ofRules key found.1 order, found.2)

end Calculation
end Millwork
