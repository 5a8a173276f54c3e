import Mathlib.Data.List.Nodup
import Millwork.Rule.Json
import Millwork.Proofs.Json.Member
/-!
# What rules are read from

A rule set, a rule and a condition are read exactly if their trees are records and each of their members can
be read.
-/
namespace Millwork
open Json (Tree)

variable {depth : Nat} {t : Tree}

namespace Condition
def memberNames : List String := ["variable", "operator", "values"]

theorem ofTree?_eq_some_iff (condition : Condition) :
    ofTree? depth t = some condition ↔
      t.IsRecord memberNames ∧
      (t.member? memberNames "variable").bind Tree.text? = some condition.field ∧
      (t.member? memberNames "operator").bind Comparison.ofTree? = some condition.comparison ∧
      ((t.member? memberNames "values").map (valuesOfTree? depth)).getD (some []) =
        some condition.values := by
  obtain ⟨field, comparison, values⟩ := condition
  unfold memberNames
  by_cases hr : t.IsRecord ["variable", "operator", "values"]
  · have hg := Tree.record?_eq (by decide) hr
    simp only [List.map_cons, List.map_nil] at hg
    rw [ofTree?, hg]
    cases t.member? ["variable", "operator", "values"] "variable" <;>
      cases t.member? ["variable", "operator", "values"] "operator" <;>
      simp [Option.bind_eq_some_iff, hr]
  · have hg : t.record? ["variable", "operator", "values"] = none := by simpa [Tree.IsRecord] using hr
    simp [ofTree?, hg, hr]

theorem map_itemsOf_values {given : Option Tree} {values : List Value}
    (h : (given.map (valuesOfTree? depth)).getD (some []) = some values) :
    (Tree.itemsOf given).map (valueOfTree? depth) = values.map some := by
  cases given with
  | none =>
    cases h
    rfl
  | some list =>
    cases list with
    | null =>
      cases h
      rfl
    | array items => exact Tree.mapM_eq_some_iff.1 h
    | _ => cases h

end Condition

namespace Rule
def memberNames : List String := ["conditions", "formula"]

theorem ofTree?_eq_some_iff (rule : Rule) :
    ofTree? depth t = some rule ↔
      t.IsRecord memberNames ∧
      ((t.member? memberNames "conditions").map (Tree.list? (Condition.ofTree? depth))).getD (some []) =
        some rule.conditions ∧
      (t.member? memberNames "formula").bind Tree.text? = some rule.formula := by
  obtain ⟨conditions, formula⟩ := rule
  unfold memberNames
  by_cases hr : t.IsRecord ["conditions", "formula"]
  · have hg := Tree.record?_eq (by decide) hr
    simp only [List.map_cons, List.map_nil] at hg
    rw [ofTree?, hg]
    cases t.member? ["conditions", "formula"] "formula" <;> simp [Option.bind_eq_some_iff, hr]
  · have hg : t.record? ["conditions", "formula"] = none := by simpa [Tree.IsRecord] using hr
    simp [ofTree?, hg, hr]

end Rule

namespace RuleSet
def memberNames : List String := Property.all.map Property.name

private theorem memberNames_nodup : memberNames.Nodup := by decide

theorem name_injective : Function.Injective Property.name := fun p q h =>
  List.inj_on_of_nodup_map memberNames_nodup (Property.mem_all p) (Property.mem_all q) h

theorem ofTree?_eq_some_iff (rules : RuleSet) :
    ofTree? depth t = some rules ↔
      t.IsRecord memberNames ∧
      ∀ property, rulesOfTree? depth (t.member? memberNames (Property.name property)) =
        some (rules.get property) := by
  by_cases hr : t.IsRecord memberNames
  · have hg : t.record? (Property.all.map Property.name) =
        some (Property.all.map fun property => t.member? memberNames property.name) := by
      rw [← memberNames, Tree.record?_eq memberNames_nodup hr, memberNames, List.map_map]
      rfl
    rw [ofTree?, hg]
    simp only [Property.all, List.map_cons, List.map_nil, Option.bind_eq_bind, Option.bind_some,
      Option.bind_eq_some_iff, hr, true_and]
    constructor
    · rintro ⟨_, hlength, _, hwidth, _, hthickness, _, hplacement, _, hdepth, _, hheight, he⟩ property
      cases he
      cases property <;> assumption
    · intro h
      exact ⟨_, h .length, _, h .width, _, h .thickness, _, h .boringPlacement, _, h .boreDepth, _,
        h .boreBoxHeight, rfl⟩
  · have hg : t.record? (Property.all.map Property.name) = none := by
      simpa [Tree.IsRecord, memberNames] using hr
    simp [ofTree?, hg, hr]

end RuleSet
end Millwork
