import Mathlib.Logic.Relation
import Millwork.Proofs.RuleText
import Millwork.Proofs.Selection
import Millwork.Proofs.Decimal.NotANumber
/-!
# Odd values of conditions

What is no string, boolean or number among the values of a condition stands for NaN there, which is the
same as nothing and passes no comparison. So a rule set does the same with these values left out of the
lists that a field is looked up in, and a bound that would have to be read from one is never met.
-/
namespace Millwork
open Json (Tree)

/-- Neither a string nor a boolean nor a number. -/
inductive Json.Tree.IsOdd : Tree → Prop
  | null : IsOdd .null
  | array (items : List Tree) : IsOdd (.array items)
  | object (members : List (Json.Quoted × Tree)) : IsOdd (.object members)

/-- One array is the other without one of its odd items. -/
inductive Json.Tree.DropsOdd : Tree → Tree → Prop
  | intro {before after : List Tree} {odd : Tree} (ho : odd.IsOdd) :
    DropsOdd (.array (before ++ odd :: after)) (.array (before ++ after))

theorem Json.Tree.DropsOdd.array_tree (before after : List Json) {odd : Json} (ho : odd.tree.IsOdd) :
    Tree.DropsOdd (Json.array (before ++ odd :: after)).tree (Json.array (before ++ after)).tree := by
  simp only [Json.tree, Tree.itemTrees_eq_map, List.map_append, List.map_cons]
  exact .intro ho

namespace Condition

/-- What the tree of a condition has for an operator. -/
def comparisonIn? (t : Tree) : Option Comparison :=
  (t.member? memberNames "operator").bind Comparison.ofTree?

/-- A field is looked up in the values of the condition, and one of them that is odd is left out. -/
def DropsOdd (t t' : Tree) : Prop :=
  (comparisonIn? t = some .contains ∨ comparisonIn? t = some .notContains) ∧
    Tree.Replaces memberNames "values" Tree.DropsOdd t t'

/-- A field is compared with a bound, but the values are left out, are null, are none or have an odd one
first. -/
def LacksBound (t : Tree) : Prop :=
  (comparisonIn? t = some .gte ∨ comparisonIn? t = some .lte) ∧
    ∀ value ∈ (Tree.itemsOf (t.member? memberNames "values")).head?, value.IsOdd

end Condition

/-- An odd value is left out of one of the conditions. -/
def Rule.DropsOdd : Tree → Tree → Prop :=
  Tree.Replaces memberNames "conditions" (Tree.ReplacesItem Condition.DropsOdd)

def Rule.LacksBound (t : Tree) : Prop :=
  ∃ condition ∈ Tree.itemsOf (t.member? memberNames "conditions"), Condition.LacksBound condition

/-- An odd value is left out of a condition of one of the rules. -/
def RuleSet.DropsOdd (t t' : Tree) : Prop :=
  ∃ property : Property,
    Tree.Replaces memberNames property.name (Tree.ReplacesItem Rule.DropsOdd) t t'

private theorem Value.same_notANumber (value : Value) :
    (Value.number Decimal.notANumber).same value = false := by
  cases value with
  | number x => exact Decimal.beq_of_isNaN Decimal.isNaN_notANumber x
  | bool flag => rfl
  | text content => rfl

namespace Condition
variable {depth : Nat} {t t' : Tree} {condition : Condition}

private theorem listed_notANumber (before after : List Value) (actual : Option Value) :
    listed (before ++ .number Decimal.notANumber :: after) actual = listed (before ++ after) actual := by
  simp only [listed, List.any_append, List.any_cons, Value.same_notANumber, Bool.false_or]

private theorem valueOfTree?_odd (ho : t.IsOdd) {value : Value}
    (h : valueOfTree? depth t = some value) :
    value = .number Decimal.notANumber := by
  obtain ⟨json, hj, rfl⟩ := Option.map_eq_some_iff.1 h
  cases ho with
  | null =>
    cases hj
    rfl
  | array items =>
    cases depth with
    | zero => cases hj
    | succ depth =>
      obtain ⟨found, -, rfl⟩ := Option.map_eq_some_iff.1 hj
      rfl
  | object members =>
    cases depth with
    | zero => cases hj
    | succ depth =>
      obtain ⟨found, -, rfl⟩ := Option.map_eq_some_iff.1 hj
      rfl

private theorem valuesOfTree?_dropsOdd (h : t.DropsOdd t') {values : List Value}
    (hv : valuesOfTree? depth t = some values) :
    ∃ front back, values = front ++ .number Decimal.notANumber :: back ∧
      valuesOfTree? depth t' = some (front ++ back) := by
  cases h with
  | @intro before after odd ho =>
    simp only [valuesOfTree?, Tree.list?, List.mapM_append, List.mapM_cons, Option.bind_eq_bind,
      Option.bind_eq_some_iff, Option.pure_def, Option.some.injEq] at hv
    obtain ⟨front, hfront, _, ⟨value, hvalue, back, hback, rfl⟩, rfl⟩ := hv
    obtain rfl := valueOfTree?_odd ho hvalue
    exact ⟨front, back, rfl, by simp [valuesOfTree?, Tree.list?, hfront, hback]⟩

private theorem ofTree?_dropsOdd (h : DropsOdd t t') (hc : ofTree? depth t = some condition) :
    ∃ condition', ofTree? depth t' = some condition' ∧ condition'.holds = condition.holds := by
  obtain ⟨hlookup, hreplaces⟩ := h
  obtain ⟨hrecord, hfield, hcomparison, hvalues⟩ := (ofTree?_eq_some_iff condition).1 hc
  obtain ⟨hrecord', ⟨list, list', hlist, hlist', hdrops⟩, hothers⟩ :=
    hreplaces.member? (by decide) hrecord
  rw [hlist, Option.map_some, Option.getD_some] at hvalues
  obtain ⟨front, back, hsplit, hvalues'⟩ := valuesOfTree?_dropsOdd hdrops hvalues
  refine ⟨{ condition with values := front ++ back }, (ofTree?_eq_some_iff _).2
    ⟨hrecord', ?_, ?_, ?_⟩, funext fun order => ?_⟩
  · rw [hothers "variable" (by decide) (by decide), hfield]
  · rw [hothers "operator" (by decide) (by decide), hcomparison]
  · rw [hlist', Option.map_some, Option.getD_some, hvalues']
  · rw [comparisonIn?, hcomparison, Option.some.injEq, Option.some.injEq] at hlookup
    rcases hlookup with hop | hop
    · simp only [holds, hop, hsplit, listed_notANumber]
    · simp only [holds, hop, hsplit, listed_notANumber]

private theorem isNaN_bound (hc : ofTree? depth t = some condition) (h : LacksBound t) :
    (numberOf condition.values.head?).isNaN = true := by
  obtain ⟨-, -, -, hvalues⟩ := (ofTree?_eq_some_iff condition).1 hc
  have hheads := congrArg List.head? (map_itemsOf_values hvalues)
  rw [List.head?_map, List.head?_map] at hheads
  cases hv : condition.values.head? with
  | none => exact Decimal.isNaN_notANumber
  | some value =>
    rw [hv] at hheads
    obtain ⟨first, hfirst, hread⟩ := Option.map_eq_some_iff.1 hheads
    rw [valueOfTree?_odd (h.2 first hfirst) hread]
    exact Decimal.isNaN_notANumber

private theorem holds_lacksBound (hc : ofTree? depth t = some condition) (h : LacksBound t)
    (order : Order) :
    condition.holds order = false := by
  have hbound := isNaN_bound hc h
  have hcomparison := ((ofTree?_eq_some_iff condition).1 hc).2.2.1
  obtain ⟨hop, -⟩ := h
  rw [comparisonIn?, hcomparison, Option.some.injEq, Option.some.injEq] at hop
  rcases hop with hop | hop
  · simp only [holds, hop]
    exact decide_eq_false (Decimal.not_le_of_isNaN hbound _)
  · simp only [holds, hop]
    exact decide_eq_false (Decimal.not_ge_of_isNaN hbound _)

end Condition

namespace Rule
variable {depth : Nat} {t t' : Tree} {rule : Rule}

private theorem applies_eq (rule : Rule) (order : Order) :
    rule.applies order = (rule.conditions.map Condition.holds).all (· order) := by
  rw [List.all_map]
  rfl

private theorem ofTree?_dropsOdd (h : DropsOdd t t') (hr : ofTree? depth t = some rule) :
    ∃ rule', ofTree? depth t' = some rule' ∧ rule'.behaviour = rule.behaviour := by
  obtain ⟨hrecord, hconditions, hformula⟩ := (ofTree?_eq_some_iff rule).1 hr
  obtain ⟨hrecord', ⟨list, list', hlist, hlist', hitem⟩, hothers⟩ := h.member? (by decide) hrecord
  rw [hlist, Option.map_some, Option.getD_some] at hconditions
  obtain ⟨conditions', hconditions', hholds⟩ :=
    Tree.list?_replaced (fun _ _ _ hc ha => Condition.ofTree?_dropsOdd hc ha) hitem hconditions
  refine ⟨⟨conditions', rule.formula⟩, (ofTree?_eq_some_iff _).2 ⟨hrecord', ?_, ?_⟩, ?_⟩
  · rw [hlist', Option.map_some, Option.getD_some, hconditions']
  · rw [hothers "formula" (by decide) (by decide), hformula]
  · have happlies : applies ⟨conditions', rule.formula⟩ = rule.applies := by
      funext order
      rw [applies_eq, applies_eq, hholds]
    rw [behaviour, behaviour, happlies]

private theorem applies_lacksBound (hr : ofTree? depth t = some rule) (h : LacksBound t)
    (order : Order) :
    rule.applies order = false := by
  obtain ⟨-, hconditions, -⟩ := (ofTree?_eq_some_iff rule).1 hr
  obtain ⟨item, hitem, hlacks⟩ := h
  obtain ⟨place, hplace⟩ := List.mem_iff_getElem?.1 hitem
  obtain ⟨condition, hmem, hc⟩ := Tree.exists_of_itemsOf hconditions hplace
  rw [applies, List.all_eq_false]
  exact ⟨condition, List.mem_of_getElem? hmem, by simp [Condition.holds_lacksBound hc hlacks]⟩

end Rule

namespace RuleSet
variable {depth : Nat} {t t' : Tree} {rules : RuleSet}

private theorem ofTree?_dropsOdd (h : DropsOdd t t') (hr : ofTree? depth t = some rules) :
    ∃ rules', ofTree? depth t' = some rules' ∧ rules'.BehavesAs rules := by
  obtain ⟨property, hreplaces⟩ := h
  obtain ⟨hrecord, hlists⟩ := (ofTree?_eq_some_iff rules).1 hr
  obtain ⟨hrecord', ⟨list, list', hlist, hlist', hitem⟩, hothers⟩ :=
    hreplaces.member? (List.mem_map_of_mem (Property.mem_all property)) hrecord
  have hchanged := hlists property
  rw [hlist, rulesOfTree?, Option.map_some, Option.getD_some] at hchanged
  obtain ⟨changed, hchanged', hbehave⟩ :=
    Tree.list?_replaced (fun _ _ _ hd hread => Rule.ofTree?_dropsOdd hd hread) hitem hchanged
  refine ⟨rules.set property changed, (ofTree?_eq_some_iff _).2 ⟨hrecord', fun other => ?_⟩,
    fun other => ?_⟩
  · by_cases hp : other = property
    · rw [hp, Property.Table.get_set, if_pos rfl, hlist', rulesOfTree?, Option.map_some,
        Option.getD_some, hchanged']
    · have hname : other.name ≠ property.name := fun he => hp (name_injective he)
      rw [Property.Table.get_set, if_neg hp,
        hothers other.name (List.mem_map_of_mem (Property.mem_all other)) hname, hlists other]
  · by_cases hp : other = property
    · rw [hp, Property.Table.get_set, if_pos rfl, hbehave]
    · rw [Property.Table.get_set, if_neg hp]

private theorem ofTree?_withoutOdd (h : Relation.ReflTransGen DropsOdd t t')
    (hr : ofTree? depth t = some rules) :
    ∃ rules', ofTree? depth t' = some rules' ∧ rules'.BehavesAs rules := by
  induction h with
  | refl => exact ⟨rules, hr, fun _ => rfl⟩
  | tail _ hstep ih =>
    obtain ⟨between, hbetween, hbehave⟩ := ih
    obtain ⟨rules', hr', hbehave'⟩ := ofTree?_dropsOdd hstep hbetween
    exact ⟨rules', hr', fun property => (hbehave' property).trans (hbehave property)⟩

/-- Whatever odd values are left out of the conditions of a document in which fields are looked up, the
document still gives a rule set, by which the same rules match and the same is calculated for every order.
A rule with a bound that is not there, or that would be an odd value, matches no order. -/
theorem ofJsonText?_odd {document : String} {t : Tree} {rules : RuleSet}
    (ht : Tree.read? document.toList = some t) (hr : ofJsonText? document = some rules) :
    (∀ (t' : Tree) (other : String), Relation.ReflTransGen DropsOdd t t' →
      Tree.read? other.toList = some t' → ∃ rules', ofJsonText? other = some rules' ∧ ∀ order,
        (∀ property, matchedRules (rules'.get property) order =
          matchedRules (rules.get property) order) ∧
        ∀ key, Calculation.ofRules key rules' order = Calculation.ofRules key rules order) ∧
    ∀ (property : Property) (place : Nat) (item : Tree),
      (Tree.itemsOf (t.member? memberNames property.name))[place]? = some item → Rule.LacksBound item →
      ∃ rule, (rules.get property)[place]? = some rule ∧ ∀ order, rule.applies order = false := by
  rw [ofJsonText?, ht, Option.bind_some] at hr
  constructor
  · intro t' other hdrops hother
    obtain ⟨rules', hr', hbehave⟩ := ofTree?_withoutOdd hdrops hr
    refine ⟨rules', ?_, fun order => ⟨fun property => ?_, fun key => ?_⟩⟩
    · rw [ofJsonText?, hother, Option.bind_some, hr']
    · exact matchedRules_congr (hbehave property) order
    · exact Calculation.ofRules_behaviour key hbehave order
  · intro property place item hitem hlacks
    obtain ⟨-, hlists⟩ := (ofTree?_eq_some_iff rules).1 hr
    obtain ⟨rule, hrule, hread⟩ := Tree.exists_of_itemsOf (hlists property) hitem
    exact ⟨rule, hrule, Rule.applies_lacksBound hread hlacks⟩

/-- A null and an array among the names of a style, and a bound that is an object. -/
theorem ofJsonText?_odd_style :
    let condition (name operator : String) (values : List Json) : Json := .object [
      ("variable", .string name), ("operator", .string operator), ("values", .array values)]
    let rule (condition : Json) : Json := .object [
      ("conditions", .array [condition]), ("formula", .string "5")]
    let document (values : List Json) : Json := .object [("width", .array [
      rule (condition "Style" "contains" values),
      rule (condition "Height" "gte" [.object [], .string "80"])])]
    let odd := document [.null, .string "oak", .array []]
    let plain := document [.string "oak"]
    let nan := Value.number Decimal.notANumber
    let rules := empty.set .width [
      ⟨[⟨"Style", .contains, [nan, .text "oak", nan]⟩], "5"⟩,
      ⟨[⟨"Height", .gte, [nan, .text "80"]⟩], "5"⟩]
    Relation.ReflTransGen DropsOdd odd.tree plain.tree ∧
      ofJsonText? (Json.compactText odd) = some rules ∧
      (∃ rules', ofJsonText? (Json.compactText plain) = some rules' ∧ ∀ order,
        matchedRules (rules'.get .width) order = matchedRules (rules.get .width) order) ∧
      ∃ rule, (rules.get .width)[1]? = some rule ∧ ∀ order, rule.applies order = false := by
  intro condition rule document odd plain nan rules
  have hwritten : odd.IsWritten (Json.compactText odd) := .inl rfl
  have hread : ofJsonText? (Json.compactText odd) = some rules := by
    rw [ofJsonText?, Tree.read?_written hwritten, Option.bind_some]
    decide +kernel
  have hstep (before after : List Json) (item : Json) (ho : item.tree.IsOdd) :
      DropsOdd (document (before ++ item :: after)).tree (document (before ++ after)).tree := by
    have hcondition : Condition.DropsOdd (condition "Style" "contains" (before ++ item :: after)).tree
        (condition "Style" "contains" (before ++ after)).tree :=
      ⟨.inl rfl, .object_tree [_, _] [] (.array_tree before after ho)⟩
    have hrule : Rule.DropsOdd (rule (condition "Style" "contains" (before ++ item :: after))).tree
        (rule (condition "Style" "contains" (before ++ after))).tree :=
      .object_tree [] [_] (.array_tree [] [] hcondition)
    exact ⟨.width, .object_tree [] [] (.array_tree [] [_] hrule)⟩
  have hdrops : Relation.ReflTransGen DropsOdd odd.tree plain.tree :=
    .tail (.single (hstep [] [.string "oak", .array []] .null .null))
      (hstep [.string "oak"] [] (.array []) (.array _))
  have hbound : Rule.LacksBound (rule (condition "Height" "gte" [.object [], .string "80"])).tree := by
    refine ⟨_, List.mem_singleton_self _, .inl rfl, fun value hv => ?_⟩
    cases hv
    exact .object []
  have hrun := ofJsonText?_odd (Tree.read?_written hwritten) hread
  obtain ⟨rules', hr', hsame⟩ := hrun.1 _ _ hdrops (Tree.read?_written (.inl rfl))
  exact ⟨hdrops, hread, ⟨rules', hr', fun order => (hsame order).1 .width⟩,
    hrun.2 .width 1 _ rfl hbound⟩

end RuleSet
end Millwork
