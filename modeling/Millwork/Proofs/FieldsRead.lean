import Millwork.Proofs.Selection
import Millwork.Proofs.Formula.Fields
/-!
# The fields that a calculation reads

A calculation asks an order for the fields that decide on the rule set, for those in the conditions of
the rules, and for those that the formulas name. Orders that agree on these have the same quantities,
found in the same way.
-/
namespace Millwork
/-- The names that the choice of the rule set asks for. -/
def Options.namesRead (options : Options) : List String :=
  [options.styleField, Label.keyString options.styleField,
    options.flagField, Label.keyString options.flagField]

def Rule.namesRead (rule : Rule) : List String :=
  rule.conditions.map (·.field) ++ Formula.namesIn rule.formula

def RuleSet.namesRead (rules : RuleSet) : List String :=
  Property.all.flatMap fun property => (rules.get property).flatMap Rule.namesRead

section
variable {a b : Order}

private theorem Order.labelled?_congr {label : String}
    (h : Order.Agree [label, Label.keyString label] a b) :
    a.labelled? label = b.labelled? label := by
  have hl : a.get? label = b.get? label := h _ (by simp)
  have hk : a.get? (Label.keyString label) = b.get? (Label.keyString label) := h _ (by simp)
  rw [labelled?, labelled?, hl, hk]

private theorem Options.keyFor_congr {options : Options} (h : Order.Agree options.namesRead a b) :
    options.keyFor a = options.keyFor b := by
  have hs : a.labelled? options.styleField = b.labelled? options.styleField :=
    Order.labelled?_congr (h.mono (by simp [namesRead]))
  have hf : a.labelled? options.flagField = b.labelled? options.flagField :=
    Order.labelled?_congr (h.mono (by simp [namesRead]))
  rw [keyFor, keyFor, hs, hf]

private theorem Condition.holds_congr {condition : Condition}
    (h : a.get? condition.field = b.get? condition.field) :
    condition.holds a = condition.holds b := by
  rw [holds, holds, h]

private theorem Rule.applies_congr {rule : Rule} (h : Order.Agree rule.namesRead a b) :
    rule.applies a = rule.applies b := by
  have hc : ∀ condition ∈ rule.conditions, condition.holds a = condition.holds b := by
    intro condition hm
    apply Condition.holds_congr
    exact h _ (List.mem_append_left _ (List.mem_map_of_mem hm))
  rw [applies, applies, Bool.eq_iff_iff, List.all_eq_true, List.all_eq_true]
  constructor <;> intro ha condition hm
  · rw [← hc condition hm]
    exact ha condition hm
  · rw [hc condition hm]
    exact ha condition hm

private theorem Outcome.ofFormula_congr (property : Property) {rule : Rule}
    (h : Order.Agree rule.namesRead a b) :
    Outcome.ofFormula property rule.formula a = Outcome.ofFormula property rule.formula b := by
  have hv := Formula.evaluateText_congr (h.mono (List.subset_append_right _ _))
  rw [ofFormula, ofFormula, hv]

private theorem Trace.of_congr (property : Property) {rules : List Rule}
    (h : Order.Agree (rules.flatMap Rule.namesRead) a b) :
    Trace.of property rules a = Trace.of property rules b := by
  have hr : ∀ rule ∈ rules, Order.Agree rule.namesRead a b := by
    intro rule hm name hn
    exact h name (List.mem_flatMap.2 ⟨rule, hm, hn⟩)
  -- The same rules apply, so the same one is the last of them.
  have hf : fittingRules rules a = fittingRules rules b := by
    apply List.filter_congr
    intro entry hm
    exact Rule.applies_congr (hr entry.1 (List.fst_mem_of_mem_zipIdx hm))
  have hm : matchedRules rules a = matchedRules rules b := by
    rw [matchedRules_eq, matchedRules_eq, hf]
  have hs : selectedRule? rules a = selectedRule? rules b := by
    rw [selectedRule?_eq, selectedRule?_eq, hf]
  cases hl : selectedRule? rules b with
  | none =>
    rw [hl] at hs
    rw [Trace.of_none hs, Trace.of_none hl, hm]
  | some last =>
    obtain ⟨rule, place⟩ := last
    rw [hl] at hs
    have hplace : rules[place]? = some rule :=
      ((mem_fittingRules rules b rule place).1 (List.mem_of_getLast? hl)).1
    have ho := Outcome.ofFormula_congr property (hr rule (List.mem_of_getElem? hplace))
    rw [Trace.of_last hs, Trace.of_last hl, hm, ho]

private theorem Calculation.ofRules_congr (key : String) {rules : RuleSet}
    (h : Order.Agree rules.namesRead a b) : ofRules key rules a = ofRules key rules b := by
  have ht : Property.all.map (fun property => Trace.of property (rules.get property) a) =
      Property.all.map fun property => Trace.of property (rules.get property) b := by
    apply List.map_congr_left
    intro property hm
    apply Trace.of_congr
    intro name hn
    exact h name (List.mem_flatMap.2 ⟨property, hm, hn⟩)
  rw [ofRules, ofRules, ht]

end

namespace Calculation
/-- Orders that agree on the names that the options ask for, and on those in the rule set that is found
for one of them, are worked out alike, whatever other fields and links they have. -/
theorem run_congr {σ : Type} (resolve : σ → String → RuleSet × σ) (source : σ) (options : Options)
    (a b : Order)
    (h : Order.Agree (options.namesRead ++ (resolve source (options.keyFor a)).1.namesRead) a b) :
    run resolve source options a = run resolve source options b := by
  rw [Order.agree_append] at h
  have hk : options.keyFor a = options.keyFor b := Options.keyFor_congr h.1
  have hr := ofRules_congr (options.keyFor a) h.2
  rw [run, run, ← hk]
  simp only [hr]

/-- Neither a note nor a link matters where the rules and formulas read the height only. -/
theorem width_with_note :
    let rules := RuleSet.empty.addRule .width ⟨[⟨"height", .gte, [.number 60.0]⟩], "[height] - 2"⟩
    let order := Order.ofList [("height", .number 80.0)]
    let noted := (order.insert "note" (.text "tall")).withLinks ["http://drawings/7"]
    Order.Agree (({} : Options).namesRead ++ RuleSet.namesRead rules) order noted ∧
    run (fun rules _ => (rules, rules)) rules {} order =
      run (fun rules _ => (rules, rules)) rules {} noted := by
  intro rules order noted
  have agree : Order.Agree (({} : Options).namesRead ++ RuleSet.namesRead rules) order noted := by
    intro name hn
    have hne : "note" ≠ name := by
      rintro rfl
      exact absurd hn (by decide +kernel)
    rw [Order.get?_withLinks, Order.get?_insert, if_neg hne]
  exact ⟨agree, run_congr _ rules {} order noted agree⟩

end Calculation
end Millwork
