import Millwork.Calculation
import Millwork.Proofs.Decimal.Range
/-!
# The rule that counts

The trace of a property tells which rules apply, which of them is the last, and what became of its
formula. The quantity is the value of the trace, and it hangs on that last rule alone: whatever other
rules stand in the same list or in the list of another property, it stays the same.
-/
namespace Millwork
/-- Whether every condition of the rule holds. -/
def Rule.Fits (rule : Rule) (order : Order) : Prop :=
  ∀ condition ∈ rule.conditions, condition.holds order = true

private theorem Rule.applies_iff (rule : Rule) (order : Order) :
    rule.applies order = true ↔ rule.Fits order :=
  List.all_eq_true

def fittingRules (rules : List Rule) (order : Order) : List (Rule × Nat) :=
  rules.zipIdx.filter fun (rule, _) => rule.applies order

theorem matchedRules_eq (rules : List Rule) (order : Order) :
    matchedRules rules order = (fittingRules rules order).map Prod.snd := rfl

theorem selectedRule?_eq (rules : List Rule) (order : Order) :
    selectedRule? rules order = (fittingRules rules order).getLast? := rfl

theorem mem_fittingRules (rules : List Rule) (order : Order) (rule : Rule) (place : Nat) :
    (rule, place) ∈ fittingRules rules order ↔ rules[place]? = some rule ∧ rule.Fits order := by
  rw [fittingRules, List.mem_filter, List.mem_zipIdx_iff_getElem?, Rule.applies_iff]

private theorem mem_matchedRules (rules : List Rule) (order : Order) (place : Nat) :
    place ∈ matchedRules rules order ↔ ∃ rule, rules[place]? = some rule ∧ rule.Fits order := by
  rw [matchedRules_eq, List.mem_map]
  constructor
  · rintro ⟨⟨rule, _⟩, hm, rfl⟩
    exact ⟨rule, (mem_fittingRules rules order rule _).1 hm⟩
  · rintro ⟨rule, hr⟩
    exact ⟨(rule, place), (mem_fittingRules rules order rule place).2 hr, rfl⟩

private theorem matchedRules_ascending (rules : List Rule) (order : Order) :
    (matchedRules rules order).Pairwise (· < ·) := by
  have hs : (matchedRules rules order).Sublist (rules.zipIdx.map Prod.snd) :=
    List.filter_sublist.map Prod.snd
  rw [List.zipIdx_map_snd] at hs
  exact (List.pairwise_lt_range' 1).sublist hs

private theorem fittingRules_map_fst (rules : List Rule) (order : Order) :
    (fittingRules rules order).map Prod.fst = rules.filter (·.applies order) := by
  have h := (List.filter_map (f := Prod.fst) (p := fun rule : Rule => rule.applies order)
    (l := rules.zipIdx)).symm
  rw [List.zipIdx_map_fst] at h
  exact h

private theorem getLast?_eq_some_iff_greatest {places : List Nat} (ha : places.Pairwise (· < ·))
    (place : Nat) :
    places.getLast? = some place ↔ place ∈ places ∧ ∀ other ∈ places, other ≤ place := by
  constructor
  · intro h
    obtain ⟨before, rfl⟩ := List.getLast?_eq_some_iff.1 h
    refine ⟨by simp, fun other ho => ?_⟩
    rcases List.mem_append.1 ho with hb | hl
    · exact Nat.le_of_lt ((List.pairwise_append.1 ha).2.2 other hb place (by simp))
    · exact Nat.le_of_eq (List.mem_singleton.1 hl)
  · rintro ⟨hm, hg⟩
    obtain ⟨last, hl⟩ := Option.isSome_iff_exists.1
      (List.getLast?_isSome.2 (List.ne_nil_of_mem hm))
    obtain ⟨before, rfl⟩ := List.getLast?_eq_some_iff.1 hl
    have h₁ : last ≤ place := hg last (by simp)
    rcases List.mem_append.1 hm with hb | hp
    · have := (List.pairwise_append.1 ha).2.2 place hb last (by simp)
      omega
    · rw [hl, List.mem_singleton.1 hp]

/-- What a trace has to say about a property with the given rules. -/
structure Trace.Explains (trace : Trace) (rules : List Rule) (order : Order) : Prop where
  considered : trace.considered = rules.length
  ascending : trace.matched.Pairwise (· < ·)
  matched : ∀ place, place ∈ trace.matched ↔ ∃ rule, rules[place]? = some rule ∧ rule.Fits order
  selected : ∀ place, trace.selected = some place ↔
    place ∈ trace.matched ∧ ∀ other ∈ trace.matched, other ≤ place
  unselected : trace.selected = none ↔ trace.matched = []
  noMatch : trace.matched = [] →
    trace.formula = none ∧ trace.outcome = .noMatch ∧ trace.value = 0.0
  formula : ∀ place rule, trace.selected = some place → rules[place]? = some rule →
    trace.formula = some rule.formula
  failed : ∀ place rule failure, trace.selected = some place → rules[place]? = some rule →
    Formula.parse rule.formula = .error failure →
    trace.outcome = .failed failure ∧ trace.value = 0.0
  evaluated : ∀ place rule formula, trace.selected = some place → rules[place]? = some rule →
    Formula.parse rule.formula = .ok formula →
    trace.value = formula.evaluate order ∧
    trace.outcome =
      if trace.value.isNaN || trace.value.isInf then .nonFinite trace.value
      else .evaluated trace.value

theorem Outcome.ofFormula_error {property : Property} {source : String} {order : Order}
    {failure : Formula.Failure} (h : Formula.parse source = .error failure) :
    Outcome.ofFormula property source order = (.failed failure, 0.0) := by
  simp only [Outcome.ofFormula, Formula.evaluateText, h]
  rfl

theorem Outcome.ofFormula_ok {property : Property} {source : String} {order : Order}
    {formula : Formula} (h : Formula.parse source = .ok formula) :
    Outcome.ofFormula property source order =
      (if (formula.evaluate order).isNaN || (formula.evaluate order).isInf then
        .nonFinite (formula.evaluate order)
      else .evaluated (formula.evaluate order), formula.evaluate order) := by
  simp only [Outcome.ofFormula, Formula.evaluateText, h, Except.map,
    Decimal.isFinite_eq]
  cases (formula.evaluate order).isNaN || (formula.evaluate order).isInf <;> rfl

@[simp] theorem Trace.of_property (property : Property) (rules : List Rule) (order : Order) :
    (Trace.of property rules order).property = property := by
  unfold Trace.of
  split <;> rfl

@[simp] theorem Trace.of_matched (property : Property) (rules : List Rule) (order : Order) :
    (Trace.of property rules order).matched = matchedRules rules order := by
  unfold Trace.of
  split <;> rfl

@[simp] theorem Trace.of_considered (property : Property) (rules : List Rule) (order : Order) :
    (Trace.of property rules order).considered = rules.length := by
  unfold Trace.of
  split <;> rfl

private theorem Trace.of_selected (property : Property) (rules : List Rule) (order : Order) :
    (Trace.of property rules order).selected = (matchedRules rules order).getLast? := by
  rw [matchedRules_eq, List.getLast?_map, ← selectedRule?_eq]
  unfold Trace.of
  cases selectedRule? rules order <;> rfl

theorem Trace.of_none {property : Property} {rules : List Rule} {order : Order}
    (h : selectedRule? rules order = none) :
    Trace.of property rules order =
      ⟨property, rules.length, matchedRules rules order, none, none, .noMatch, 0.0⟩ := by
  simp only [Trace.of, h]
  rfl

/-- The trace when the rule at `place` is the last that applies. -/
theorem Trace.of_last {property : Property} {rules : List Rule} {order : Order} {rule : Rule}
    {place : Nat} (h : selectedRule? rules order = some (rule, place)) :
    Trace.of property rules order =
      ⟨property, rules.length, matchedRules rules order, some place, some rule.formula,
        (Outcome.ofFormula property rule.formula order).1,
        (Outcome.ofFormula property rule.formula order).2⟩ := by
  simp only [Trace.of, h]

private theorem selectedRule?_of_selected {property : Property} {rules : List Rule} {order : Order}
    {rule : Rule} {place : Nat} (hs : (Trace.of property rules order).selected = some place)
    (hr : rules[place]? = some rule) : selectedRule? rules order = some (rule, place) := by
  cases hl : selectedRule? rules order with
  | none => simp [Trace.of, hl] at hs
  | some found =>
    obtain ⟨other, place'⟩ := found
    have hp : place' = place := by simpa [Trace.of, hl] using hs
    subst hp
    have hm := List.mem_of_getLast? ((selectedRule?_eq rules order).symm.trans hl)
    have ho := ((mem_fittingRules rules order other place').1 hm).1
    rw [Option.some.inj (ho.symm.trans hr)]

private theorem Trace.of_explains (property : Property) (rules : List Rule) (order : Order) :
    (Trace.of property rules order).Explains rules order where
  considered := Trace.of_considered property rules order
  ascending := by
    rw [Trace.of_matched]
    exact matchedRules_ascending rules order
  matched place := by
    rw [Trace.of_matched]
    exact mem_matchedRules rules order place
  selected place := by
    rw [Trace.of_matched, Trace.of_selected]
    exact getLast?_eq_some_iff_greatest (matchedRules_ascending rules order) place
  unselected := by
    rw [Trace.of_matched, Trace.of_selected]
    exact List.getLast?_eq_none_iff
  noMatch h := by
    have hs : selectedRule? rules order = none := by
      rw [selectedRule?_eq, List.getLast?_eq_none_iff]
      rwa [Trace.of_matched, matchedRules_eq, List.map_eq_nil_iff] at h
    rw [Trace.of_none hs]
    exact ⟨rfl, rfl, rfl⟩
  formula place rule hs hr := by
    rw [Trace.of_last (selectedRule?_of_selected hs hr)]
  failed place rule failure hs hr hf := by
    rw [Trace.of_last (selectedRule?_of_selected hs hr), Outcome.ofFormula_error hf]
    exact ⟨rfl, rfl⟩
  evaluated place rule formula hs hr hf := by
    rw [Trace.of_last (selectedRule?_of_selected hs hr), Outcome.ofFormula_ok hf]
    exact ⟨rfl, rfl⟩

private theorem Trace.of_value_congr (property : Property) {rules others : List Rule} {order : Order}
    (h : (others.filter (·.applies order)).getLast? = (rules.filter (·.applies order)).getLast?) :
    (Trace.of property others order).value = (Trace.of property rules order).value := by
  rw [← fittingRules_map_fst, ← fittingRules_map_fst, List.getLast?_map, List.getLast?_map,
    ← selectedRule?_eq, ← selectedRule?_eq] at h
  cases ho : selectedRule? others order with
  | none =>
    have hr : selectedRule? rules order = none := by
      rw [ho] at h
      exact Option.map_eq_none_iff.1 h.symm
    simp only [Trace.of, ho, hr]
  | some found =>
    rw [ho] at h
    obtain ⟨last, hl, hf⟩ := Option.map_eq_some_iff.1 h.symm
    simp only [Trace.of, ho, hl, hf]

def Rule.behaviour (rule : Rule) : String × (Order → Bool) :=
  (rule.formula, rule.applies)

private theorem fittingRules_behaviour (rules : List Rule) (order : Order) :
    (fittingRules rules order).map (Prod.map Rule.behaviour id) =
      (rules.map Rule.behaviour).zipIdx.filter fun (behaviour, _) => behaviour.2 order := by
  rw [List.zipIdx_map, List.filter_map]
  rfl

section
variable {rules others : List Rule} (h : others.map Rule.behaviour = rules.map Rule.behaviour)
include h

private theorem fittingRules_congr (order : Order) :
    (fittingRules others order).map (Prod.map Rule.behaviour id) =
      (fittingRules rules order).map (Prod.map Rule.behaviour id) := by
  rw [fittingRules_behaviour, fittingRules_behaviour, h]

theorem matchedRules_congr (order : Order) : matchedRules others order = matchedRules rules order := by
  have hplaces := congrArg (List.map Prod.snd) (fittingRules_congr h order)
  rwa [List.map_map, List.map_map] at hplaces

private theorem rules_length_congr : others.length = rules.length := by
  simpa using congrArg List.length h

private theorem Trace.of_behaviour (property : Property) (order : Order) :
    Trace.of property others order = Trace.of property rules order := by
  have hlast := congrArg List.getLast? (fittingRules_congr h order)
  rw [List.getLast?_map, List.getLast?_map, ← selectedRule?_eq, ← selectedRule?_eq] at hlast
  cases ho : selectedRule? others order with
  | none =>
    have hr : selectedRule? rules order = none := by simpa [ho] using hlast.symm
    rw [Trace.of_none ho, Trace.of_none hr, matchedRules_congr h, rules_length_congr h]
  | some found =>
    rw [ho] at hlast
    obtain ⟨last, hr, he⟩ := Option.map_eq_some_iff.1 hlast.symm
    obtain ⟨hbehave, hplace⟩ := Prod.ext_iff.1 he
    have hformula : last.1.formula = found.1.formula := congrArg Prod.fst hbehave
    change last.2 = found.2 at hplace
    rw [Trace.of_last ho, Trace.of_last hr, matchedRules_congr h, rules_length_congr h, hplace, hformula]

end

def RuleSet.BehavesAs (others rules : RuleSet) : Prop :=
  ∀ property, (others.get property).map Rule.behaviour = (rules.get property).map Rule.behaviour

private theorem getLast?_filter_insert (fits : Rule → Bool) (before after : List Rule) (extra : Rule)
    (h : fits extra = false ∨ ∃ later ∈ after, fits later = true) :
    ((before ++ extra :: after).filter fits).getLast? = ((before ++ after).filter fits).getLast? := by
  rcases h with hf | ⟨later, hm, hl⟩
  · simp [List.filter_append, hf]
  · have hn : after.filter fits ≠ [] := List.ne_nil_of_mem (List.mem_filter.2 ⟨hm, hl⟩)
    obtain ⟨last, hlast⟩ := Option.isSome_iff_exists.1 (List.getLast?_isSome.2 hn)
    simp only [List.filter_append, List.getLast?_append, List.filter_cons]
    split
    · rw [List.getLast?_cons, hlast]
      rfl
    · rfl

private theorem Property.Table.get_foldl_set {α : Type} (entry : Property → α) (ps : List Property)
    (table : Property.Table α) (p : Property) :
    (ps.foldl (fun table p => table.set p (entry p)) table).get p =
      if p ∈ ps then entry p else table.get p := by
  induction ps generalizing table with
  | nil => simp
  | cons first ps ih =>
    rw [List.foldl_cons, ih, Property.Table.get_set]
    by_cases hp : p ∈ ps
    · simp [hp]
    · by_cases hf : p = first <;> simp [hp, hf]

namespace Calculation
theorem ofRules_quantities (key : String) (rules : RuleSet) (order : Order) (p : Property) :
    (ofRules key rules order).quantities.get p = (Trace.of p (rules.get p) order).value := by
  have hq : (ofRules key rules order).quantities =
      Property.all.foldl (fun table p => table.set p (Trace.of p (rules.get p) order).value)
        Quantities.defaults := by
    simp only [ofRules, List.foldl_map, Trace.of_property]
  rw [hq, Property.Table.get_foldl_set, if_pos (Property.mem_all p)]

theorem ofRules_behaviour (key : String) {others rules : RuleSet} (h : others.BehavesAs rules)
    (order : Order) : ofRules key others order = ofRules key rules order := by
  have htraces : (fun p => Trace.of p (others.get p) order) = fun p => Trace.of p (rules.get p) order :=
    funext fun p => Trace.of_behaviour (h p) p order
  have hlist (p : Property) : (others.get p).isEmpty = (rules.get p).isEmpty := by
    simpa using congrArg List.isEmpty (h p)
  have hempty : others.isEmpty = rules.isEmpty := by simp only [RuleSet.isEmpty, hlist]
  rw [ofRules, ofRules, htraces, hempty]

/-- Six traces, one for each property in the order of the properties: each explains its property by the
rules of that property, and its value is the quantity. A rule set in which the same rule of a property
applies last gives the same quantity of that property, whatever else stands in it; so does one with a
further rule that does not apply or is overridden. -/
theorem run_traces {σ : Type} (resolve : σ → String → RuleSet × σ) (source : σ) (options : Options)
    (order : Order) :
    let rules := (resolve source (options.keyFor order)).1
    let calculation := (run resolve source options order).1
    (∃ trace : Property → Trace,
      calculation.traces = [trace .length, trace .width, trace .thickness, trace .boringPlacement,
        trace .boreDepth, trace .boreBoxHeight] ∧
      ∀ p, (trace p).property = p ∧ (trace p).Explains (rules.get p) order ∧
        calculation.quantities.get p = (trace p).value) ∧
    (∀ (key : String) (others : RuleSet) (p : Property),
      ((others.get p).filter (·.applies order)).getLast? =
        ((rules.get p).filter (·.applies order)).getLast? →
      (ofRules key others order).quantities.get p = calculation.quantities.get p) ∧
    ∀ (key : String) (others : RuleSet) (p : Property) (before after : List Rule) (extra : Rule),
      rules.get p = before ++ after → others.get p = before ++ extra :: after →
      (¬extra.Fits order ∨ ∃ later ∈ after, later.Fits order) →
      (ofRules key others order).quantities.get p = calculation.quantities.get p := by
  intro rules calculation
  have hq (p : Property) :
      calculation.quantities.get p = (Trace.of p (rules.get p) order).value :=
    ofRules_quantities _ rules order p
  have hlast (key : String) (others : RuleSet) (p : Property)
      (h : ((others.get p).filter (·.applies order)).getLast? =
        ((rules.get p).filter (·.applies order)).getLast?) :
      (ofRules key others order).quantities.get p = calculation.quantities.get p := by
    rw [ofRules_quantities, hq, Trace.of_value_congr p h]
  refine ⟨⟨fun p => Trace.of p (rules.get p) order, rfl, fun p => ?_⟩, hlast, ?_⟩
  · exact ⟨Trace.of_property .., Trace.of_explains .., hq p⟩
  · intro key others p before after extra hr ho hx
    apply hlast
    rw [hr, ho]
    apply getLast?_filter_insert
    simpa only [← Rule.applies_iff, Bool.not_eq_true] using hx

/-- A rule with a broken formula that a later rule overrides, together with a broken list of another
property. -/
theorem width_of_overridden :
    (∃ later ∈ [Rule.always "2"], later.Fits Order.empty) ∧
    (ofRules "doors" ((RuleSet.empty.set .length [Rule.always "1 +"]).set .width
        [Rule.always "(", Rule.always "2"]) Order.empty).quantities.get .width =
      (run (fun rules _ => (rules, rules)) (RuleSet.empty.set .width [Rule.always "2"]) {}
        Order.empty).1.quantities.get .width := by
  have h : ∃ later ∈ [Rule.always "2"], later.Fits Order.empty :=
    ⟨Rule.always "2", by simp, by simp [Rule.Fits, Rule.always]⟩
  exact ⟨h, (run_traces (fun rules _ => (rules, rules)) (RuleSet.empty.set .width [Rule.always "2"]) {}
    Order.empty).2.2 "doors" _ .width [] [Rule.always "2"] (Rule.always "(") rfl rfl (.inr h)⟩

end Calculation
end Millwork
