import Millwork.Proofs.Json.Record
import Millwork.Proofs.Selection
/-!
# Quantities in JSON text

The text of a calculation's quantities has one member for each property. A quantity that is not finite is
written as null, and a table with a null is not read; so the quantities come back exactly if every formula
gave a finite number and each of these numbers comes back by itself.
-/
namespace Millwork
open Json (Tree)

namespace Quantities

theorem toJson_eq (quantities : Quantities) : quantities.toJson =
    .object (Property.all.map fun p => (p.name, .number (quantities.get p))) := by
  rw [toJson, Property.Table.toList, List.map_map]
  rfl

private theorem ofTree?_tree_eq_some_iff (quantities found : Quantities) :
    ofTree? quantities.toJson.tree = some found ↔
      ∀ p, (Json.number (quantities.get p)).tree.number? = some (found.get p) := by
  rw [ofTree?, toJson_eq, Tree.record?_properties]
  simp only [Property.all, List.map_cons, List.map_nil, Option.bind_eq_bind, Option.bind_some,
    Option.bind_eq_some_iff]
  constructor
  · rintro ⟨length, hlength, width, hwidth, thickness, hthickness, placement, hplacement, depth, hdepth,
      height, hheight, he⟩ p
    cases Option.some.inj he
    cases p <;> assumption
  · intro h
    exact ⟨_, h .length, _, h .width, _, h .thickness, _, h .boringPlacement, _, h .boreDepth, _,
      h .boreBoxHeight, rfl⟩

private theorem number?_tree_eq_some_iff (x y : Float) : (Json.number x).tree.number? = some y ↔
    x.isFinite = true ∧ Json.read? (String.ofList (Json.numberText x)) = some (.number y) := by
  rw [Json.read?_numberText, Json.tree]
  cases x.isFinite <;> simp [Tree.number?]

private theorem ofJsonText?_written_eq_some_iff {quantities : Quantities} {text : String}
    (hw : quantities.toJson.IsWritten text) (found : Quantities) :
    ofJsonText? text = some found ↔ ∀ p, (quantities.get p).isFinite = true ∧
      Json.read? (String.ofList (Json.numberText (quantities.get p))) = some (.number (found.get p)) := by
  rw [ofJsonText?, Tree.read?_written hw, Option.bind_some, ofTree?_tree_eq_some_iff]
  simp only [number?_tree_eq_some_iff]

end Quantities

private theorem Trace.isFinite_value_iff (property : Property) (rules : List Rule) (order : Order) :
    (Trace.of property rules order).value.isFinite = true ↔
      ∀ x, (Trace.of property rules order).outcome ≠ .nonFinite x := by
  have hzero : Float.isFinite 0.0 = true := by decide
  cases hs : selectedRule? rules order with
  | none =>
    rw [Trace.of_none hs]
    simp [hzero]
  | some found =>
    obtain ⟨rule, place⟩ := found
    rw [Trace.of_last hs]
    cases hp : Formula.parse rule.formula with
    | error failure =>
      rw [Outcome.ofFormula_error hp]
      simp [hzero]
    | ok formula =>
      rw [Outcome.ofFormula_ok hp]
      simp only [Decimal.isFinite_eq]
      cases (formula.evaluate order).isNaN || (formula.evaluate order).isInf <;> simp

namespace Calculation

private theorem isFinite_quantities_iff (key : String) (rules : RuleSet) (order : Order) :
    (∀ p, ((ofRules key rules order).quantities.get p).isFinite = true) ↔
      ∀ trace ∈ (ofRules key rules order).traces, ∀ x, trace.outcome ≠ .nonFinite x := by
  simp only [ofRules_quantities, Trace.isFinite_value_iff]
  simp only [ofRules, List.forall_mem_map, Property.mem_all, true_implies]

/-- The text of the quantities, compact or spread, is an object with one member for each property in
order, a number if the quantity is finite and else null. With a null it is not read as quantities; it is
read as the same quantities exactly if no formula gave NaN or an infinity and each number is read from its
own text. -/
theorem ofJsonText?_run_iff {σ : Type} (resolve : σ → String → RuleSet × σ) (source : σ)
    (options : Options) (order : Order) {text : String}
    (hw : (run resolve source options order).1.quantities.toJson.IsWritten text) :
    let calculation := (run resolve source options order).1
    Tree.read? text.toList = some (.object (Property.all.map fun p =>
      (p.name.toList.map .char,
        if (calculation.quantities.get p).isFinite then
          .number (Json.numeralOf (calculation.quantities.get p))
        else .null))) ∧
    ((∃ trace ∈ calculation.traces, ∃ x, trace.outcome = .nonFinite x) →
      Quantities.ofJsonText? text = none) ∧
    (Quantities.ofJsonText? text = some calculation.quantities ↔
      (∀ trace ∈ calculation.traces, ∀ x, trace.outcome ≠ .nonFinite x) ∧
      ∀ p, Json.read? (String.ofList (Json.numberText (calculation.quantities.get p))) =
        some (.number (calculation.quantities.get p))) := by
  intro calculation
  have hfinite : (∀ p, (calculation.quantities.get p).isFinite = true) ↔
      ∀ trace ∈ calculation.traces, ∀ x, trace.outcome ≠ .nonFinite x :=
    isFinite_quantities_iff ..
  have hread := Quantities.ofJsonText?_written_eq_some_iff hw
  refine ⟨?_, ?_, ?_⟩
  · rw [Tree.read?_written hw, Quantities.toJson_eq]
    rfl
  · rintro ⟨trace, ht, x, hx⟩
    refine Option.eq_none_iff_forall_ne_some.2 fun found hf => ?_
    exact hfinite.1 (fun p => ((hread found).1 hf p).1) trace ht x hx
  · rw [hread, forall_and, hfinite]

/-- A width of a whole number and of parts; the other quantities are zero. -/
theorem ofJsonText?_run_width :
    let calculation := (run (fun rules _ => (rules, rules))
      (RuleSet.empty.set .width [Rule.always "29.75 + 1"]) {} Order.empty).1
    calculation.quantities.toJson.IsWritten (Json.prettyText calculation.quantities.toJson) ∧
      Quantities.ofJsonText? (Json.prettyText calculation.quantities.toJson) =
        some calculation.quantities := by
  intro calculation
  have hw : calculation.quantities.toJson.IsWritten (Json.prettyText calculation.quantities.toJson) :=
    .inr rfl
  have hv : ∀ p ∈ Property.all, (Json.numeralOf (calculation.quantities.get p)).value? =
      some (calculation.quantities.get p) := by
    decide +kernel
  refine ⟨hw, (ofJsonText?_run_iff (fun rules _ => (rules, rules))
    (RuleSet.empty.set .width [Rule.always "29.75 + 1"]) {} Order.empty hw).2.2.2 ⟨?_, fun p => ?_⟩⟩
  · exact (isFinite_quantities_iff ..).1 fun p => by cases p <;> decide +kernel
  · rw [Json.read?_numberText]
    exact congrArg (Option.map Json.number) (hv p (Property.mem_all p))

/-- A field that the order does not have makes the formula NaN: the length is written as null. -/
theorem ofJsonText?_run_missing :
    let calculation := (run (fun rules _ => (rules, rules))
      (RuleSet.empty.set .length [Rule.always "Missing * 2"]) {} Order.empty).1
    Json.compactText calculation.quantities.toJson = "\x7b\"length\":null,\"width\":0.0," ++
      "\"thickness\":0.0,\"boringPlacement\":0.0,\"boreDepth\":0.0,\"boreBoxHeight\":0.0\x7d" ∧
    Quantities.ofJsonText? (Json.compactText calculation.quantities.toJson) = none := by
  intro calculation
  refine ⟨by decide +kernel, Option.isNone_iff_eq_none.1 ?_⟩
  decide +kernel

end Calculation
end Millwork
