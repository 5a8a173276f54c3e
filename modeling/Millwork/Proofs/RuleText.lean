import Millwork.Proofs.RuleMembers
import Millwork.Proofs.Decimal.Range
/-!
# Rule sets in JSON text

A rule set that is written and read again is the same rule set, unless one of its values is infinite: an
infinity is written as null, which is read as NaN. No text holds an infinity, so a rule set that has been
read from any text is found again in its own.
-/
namespace Millwork
open Json (Tree)

deriving instance DecidableEq for Condition, Rule, Property.Table

/-- What is not finite is read as NaN. -/
def Value.kept : Value → Value
  | .number x => if x.isFinite then .number x else .number Decimal.notANumber
  | value => value

def Condition.kept (condition : Condition) : Condition :=
  { condition with values := condition.values.map Value.kept }

def Rule.kept (rule : Rule) : Rule :=
  { rule with conditions := rule.conditions.map Condition.kept }

def RuleSet.kept (rules : RuleSet) : RuleSet :=
  .ofFunction fun property => (rules.get property).map Rule.kept

private theorem Value.kept_eq_iff (value : Value) :
    value.kept = value ↔ ∀ x, value = .number x → x.isInf = false := by
  cases value with
  | bool flag => simp [kept]
  | text content => simp [kept]
  | number x =>
    have hall : (∀ y, Value.number x = .number y → y.isInf = false) ↔ x.isInf = false :=
      ⟨fun h => h x rfl, fun h y he => Value.number.inj he ▸ h⟩
    rw [hall, kept]
    cases hx : x.isFinite with
    | true =>
      rw [Decimal.isFinite_eq] at hx
      simp_all
    | false =>
      simp only [Bool.false_eq_true, if_false, Value.number.injEq]
      constructor
      · rintro rfl
        exact Decimal.isInf_notANumber
      · exact fun hi => (Decimal.eq_notANumber hx hi).symm

private theorem map_eq_self_iff {α : Type} {f : α → α} {xs : List α} :
    xs.map f = xs ↔ ∀ x ∈ xs, f x = x := by
  have hid := List.map_inj_left (l := xs) (f := f) (g := id)
  rwa [List.map_id] at hid

private theorem Condition.kept_eq_iff (condition : Condition) :
    condition.kept = condition ↔ ∀ value ∈ condition.values, value.kept = value := by
  rw [← map_eq_self_iff, kept, mk.injEq]
  simp only [true_and]

private theorem Rule.kept_eq_iff (rule : Rule) :
    rule.kept = rule ↔ ∀ condition ∈ rule.conditions, condition.kept = condition := by
  rw [← map_eq_self_iff, kept, mk.injEq]
  simp only [and_true]

namespace RuleSet
/-- One of the conditions has the value. -/
def HasValue (rules : RuleSet) (value : Value) : Prop :=
  ∃ property, ∃ rule ∈ rules.get property, ∃ condition ∈ rule.conditions, value ∈ condition.values

private theorem kept_eq_iff (rules : RuleSet) :
    rules.kept = rules ↔ ∀ x, rules.HasValue (.number x) → x.isInf = false := by
  simp only [Property.Table.ext_get_iff, kept, Property.Table.get_ofFunction, map_eq_self_iff,
    Rule.kept_eq_iff, Condition.kept_eq_iff, Value.kept_eq_iff]
  constructor
  · rintro h x ⟨property, rule, hr, condition, hc, hv⟩
    exact h property rule hr condition hc _ hv x rfl
  · rintro h property rule hr condition hc value hv x rfl
    exact h x ⟨property, rule, hr, condition, hc, hv⟩

/-- Each finite number among the values is what its text reads as. -/
def NumbersReadBack (rules : RuleSet) : Prop :=
  ∀ x, rules.HasValue (.number x) → x.isFinite = true →
    Json.read? (String.ofList (Json.numberText x)) = some (.number x)

end RuleSet

private theorem Comparison.ofTree?_tree (comparison : Comparison) :
    ofTree? comparison.toJson.tree = some comparison := by
  have hname : ofName comparison.name = comparison := by
    cases comparison <;> decide
  rw [toJson, Json.tree, ofTree?, Json.Quoted.string?_map_char, Option.map_some, hname]

namespace Condition

private theorem valueOfTree?_tree {value : Value} {depth : Nat}
    (h : ∀ x, value = .number x → x.isFinite = true → (Json.numeralOf x).value? = some x) :
    valueOfTree? depth value.toJson.tree = some value.kept := by
  have hread : Json.Readable depth value.toJson := by
    cases value with
    | number x => exact h x rfl
    | _ => trivial
  rw [valueOfTree?, Json.toJson?_tree hread]
  cases value with
  | number x =>
    rw [Value.toJson, Json.kept, Value.kept]
    cases x.isFinite <;> rfl
  | _ => rfl

/-- The members of a condition. -/
def members (condition : Condition) : List (String × Json) :=
  [("variable", .string condition.field), ("operator", condition.comparison.toJson),
    ("values", .array (condition.values.map Value.toJson))]

theorem record?_tree (condition : Condition) :
    condition.toJson.tree.record? ["variable", "operator", "values"] =
      some [some (Json.string condition.field).tree, some condition.comparison.toJson.tree,
        some (Json.array (condition.values.map Value.toJson)).tree] := by
  have hd : (condition.members.map Prod.fst).Nodup := by
    show ["variable", "operator", "values"].Nodup
    decide
  exact Tree.record?_tree hd

private theorem ofTree?_tree {condition : Condition} {depth : Nat}
    (h : ∀ x, .number x ∈ condition.values → x.isFinite = true →
      (Json.numeralOf x).value? = some x) :
    ofTree? depth condition.toJson.tree = some condition.kept := by
  have hvalues : valuesOfTree? depth (Json.array (condition.values.map Value.toJson)).tree =
      some (condition.values.map Value.kept) :=
    Tree.list?_tree fun value hv => valueOfTree?_tree fun x hx => h x (hx ▸ hv)
  rw [ofTree?, record?_tree]
  simp only [Option.bind_eq_bind, Option.bind_some, Tree.text?_tree, Comparison.ofTree?_tree,
    Option.map_some, Option.getD_some, hvalues]
  rfl

end Condition

namespace Rule

/-- The members of a rule. -/
def members (rule : Rule) : List (String × Json) :=
  [("conditions", .array (rule.conditions.map Condition.toJson)), ("formula", .string rule.formula)]

theorem record?_tree (rule : Rule) :
    rule.toJson.tree.record? ["conditions", "formula"] =
      some [some (Json.array (rule.conditions.map Condition.toJson)).tree,
        some (Json.string rule.formula).tree] := by
  have hd : (rule.members.map Prod.fst).Nodup := by
    show ["conditions", "formula"].Nodup
    decide
  exact Tree.record?_tree hd

private theorem ofTree?_tree {rule : Rule} {depth : Nat}
    (h : ∀ condition ∈ rule.conditions, ∀ x, .number x ∈ condition.values → x.isFinite = true →
      (Json.numeralOf x).value? = some x) :
    ofTree? depth rule.toJson.tree = some rule.kept := by
  have hconditions : Tree.list? (Condition.ofTree? depth)
      (Json.array (rule.conditions.map Condition.toJson)).tree =
        some (rule.conditions.map Condition.kept) :=
    Tree.list?_tree fun condition hc => Condition.ofTree?_tree (h condition hc)
  rw [ofTree?, record?_tree]
  simp only [Option.bind_eq_bind, Option.bind_some, Tree.text?_tree, Option.map_some,
    Option.getD_some, hconditions]
  rfl

end Rule

namespace RuleSet

theorem toJson_eq (rules : RuleSet) : rules.toJson =
    .object (Property.all.map fun property =>
      (property.name, .array ((rules.get property).map Rule.toJson))) := by
  rw [toJson, Property.Table.toList, List.map_map]
  rfl

private theorem ofTree?_tree {rules : RuleSet} (h : rules.NumbersReadBack) (depth : Nat) :
    ofTree? depth rules.toJson.tree = some rules.kept := by
  have hlist (property : Property) :
      rulesOfTree? depth (some (Json.array ((rules.get property).map Rule.toJson)).tree) =
        some ((rules.get property).map Rule.kept) := by
    rw [rulesOfTree?, Option.map_some, Option.getD_some]
    refine Tree.list?_tree fun rule hr => Rule.ofTree?_tree fun condition hc x hv hx => ?_
    exact Json.value?_numeralOf (h x ⟨property, rule, hr, condition, hc, hv⟩ hx)
  rw [ofTree?, toJson_eq, Tree.record?_properties]
  simp only [Property.all, List.map_cons, List.map_nil, Option.bind_eq_bind, Option.bind_some, hlist]
  rfl

private theorem ofJsonText?_kept {rules : RuleSet} (h : rules.NumbersReadBack) {text : String}
    (hw : rules.toJson.IsWritten text) : ofJsonText? text = some rules.kept := by
  rw [ofJsonText?, Tree.read?_written hw, Option.bind_some, ofTree?_tree h]

end RuleSet

private theorem Condition.isInf_of_valueOfTree? {depth : Nat} {t : Tree} {x : Float}
    (h : valueOfTree? depth t = some (.number x)) : x.isInf = false := by
  obtain ⟨json, hj, hv⟩ := Option.map_eq_some_iff.1 h
  have hnan (he : Value.number Decimal.notANumber = .number x) : x.isInf = false :=
    Value.number.inj he ▸ Decimal.isInf_notANumber
  -- what is no scalar is taken for NaN
  cases json with
  | number y =>
    obtain rfl : y = x := Value.number.inj hv
    obtain ⟨n, hn⟩ := Tree.exists_value?_of_toJson? hj
    exact Json.Numeral.isInf_value? hn
  | bool b => cases hv
  | string s => cases hv
  | null => exact hnan hv
  | array items => exact hnan hv
  | object members => exact hnan hv

private theorem Condition.exists_of_ofTree? {depth : Nat} {t : Tree} {condition : Condition}
    (h : ofTree? depth t = some condition) {value : Value} (hv : value ∈ condition.values) :
    ∃ item, valueOfTree? depth item = some value := by
  obtain ⟨-, -, -, hvalues⟩ := (ofTree?_eq_some_iff condition).1 h
  exact Tree.exists_of_map_eq (map_itemsOf_values hvalues) hv

private theorem Rule.exists_of_ofTree? {depth : Nat} {t : Tree} {rule : Rule}
    (h : ofTree? depth t = some rule) {condition : Condition} (hc : condition ∈ rule.conditions) :
    ∃ item, Condition.ofTree? depth item = some condition := by
  obtain ⟨-, hconditions, -⟩ := (ofTree?_eq_some_iff rule).1 h
  exact Tree.exists_of_map_eq (Tree.map_itemsOf hconditions) hc

namespace RuleSet

private theorem exists_of_ofTree? {depth : Nat} {t : Tree} {rules : RuleSet}
    (h : ofTree? depth t = some rules) {property : Property} {rule : Rule}
    (hr : rule ∈ rules.get property) : ∃ item, Rule.ofTree? depth item = some rule := by
  obtain ⟨-, hlists⟩ := (ofTree?_eq_some_iff rules).1 h
  exact Tree.exists_of_map_eq (Tree.map_itemsOf (hlists property)) hr

private theorem isInf_of_ofJsonText? {document : String} {rules : RuleSet}
    (h : ofJsonText? document = some rules) {x : Float} (hx : rules.HasValue (.number x)) :
    x.isInf = false := by
  obtain ⟨t, -, ht⟩ := Option.bind_eq_some_iff.1 h
  obtain ⟨property, rule, hr, condition, hc, hv⟩ := hx
  obtain ⟨_, hrule⟩ := exists_of_ofTree? ht hr
  obtain ⟨_, hcondition⟩ := Rule.exists_of_ofTree? hrule hc
  obtain ⟨_, hvalue⟩ := Condition.exists_of_ofTree? hcondition hv
  exact Condition.isInf_of_valueOfTree? hvalue

/-- A rule set that is read from a text of itself, compact or spread, is the same rule set exactly if no
value of a condition is infinite; and it is the same whenever it has itself been read from some text. -/
theorem ofJsonText?_written {rules : RuleSet} (h : rules.NumbersReadBack) {text : String}
    (hw : rules.toJson.IsWritten text) :
    (ofJsonText? text = some rules ↔ ∀ x, rules.HasValue (.number x) → x.isInf = false) ∧
      ∀ document, ofJsonText? document = some rules → ofJsonText? text = some rules := by
  have hsame : ofJsonText? text = some rules ↔
      ∀ x, rules.HasValue (.number x) → x.isInf = false := by
    rw [ofJsonText?_kept h hw, Option.some.injEq, kept_eq_iff]
  exact ⟨hsame, fun document hd => hsame.2 fun x hx => isInf_of_ofJsonText? hd hx⟩

/-- An operator that is not known, a value that is no scalar, a zero with a sign and a text that looks
like a number. -/
theorem ofJsonText?_written_odd :
    let rules := empty.addRule .width ⟨[⟨"Style", .unsupported,
      [.number Decimal.notANumber, .number (-0.0), .text "80", .bool true]⟩], "5"⟩
    let document := "\x7b\"width\":[\x7b\"conditions\":[\x7b\"variable\":\"Style\",\"operator\":\"startsWith\"," ++
      "\"values\":[[80],-0,\"80\",true]\x7d],\"formula\":\"5\"\x7d]\x7d"
    rules.NumbersReadBack ∧ rules.toJson.IsWritten (Json.compactText rules.toJson) ∧
      ofJsonText? document = some rules ∧ ofJsonText? (Json.compactText rules.toJson) = some rules := by
  intro rules document
  have hread : ofJsonText? document = some rules := by decide +kernel
  have hback : rules.NumbersReadBack := by
    rintro x ⟨property, rule, hr, condition, hc, hx⟩ hfinite
    have hvalue : x = Decimal.notANumber ∨ x = -0.0 := by
      cases property with
      | width =>
        obtain rfl := List.mem_singleton.1 hr
        obtain rfl := List.mem_singleton.1 hc
        simpa using hx
      | _ => cases hr
    rcases hvalue with rfl | rfl
    · exact absurd hfinite (by decide)
    · have hv : (Json.numeralOf (-0.0)).value? = some (-0.0) := by decide +kernel
      rw [Json.read?_numberText, hv]
      rfl
  exact ⟨hback, .inl rfl, hread, (ofJsonText?_written hback (.inl rfl)).2 document hread⟩

end RuleSet
end Millwork
