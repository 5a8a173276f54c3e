import Millwork.Proofs.Formula.Calls
/-!
# Fields as numbers

In arithmetic a field is the number that it counts as, whether it is a flag, a number or a text: a
formula that reads no text of a field has the same value for all orders whose fields count as the same
numbers.
-/
namespace Millwork
namespace Order
/-- The order with each field replaced by the number that it counts as. -/
def coerced (order : Order) : Order :=
  { order with fields := order.fields.map fun _ value => .number value.toNumber }

/-- The number that a field counts as; a field that the order lacks is NaN. -/
def amount (order : Order) (name : String) : Float :=
  ((order.get? name).map Value.toNumber).getD Decimal.notANumber

private theorem get?_coerced (order : Order) (name : String) :
    order.coerced.get? name = (order.get? name).map fun value => .number value.toNumber :=
  Std.ExtTreeMap.getElem?_map

private theorem amount_coerced (order : Order) (name : String) :
    order.coerced.amount name = order.amount name := by
  rw [amount, amount, get?_coerced, Option.map_map]
  rfl

end Order

namespace Formula
namespace Expr
def isField : Expr → Bool
  | .field _ => true
  | _ => false

/-- None of the calls reads a number off the front of the text of a field. -/
def Textless (calls : List (Function × List Expr)) : Prop :=
  ∀ call ∈ calls, call.1 = .parseFloat ∨ call.1 = .parseInt → ∀ arg ∈ call.2, arg.isField = false

instance (calls : List (Function × List Expr)) : Decidable (Textless calls) :=
  inferInstanceAs (Decidable (∀ call ∈ calls, _))

private theorem textless_append {calls more : List (Function × List Expr)} :
    Textless (calls ++ more) ↔ Textless calls ∧ Textless more :=
  List.forall_mem_append

private theorem textless_cons {function : Function} {args : List Expr}
    {calls : List (Function × List Expr)} :
    Textless ((function, args) :: calls) ↔
      (function = .parseFloat ∨ function = .parseInt → ∀ arg ∈ args, arg.isField = false) ∧
        Textless calls :=
  List.forall_mem_cons

private theorem toNumber_eval_field (order : Order) (name : String) :
    (eval order (.field name)).toNumber = order.amount name := by
  rw [eval, Order.amount]
  cases order.get? name with
  | none => rfl
  | some value => rfl

private theorem eval_eq_number (order : Order) {e : Expr} (h : e.isField = false) :
    e.eval order = .number (e.eval order).toNumber := by
  cases e with
  | field name => cases h
  | number | neg | binary | call => simp only [eval, Operand.toNumber]

private theorem evalAll_eq_numbers (order : Order) {es : List Expr} (h : ∀ e ∈ es, e.isField = false) :
    evalAll order es = ((evalAll order es).map Operand.toNumber).map .number := by
  induction es with
  | nil => rfl
  | cons e more ih =>
    rw [List.forall_mem_cons] at h
    rw [evalAll, List.map_cons, List.map_cons, ← eval_eq_number order h.1, ← ih h.2]

end Expr

private theorem Function.apply_congr {function : Function} {args others : List Operand}
    (hn : args.map Operand.toNumber = others.map Operand.toNumber)
    (ht : function = .parseFloat ∨ function = .parseInt → args = others) :
    function.apply args = function.apply others := by
  have hfirst : firstNumber args = firstNumber others := by
    rw [firstNumber, firstNumber, ← List.head?_map, ← List.head?_map, hn]
  cases function with
  | parseFloat => rw [ht (.inl rfl)]
  | parseInt => rw [ht (.inr rfl)]
  | min | max => rw [apply, apply, hn]
  | number | round | floor | ceil | abs => rw [apply, apply, hfirst]

namespace Expr
variable {a b : Order}

mutual
private theorem toNumber_eval_congr (e : Expr) (ht : Textless e.calls)
    (h : ∀ name ∈ e.fields, a.amount name = b.amount name) :
    (e.eval a).toNumber = (e.eval b).toNumber := by
  cases e with
  | number x => rfl
  | field name =>
    rw [toNumber_eval_field, toNumber_eval_field]
    exact h name (List.mem_singleton_self name)
  | neg operand => rw [eval, eval, toNumber_eval_congr operand ht h]
  | binary op lhs rhs =>
    rw [calls, textless_append] at ht
    rw [fields, List.forall_mem_append] at h
    rw [eval, eval, toNumber_eval_congr lhs ht.1 h.1, toNumber_eval_congr rhs ht.2 h.2]
  | call function args =>
    rw [calls, textless_cons] at ht
    have hn := map_toNumber_evalAll_congr args ht.2 h
    rw [eval, eval, Function.apply_congr hn]
    intro hreads
    rw [evalAll_eq_numbers a (ht.1 hreads), evalAll_eq_numbers b (ht.1 hreads), hn]

private theorem map_toNumber_evalAll_congr (es : List Expr) (ht : Textless (callsAll es))
    (h : ∀ name ∈ fieldsAll es, a.amount name = b.amount name) :
    (evalAll a es).map Operand.toNumber = (evalAll b es).map Operand.toNumber := by
  cases es with
  | nil => rfl
  | cons e more =>
    rw [callsAll, textless_append] at ht
    rw [fieldsAll, List.forall_mem_append] at h
    rw [evalAll, evalAll, List.map_cons, List.map_cons, toNumber_eval_congr e ht.1 h.1,
      map_toNumber_evalAll_congr more ht.2 h.2]
end

end Expr

/-- A formula in which no field is the argument of a function that reads texts has the same value when
each field is replaced by the number it counts as, and for all orders whose fields count as the same. -/
theorem evaluate_coerced {formula : Formula} (h : Expr.Textless formula.expr.calls) (order : Order) :
    formula.evaluate order.coerced = formula.evaluate order ∧
    ∀ other : Order, (∀ name ∈ formula.expr.fields, other.amount name = order.amount name) →
      formula.evaluate other = formula.evaluate order := by
  have hsame (other : Order)
      (ha : ∀ name ∈ formula.expr.fields, other.amount name = order.amount name) :
      formula.evaluate other = formula.evaluate order :=
    Expr.toNumber_eval_congr formula.expr h ha
  exact ⟨hsame order.coerced fun name _ => order.amount_coerced name, hsame⟩

example : (evaluateText "a + b" (Order.ofList [("a", .text "1"), ("b", .text "2")])).toOption =
    some 3 := by
  decide +kernel

/-- A text, a flag and a text with blanks around it, one of them behind a sign in `parseFloat`. -/
theorem evaluate_coerced_texts :
    let order := Order.ofList [("width", .text "29.75"), ("pair", .bool true), ("height", .text " 84 ")]
    let numbers := Order.ofList [("width", .number 29.75), ("pair", .number 1), ("height", .number 84)]
    ∃ formula, parse "parseFloat(-width) + height * pair" = .ok formula ∧
      Expr.Textless formula.expr.calls ∧
      formula.evaluate order.coerced = formula.evaluate order ∧
      formula.evaluate numbers = formula.evaluate order := by
  intro order numbers
  have hread : (parse "parseFloat(-width) + height * pair").toOption.map
      (fun formula => (decide (Expr.Textless formula.expr.calls), formula.expr.fields)) =
      some (true, ["width", "height", "pair"]) := by
    decide +kernel
  have hamount : ∀ name ∈ ["width", "height", "pair"], numbers.amount name = order.amount name := by
    decide +kernel +zetaReduce
  cases hp : parse "parseFloat(-width) + height * pair" with
  | error failure =>
    rw [hp] at hread
    cases hread
  | ok formula =>
    rw [hp] at hread
    obtain ⟨htext, hfields⟩ := Prod.mk.inj (Option.some.inj hread)
    have ht : Expr.Textless formula.expr.calls := of_decide_eq_true htext
    obtain ⟨hcoerced, hsame⟩ := evaluate_coerced ht order
    exact ⟨formula, rfl, ht, hcoerced, hsame numbers (by rwa [hfields])⟩

end Formula
end Millwork
