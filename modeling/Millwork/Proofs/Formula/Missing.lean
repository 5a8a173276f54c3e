import Millwork.Proofs.Decimal.NotANumber
import Millwork.Proofs.Formula.Calls
/-!
# Missing fields

A formula that uses a field which the order lacks, or which holds NaN, has the value NaN: neither an
operation nor a function lets such an operand disappear, wherever it stands.
-/
namespace Millwork.Formula

/-- A field that the order lacks, or NaN. -/
inductive Operand.IsMissing : Operand → Prop
  | missing : IsMissing .missing
  | number {x : Float} (h : x.isNaN = true) : IsMissing (.number x)
  | field {x : Float} (h : x.isNaN = true) : IsMissing (.field (.number x))

namespace Operand
variable {a : Operand}

private theorem IsMissing.isNaN_toNumber (h : a.IsMissing) : a.toNumber.isNaN = true := by
  cases h with
  | missing => exact Decimal.isNaN_notANumber
  | number hx | field hx => exact hx

private theorem text_of_isNaN {x : Float} (h : x.isNaN = true) : Decimal.text x = "NaN" := by
  rw [Decimal.eq_of_isNaN h Decimal.isNaN_notANumber]
  decide +kernel

theorem IsMissing.toText (h : a.IsMissing) : a.toText = "undefined" ∨ a.toText = "NaN" := by
  cases h with
  | missing => exact .inl rfl
  | number hx | field hx => exact .inr (text_of_isNaN hx)

end Operand

private theorem isNaN_pick {before : Float → Float → Bool} {x y : Float}
    (h : x.isNaN = true ∨ y.isNaN = true) : (pick before x y).isNaN = true := by
  rw [pick, if_pos (Bool.or_eq_true_iff.2 h)]
  exact Decimal.isNaN_notANumber

private theorem isNaN_foldl_pick {before : Float → Float → Bool} {x : Float} {ys : List Float}
    (h : x.isNaN = true ∨ ∃ y ∈ ys, y.isNaN = true) :
    (ys.foldl (pick before) x).isNaN = true := by
  induction ys generalizing x with
  | nil =>
    rcases h with hx | ⟨y, hy, -⟩
    · exact hx
    · cases hy
  | cons next ys ih =>
    apply ih
    rcases h with hx | ⟨y, hy, hn⟩
    · exact .inl (isNaN_pick (.inl hx))
    · rcases List.mem_cons.1 hy with rfl | hmem
      · exact .inl (isNaN_pick (.inr hn))
      · exact .inr ⟨y, hmem, hn⟩

private theorem isNaN_roundHalfUp {x : Float} (h : x.isNaN = true) : (roundHalfUp x).isNaN = true := by
  rw [roundHalfUp, Decimal.isFinite_of_isNaN h, Bool.not_false, Bool.or_true, if_pos rfl]
  exact h

namespace Function
private theorem isNaN_apply_firstText {a : Operand} (h : a.IsMissing) :
    (apply .parseFloat [a]).isNaN = true ∧ (apply .parseInt [a]).isNaN = true := by
  simp only [apply, firstText, List.head?_cons, Option.map_some]
  rcases h.toText with ht | ht
  · rw [ht]
    decide +kernel
  · rw [ht]
    decide +kernel

private theorem isNaN_apply {function : Function} {args : List Operand}
    (hn : function.arity.allows args.length = true) {a : Operand} (ha : a ∈ args)
    (h : a.IsMissing) : (function.apply args).isNaN = true := by
  have hx : a.toNumber.isNaN = true := h.isNaN_toNumber
  have hamong : ∃ y ∈ args.map Operand.toNumber, y.isNaN = true :=
    ⟨_, List.mem_map_of_mem ha, hx⟩
  have hone (hf : ¬(function = .min ∨ function = .max)) : args = [a] := by
    have hlength := ((Phrase.allows_iff function args.length).1 hn).resolve_right fun h => hf h.1
    obtain ⟨b, rfl⟩ := List.length_eq_one_iff.1 hlength
    rw [List.mem_singleton.1 ha]
  cases function with
  | min | max => exact isNaN_foldl_pick (.inr hamong)
  | parseFloat =>
    rw [hone (by decide)]
    exact (isNaN_apply_firstText h).1
  | parseInt =>
    rw [hone (by decide)]
    exact (isNaN_apply_firstText h).2
  | number =>
    rw [hone (by decide)]
    exact hx
  | round =>
    rw [hone (by decide)]
    exact isNaN_roundHalfUp hx
  | floor =>
    rw [hone (by decide)]
    exact Decimal.isNaN_floor hx
  | ceil =>
    rw [hone (by decide)]
    exact Decimal.isNaN_ceil hx
  | abs =>
    rw [hone (by decide)]
    exact (Decimal.isNaN_abs _).trans hx

end Function

private theorem Operator.isNaN_apply (op : Operator) {x y : Float}
    (h : x.isNaN = true ∨ y.isNaN = true) : (op.apply x y).isNaN = true := by
  cases op with
  | add => exact Decimal.isNaN_add h
  | sub => exact Decimal.isNaN_sub h
  | mul => exact Decimal.isNaN_mul h
  | div => exact Decimal.isNaN_div h

namespace Expr
@[simp] theorem length_evalAll (order : Order) (es : List Expr) :
    (evalAll order es).length = es.length := by
  induction es with
  | nil => rfl
  | cons e more ih => rw [evalAll, List.length_cons, ih, List.length_cons]

variable {order : Order} {name : String}

mutual
private theorem isMissing_eval (hm : (eval order (.field name)).IsMissing) (e : Expr)
    (hc : Allowed e.calls) (hn : name ∈ e.fields) : (e.eval order).IsMissing := by
  cases e with
  | number x => cases hn
  | field other =>
    rw [fields, List.mem_singleton] at hn
    rw [← hn]
    exact hm
  | neg operand =>
    rw [eval]
    exact .number ((Decimal.isNaN_neg _).trans (isMissing_eval hm operand hc hn).isNaN_toNumber)
  | binary op lhs rhs =>
    rw [fields, List.mem_append] at hn
    rw [calls, allowed_append] at hc
    rw [eval]
    refine .number (op.isNaN_apply ?_)
    rcases hn with hl | hr
    · exact .inl (isMissing_eval hm lhs hc.1 hl).isNaN_toNumber
    · exact .inr (isMissing_eval hm rhs hc.2 hr).isNaN_toNumber
  | call function args =>
    rw [calls, allowed_cons, ← length_evalAll order args] at hc
    obtain ⟨a, ha, hmissing⟩ := exists_isMissing_evalAll hm args hc.2 hn
    rw [eval]
    exact .number (Function.isNaN_apply hc.1 ha hmissing)

private theorem exists_isMissing_evalAll (hm : (eval order (.field name)).IsMissing) (es : List Expr)
    (hc : Allowed (callsAll es)) (hn : name ∈ fieldsAll es) :
    ∃ a ∈ evalAll order es, a.IsMissing := by
  cases es with
  | nil => cases hn
  | cons e more =>
    rw [fieldsAll, List.mem_append] at hn
    rw [callsAll, allowed_append] at hc
    rw [evalAll]
    rcases hn with he | hmore
    · exact ⟨_, List.mem_cons_self, isMissing_eval hm e hc.1 he⟩
    · obtain ⟨a, ha, hmissing⟩ := exists_isMissing_evalAll hm more hc.2 hmore
      exact ⟨a, List.mem_cons_of_mem _ ha, hmissing⟩
end

end Expr

/-- A formula has the value NaN if one of its fields is not in the order or holds NaN there. -/
theorem isNaN_evaluate {source : String} {formula : Formula} (h : parse source = .ok formula)
    {order : Order} {name : String} (hn : name ∈ formula.expr.fields)
    (hm : order.get? name = none ∨ ∃ x, order.get? name = some (.number x) ∧ x.isNaN = true) :
    (formula.evaluate order).isNaN = true := by
  have hfield : (Expr.eval order (.field name)).IsMissing := by
    rw [Expr.eval]
    rcases hm with hnone | ⟨x, hx, hnan⟩
    · rw [hnone]
      exact .missing
    · rw [hx]
      exact .field hnan
  exact (Expr.isMissing_eval hfield formula.expr (calls_allowed h) hn).isNaN_toNumber

/-- A maximum does not fall back on the width. -/
theorem isNaN_evaluate_beside_width :
    let order := Order.ofList [("width", .number 29.75)]
    ∃ formula, parse "Math.max(width, parseFloat([No Such Field]))" = .ok formula ∧
      "No Such Field" ∈ formula.expr.fields ∧ order.get? "No Such Field" = none ∧
      (formula.evaluate order).isNaN = true := by
  intro order
  have hread : (parse "Math.max(width, parseFloat([No Such Field]))").toOption.map (·.expr.fields) =
      some ["width", "No Such Field"] := by
    decide +kernel
  have hnone : order.get? "No Such Field" = none := by
    simp [order, Order.ofList, Order.get?_insert]
  cases hp : parse "Math.max(width, parseFloat([No Such Field]))" with
  | error failure =>
    rw [hp] at hread
    cases hread
  | ok formula =>
    rw [hp] at hread
    have hf : formula.expr.fields = ["width", "No Such Field"] := Option.some.inj hread
    have hn : "No Such Field" ∈ formula.expr.fields := by
      rw [hf]
      decide
    exact ⟨formula, rfl, hn, hnone, isNaN_evaluate hp hn (.inl hnone)⟩

end Millwork.Formula
