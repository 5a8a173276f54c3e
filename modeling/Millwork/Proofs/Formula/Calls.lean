import Millwork.Proofs.Formula.Fields
/-!
# The calls of a formula

Every call in an expression that is read from a text has as many arguments as its function takes.
-/
namespace Millwork.Formula
namespace Expr
mutual
/-- The calls in an expression, each with its arguments. -/
def calls : Expr → List (Function × List Expr)
  | .number _ | .field _ => []
  | .neg operand => operand.calls
  | .binary _ lhs rhs => lhs.calls ++ rhs.calls
  | .call function args => (function, args) :: callsAll args

def callsAll : List Expr → List (Function × List Expr)
  | [] => []
  | e :: more => e.calls ++ callsAll more
end

def Allowed (calls : List (Function × List Expr)) : Prop :=
  ∀ call ∈ calls, call.1.arity.allows call.2.length = true

theorem allowed_append {calls more : List (Function × List Expr)} :
    Allowed (calls ++ more) ↔ Allowed calls ∧ Allowed more :=
  List.forall_mem_append

theorem allowed_cons {function : Function} {args : List Expr} {calls : List (Function × List Expr)} :
    Allowed ((function, args) :: calls) ↔
      function.arity.allows args.length = true ∧ Allowed calls :=
  List.forall_mem_cons

end Expr

namespace Phrase
open Formula.Expr

private def callsOf : (c : Category) → c.Value → List (Function × List Expr)
  | .sum, e | .product, e | .signed, e | .operand, e => e.calls
  | .addends, more | .factors, more => callsAll (more.map Prod.snd)
  | .arguments, args | .furtherArguments, args => callsAll args

private theorem calls_chain (first : Expr) (more : List (Operator × Expr)) :
    (chain first more).calls = first.calls ++ callsAll (more.map Prod.snd) :=
  collected_chain (fun _ _ _ => rfl) rfl (fun _ _ => rfl) first more

private theorem callsOf_allowed {c : Category} (d : Phrase c) (h : d.EveryCall Function.Takes) :
    Allowed (callsOf c d.value) := by
  have none : Allowed [] := fun _ hc => by cases hc
  induction d with
  | sum first more ihf ihm | product first more ihf ihm =>
    simp only [value, callsOf, calls_chain]
    exact allowed_append.2 ⟨ihf h.1, ihm h.2⟩
  | addend sign term more ih ihm | factor scaling term more ih ihm =>
    simp only [value, callsOf, List.map_cons, callsAll]
    exact allowed_append.2 ⟨ih h.1, ihm h.2⟩
  | noAddend | noFactor | noArgument | noFurtherArgument | number | name | field => exact none
  | sign s inner ih =>
    cases s with
    | plus =>
      simp only [value, callsOf, calls, callsAll, List.append_nil]
      exact allowed_cons.2 ⟨rfl, ih h⟩
    | minus => exact ih h
  | unsigned inner ih | group inner ih => exact ih h
  | call text args ih =>
    obtain ⟨⟨function, hf, hn⟩, hargs⟩ := h
    simp only [value, callsOf, calls, hf, Option.getD_some]
    exact allowed_cons.2 ⟨(allows_iff function _).2 hn, ih hargs⟩
  | arguments first more ihf ihm | furtherArgument first more ihf ihm =>
    simp only [value, callsOf, callsAll]
    exact allowed_append.2 ⟨ihf h.1, ihm h.2⟩

end Phrase

theorem calls_allowed {source : String} {formula : Formula} (h : parse source = .ok formula) :
    Expr.Allowed formula.expr.calls := by
  obtain ⟨ts, -, d, -, hc, hv⟩ := exists_phrase (exprOf_of_parse h)
  rw [← hv]
  exact d.callsOf_allowed hc

end Millwork.Formula
