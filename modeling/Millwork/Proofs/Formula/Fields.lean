import Millwork.Formula
import Millwork.Proofs.Formula.Reading
/-!
# The fields of a formula

A formula can read no field but those that its text names: the fields of an expression are among the
names in the tokens it is read from, and its value hangs on these fields alone.
-/
namespace Millwork
/-- The orders give the same answer for each of the names. -/
def Order.Agree (names : List String) (a b : Order) : Prop :=
  ∀ name ∈ names, a.get? name = b.get? name

theorem Order.Agree.mono {names others : List String} {a b : Order} (h : Order.Agree names a b)
    (hs : others ⊆ names) : Order.Agree others a b := by
  intro name hn
  exact h name (hs hn)

theorem Order.agree_append {names others : List String} {a b : Order} :
    Order.Agree (names ++ others) a b ↔ Order.Agree names a b ∧ Order.Agree others a b :=
  List.forall_mem_append

namespace Formula
namespace Expr
mutual
def fields : Expr → List String
  | .number _ => []
  | .field name => [name]
  | .neg operand => operand.fields
  | .binary _ lhs rhs => lhs.fields ++ rhs.fields
  | .call _ args => fieldsAll args

def fieldsAll : List Expr → List String
  | [] => []
  | e :: more => e.fields ++ fieldsAll more
end

mutual
private theorem eval_congr {a b : Order} (e : Expr) (h : Order.Agree e.fields a b) :
    e.eval a = e.eval b := by
  cases e with
  | number x => rfl
  | field name =>
    have hn : a.get? name = b.get? name := h name (List.mem_singleton_self name)
    rw [eval, eval, hn]
  | neg operand =>
    rw [fields] at h
    rw [eval, eval, eval_congr operand h]
  | binary op lhs rhs =>
    rw [fields, Order.agree_append] at h
    rw [eval, eval, eval_congr lhs h.1, eval_congr rhs h.2]
  | call function args =>
    rw [fields] at h
    rw [eval, eval, evalAll_congr args h]

private theorem evalAll_congr {a b : Order} (es : List Expr) (h : Order.Agree (fieldsAll es) a b) :
    evalAll a es = evalAll b es := by
  cases es with
  | nil => rfl
  | cons e more =>
    rw [fieldsAll, Order.agree_append] at h
    rw [evalAll, evalAll, eval_congr e h.1, evalAll_congr more h.2]
end

end Expr

def Lexeme.name? : Lexeme → Option String
  | .name text | .field text => some text
  | _ => none

def namesOf (ls : List Lexeme) : List String :=
  ls.filterMap Lexeme.name?

@[simp] theorem namesOf_append (ls more : List Lexeme) :
    namesOf (ls ++ more) = namesOf ls ++ namesOf more :=
  List.filterMap_append

namespace Phrase
private def fieldsOf : (c : Category) → c.Value → List String
  | .sum, e | .product, e | .signed, e | .operand, e => Expr.fields e
  | .addends, more | .factors, more => Expr.fieldsAll (more.map Prod.snd)
  | .arguments, args | .furtherArguments, args => Expr.fieldsAll args

theorem collected_chain {α : Type} {collect : Expr → List α} {collectAll : List Expr → List α}
    (hbinary : ∀ op lhs rhs, collect (.binary op lhs rhs) = collect lhs ++ collect rhs)
    (hnil : collectAll [] = [])
    (hcons : ∀ e more, collectAll (e :: more) = collect e ++ collectAll more)
    (first : Expr) (more : List (Operator × Expr)) :
    collect (chain first more) = collect first ++ collectAll (more.map Prod.snd) := by
  unfold chain
  induction more generalizing first with
  | nil => rw [List.foldl_nil, List.map_nil, hnil, List.append_nil]
  | cons next more ih =>
    rw [List.foldl_cons, ih, List.map_cons, hcons, hbinary, List.append_assoc]

private theorem fields_chain (first : Expr) (more : List (Operator × Expr)) :
    (chain first more).fields = first.fields ++ Expr.fieldsAll (more.map Prod.snd) :=
  collected_chain (fun _ _ _ => rfl) rfl (fun _ _ => rfl) first more

private theorem subset_namesOf_cons {names : List String} (lexeme : Lexeme) {ls : List Lexeme}
    (h : names ⊆ namesOf ls) : names ⊆ namesOf (lexeme :: ls) := by
  rw [← List.singleton_append, namesOf_append]
  exact List.subset_append_of_subset_right _ h

private theorem append_subset_namesOf {names others : List String} {ls more : List Lexeme}
    (h : names ⊆ namesOf ls) (ho : others ⊆ namesOf more) :
    names ++ others ⊆ namesOf (ls ++ more) := by
  rw [namesOf_append]
  exact List.append_subset.2
    ⟨List.subset_append_of_subset_left _ h, List.subset_append_of_subset_right _ ho⟩

private theorem subset_namesOf_closed {names : List String} {ls : List Lexeme}
    (h : names ⊆ namesOf ls) :
    names ⊆ namesOf (.openParen :: (ls ++ [.closeParen])) := by
  apply subset_namesOf_cons
  rw [namesOf_append]
  exact List.subset_append_of_subset_left _ h

private theorem fieldsOf_subset {c : Category} (d : Phrase c) :
    fieldsOf c d.value ⊆ namesOf d.lexemes := by
  induction d with
  | sum first more ihf ihm | product first more ihf ihm =>
    simp only [value, fieldsOf, fields_chain, lexemes]
    exact append_subset_namesOf ihf ihm
  | addend sign term more ih ihm | factor scaling term more ih ihm =>
    simp only [value, fieldsOf, List.map_cons, Expr.fieldsAll, lexemes]
    exact subset_namesOf_cons _ (append_subset_namesOf ih ihm)
  | noAddend | noFactor | noArgument | noFurtherArgument | number => exact List.nil_subset _
  | sign s inner ih =>
    refine List.Subset.trans ?_ (subset_namesOf_cons _ ih)
    cases s with
    | plus => simp [value, fieldsOf, Expr.fields, Expr.fieldsAll]
    | minus => simp [value, fieldsOf, Expr.fields]
  | unsigned inner ih => exact ih
  | name text | field text => exact List.Subset.refl _
  | call text args ih =>
    simp only [value, fieldsOf, Expr.fields, lexemes]
    exact subset_namesOf_cons _ (subset_namesOf_closed ih)
  | group inner ih => exact subset_namesOf_closed ih
  | arguments first more ihf ihm =>
    simp only [value, fieldsOf, Expr.fieldsAll, lexemes]
    exact append_subset_namesOf ihf ihm
  | furtherArgument argument more iha ihm =>
    simp only [value, fieldsOf, Expr.fieldsAll, lexemes]
    exact subset_namesOf_cons _ (append_subset_namesOf iha ihm)

end Phrase

/-- The names and bracketed fields in a text; a text that cannot be cut into tokens has none. -/
def namesIn (source : String) : List String :=
  match tokens source with
  | .ok ts => namesOf (ts.map Token.lexeme)
  | .error _ => []

theorem exists_phrase {source : String} {e : Expr} (h : exprOf source = .ok e) :
    ∃ ts, tokens source = .ok ts ∧ ∃ d : Phrase .sum, d.lexemes = ts.map Token.lexeme ∧
      d.EveryCall Function.Takes ∧ d.value = e := by
  unfold exprOf at h
  cases ht : tokens source with
  | error cause =>
    rw [ht] at h
    cases h
  | ok ts =>
    rw [ht] at h
    obtain ⟨-, -, hr⟩ := (Expr.eq_ok_iff_run ts e).1 h
    obtain ⟨d, hl, hc, -, hv⟩ := (State.run_eq_some_iff _ e).1 hr
    exact ⟨ts, rfl, d, hl, hc, hv⟩

private theorem Expr.fields_subset {source : String} {e : Expr} (h : exprOf source = .ok e) :
    e.fields ⊆ namesIn source := by
  obtain ⟨ts, ht, d, hl, -, rfl⟩ := exists_phrase h
  rw [namesIn, ht]
  show d.value.fields ⊆ namesOf (ts.map Token.lexeme)
  rw [← hl]
  exact d.fieldsOf_subset

theorem exprOf_of_parse {source : String} {formula : Formula} (h : parse source = .ok formula) :
    exprOf source = .ok formula.expr := by
  unfold parse at h
  split at h
  · rename_i e he
    cases h
    exact he
  · cases h

theorem evaluateText_congr {source : String} {a b : Order} (h : Order.Agree (namesIn source) a b) :
    evaluateText source a = evaluateText source b := by
  unfold evaluateText parse
  cases he : exprOf source with
  | error cause => rfl
  | ok e =>
    have hv : e.eval a = e.eval b := e.eval_congr (h.mono (Expr.fields_subset he))
    simp only [Except.map, evaluate, hv]

end Formula
end Millwork
