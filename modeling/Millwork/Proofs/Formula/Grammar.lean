import Millwork.Formula.Parser
/-!
# The grammar of formulas

    sum     := product (('+' | '-') product)*
    product := signed (('*' | '/') signed)*
    signed  := ('+' | '-') signed | operand
    operand := NUMBER | NAME | FIELD | NAME '(' arguments? ')' | '(' sum ')'
    arguments := sum (',' sum)*

A phrase is a derivation of this grammar. Its lexemes are what it derives; its value is the expression
that it stands for. The grammar is unambiguous: a phrase is known by its lexemes
(`Phrase.lexemes_injective`).
-/
namespace Millwork.Formula
inductive Category
  | sum
  /-- What follows the first product of a sum. -/
  | addends
  | product
  /-- What follows the first operand of a product. -/
  | factors
  | signed
  | operand
  /-- What stands between the parentheses of a call. -/
  | arguments
  /-- What follows the first argument of a call. -/
  | furtherArguments
deriving DecidableEq

def Sign.lexeme : Sign → Lexeme
  | .plus => .plus
  | .minus => .minus

/-- A sign between two products. -/
def Sign.operator : Sign → Operator
  | .plus => .add
  | .minus => .sub

inductive Scaling
  | times
  | over
deriving DecidableEq

def Scaling.lexeme : Scaling → Lexeme
  | .times => .star
  | .over => .slash

def Scaling.operator : Scaling → Operator
  | .times => .mul
  | .over => .div

inductive Phrase : Category → Type
  | sum (first : Phrase .product) (more : Phrase .addends) : Phrase .sum
  | noAddend : Phrase .addends
  | addend (sign : Sign) (term : Phrase .product) (more : Phrase .addends) : Phrase .addends
  | product (first : Phrase .signed) (more : Phrase .factors) : Phrase .product
  | noFactor : Phrase .factors
  | factor (scaling : Scaling) (operand : Phrase .signed) (more : Phrase .factors) : Phrase .factors
  | sign (sign : Sign) (inner : Phrase .signed) : Phrase .signed
  | unsigned (operand : Phrase .operand) : Phrase .signed
  | number (value : Float) : Phrase .operand
  | name (text : String) : Phrase .operand
  | field (text : String) : Phrase .operand
  | call (name : String) (arguments : Phrase .arguments) : Phrase .operand
  | group (inner : Phrase .sum) : Phrase .operand
  | noArgument : Phrase .arguments
  | arguments (first : Phrase .sum) (more : Phrase .furtherArguments) : Phrase .arguments
  | noFurtherArgument : Phrase .furtherArguments
  | furtherArgument (argument : Phrase .sum) (more : Phrase .furtherArguments) :
    Phrase .furtherArguments

/-- A name is that of a function which takes `n` arguments: exactly one, but the minimum and the maximum
take any number from one on. -/
def Function.Takes (text : String) (n : Nat) : Prop :=
  ∃ function, ofName? text = some function ∧
    (n = 1 ∨ ((function = min ∨ function = max) ∧ 1 ≤ n))

/-- What a phrase stands for. -/
abbrev Category.Value : Category → Type
  | .sum | .product | .signed | .operand => Expr
  | .addends | .factors => List (Operator × Expr)
  | .arguments | .furtherArguments => List Expr

namespace Phrase
@[simp] def lexemes : {c : Category} → Phrase c → List Lexeme
  | _, .sum first more => first.lexemes ++ more.lexemes
  | _, .noAddend => []
  | _, .addend s term more => s.lexeme :: (term.lexemes ++ more.lexemes)
  | _, .product first more => first.lexemes ++ more.lexemes
  | _, .noFactor => []
  | _, .factor scaling inner more => scaling.lexeme :: (inner.lexemes ++ more.lexemes)
  | _, .sign s inner => s.lexeme :: inner.lexemes
  | _, .unsigned inner => inner.lexemes
  | _, .number x => [.number x]
  | _, .name text => [.name text]
  | _, .field text => [.field text]
  | _, .call text args => .name text :: .openParen :: (args.lexemes ++ [.closeParen])
  | _, .group inner => .openParen :: (inner.lexemes ++ [.closeParen])
  | _, .noArgument => []
  | _, .arguments first more => first.lexemes ++ more.lexemes
  | _, .noFurtherArgument => []
  | _, .furtherArgument argument more => .comma :: (argument.lexemes ++ more.lexemes)

def chain (first : Expr) (more : List (Operator × Expr)) : Expr :=
  more.foldl (fun lhs next => .binary next.1 lhs next.2) first

/-- Parentheses leave no trace in the expression, and a plus in front is a call of `Number`. -/
@[simp] def value : {c : Category} → Phrase c → c.Value
  | _, .sum first more => chain first.value more.value
  | _, .noAddend => ([] : List (Operator × Expr))
  | _, .addend s term more => List.cons (s.operator, term.value) more.value
  | _, .product first more => chain first.value more.value
  | _, .noFactor => ([] : List (Operator × Expr))
  | _, .factor scaling inner more => List.cons (scaling.operator, inner.value) more.value
  | _, .sign .minus inner => Expr.neg inner.value
  | _, .sign .plus inner => Expr.call .number [inner.value]
  | _, .unsigned inner => inner.value
  | _, .number x => Expr.number x
  | _, .name text => Expr.field text
  | _, .field text => Expr.field text
  -- Reading refuses a name that is no function.
  | _, .call text args => Expr.call ((Function.ofName? text).getD .number) args.value
  | _, .group inner => inner.value
  | _, .noArgument => ([] : List Expr)
  | _, .arguments first more => List.cons first.value more.value
  | _, .noFurtherArgument => ([] : List Expr)
  | _, .furtherArgument argument more => List.cons argument.value more.value

/-- How many parentheses, signs and calls a path through the phrase may pass. -/
@[simp] def depth : {c : Category} → Phrase c → Nat
  | _, .sum first more => max first.depth more.depth
  | _, .noAddend => 0
  | _, .addend _ term more => max term.depth more.depth
  | _, .product first more => max first.depth more.depth
  | _, .noFactor => 0
  | _, .factor _ inner more => max inner.depth more.depth
  | _, .sign _ inner => inner.depth + 1
  | _, .unsigned inner => inner.depth
  | _, .number _ | _, .name _ | _, .field _ => 0
  | _, .call _ args => args.depth + 1
  | _, .group inner => inner.depth + 1
  | _, .noArgument => 0
  | _, .arguments first more => max first.depth more.depth
  | _, .noFurtherArgument => 0
  | _, .furtherArgument argument more => max argument.depth more.depth

/-- Whether `P` holds of the name and the number of arguments of every call. -/
def EveryCall (P : String → Nat → Prop) : {c : Category} → Phrase c → Prop
  | _, .sum first more => first.EveryCall P ∧ more.EveryCall P
  | _, .noAddend => True
  | _, .addend _ term more => term.EveryCall P ∧ more.EveryCall P
  | _, .product first more => first.EveryCall P ∧ more.EveryCall P
  | _, .noFactor => True
  | _, .factor _ inner more => inner.EveryCall P ∧ more.EveryCall P
  | _, .sign _ inner => inner.EveryCall P
  | _, .unsigned inner => inner.EveryCall P
  | _, .number _ | _, .name _ | _, .field _ => True
  | _, .call text args => P text (List.length args.value) ∧ args.EveryCall P
  | _, .group inner => inner.EveryCall P
  | _, .noArgument => True
  | _, .arguments first more => first.EveryCall P ∧ more.EveryCall P
  | _, .noFurtherArgument => True
  | _, .furtherArgument argument more => argument.EveryCall P ∧ more.EveryCall P

end Phrase

def Category.takes (c : Category) (lexeme : Lexeme) : Bool :=
  match c with
  | .signed | .operand => lexeme == .openParen
  | .product | .factors => [.openParen, .star, .slash].contains lexeme
  | .sum | .addends => [.openParen, .star, .slash, .plus, .minus].contains lexeme
  | .arguments | .furtherArguments => lexeme != .closeParen

def Category.Stops (c : Category) (rest : List Lexeme) : Prop :=
  ∀ lexeme more, rest = lexeme :: more → c.takes lexeme = false

theorem Category.stops_cons {c : Category} {lexeme : Lexeme} {rest : List Lexeme} :
    c.Stops (lexeme :: rest) ↔ c.takes lexeme = false := by
  constructor
  · intro h
    exact h lexeme rest rfl
  · intro h next more he
    rw [← (List.cons.inj he).1]
    exact h

theorem Category.stops_nil (c : Category) : c.Stops [] := by
  intro lexeme more h
  cases h

theorem Category.Stops.mono {c c' : Category}
    (hc : ∀ lexeme, c.takes lexeme = true → c'.takes lexeme = true) {rest : List Lexeme}
    (h : c'.Stops rest) : c.Stops rest := by
  intro lexeme more he
  have hl := h lexeme more he
  cases ht : c.takes lexeme with
  | false => rfl
  | true => rw [hc lexeme ht] at hl; cases hl

def opensOperand : Lexeme → Bool
  | .number _ | .name _ | .field _ | .plus | .minus | .openParen => true
  | _ => false

namespace Phrase
private theorem operand_head (d : Phrase .operand) :
    ∃ lexeme more, d.lexemes = lexeme :: more ∧ opensOperand lexeme = true := by
  cases d <;> exact ⟨_, _, rfl, rfl⟩

theorem signed_head (d : Phrase .signed) :
    ∃ lexeme more, d.lexemes = lexeme :: more ∧ opensOperand lexeme = true := by
  cases d with
  | sign s inner => cases s <;> exact ⟨_, _, rfl, rfl⟩
  | unsigned inner => exact operand_head inner

theorem sum_head (d : Phrase .sum) :
    ∃ lexeme more, d.lexemes = lexeme :: more ∧ opensOperand lexeme = true := by
  cases d with
  | sum first more =>
    cases first with
    | product first factors =>
      obtain ⟨lexeme, rest, hl, ho⟩ := signed_head first
      exact ⟨lexeme, rest ++ factors.lexemes ++ more.lexemes, by simp [lexemes, hl], ho⟩

theorem addends_stop (more : Phrase .addends) {rest : List Lexeme} (h : Category.sum.Stops rest) :
    Category.product.Stops (more.lexemes ++ rest) := by
  cases more with
  | noAddend => exact h.mono fun lexeme ht => by cases lexeme <;> first | rfl | cases ht
  | addend s term more => cases s <;> exact Category.stops_cons.2 rfl

theorem factors_stop (more : Phrase .factors) {rest : List Lexeme} (h : Category.product.Stops rest) :
    Category.signed.Stops (more.lexemes ++ rest) := by
  cases more with
  | noFactor => exact h.mono fun lexeme ht => by cases lexeme <;> first | rfl | cases ht
  | factor scaling inner more => cases scaling <;> exact Category.stops_cons.2 rfl

theorem furtherArguments_stop (more : Phrase .furtherArguments) {rest : List Lexeme}
    (h : Category.furtherArguments.Stops rest) : Category.sum.Stops (more.lexemes ++ rest) := by
  cases more with
  | noFurtherArgument => exact h.mono fun lexeme ht => by cases lexeme <;> first | rfl | cases ht
  | furtherArgument argument more => exact Category.stops_cons.2 rfl

def Unique {c : Category} (d : Phrase c) : Prop :=
  ∀ (d' : Phrase c) (rest rest' : List Lexeme), c.Stops rest → c.Stops rest' →
    d.lexemes ++ rest = d'.lexemes ++ rest' → d = d' ∧ rest = rest'

/-- Two phrases one behind the other, the second of which cannot belong to the first. -/
theorem Unique.pair {c c' : Category} {first first' : Phrase c} {more more' : Phrase c'}
    (ihf : first.Unique) (ihm : more.Unique) {rest rest' : List Lexeme}
    (hs : c.Stops (more.lexemes ++ rest)) (hs' : c.Stops (more'.lexemes ++ rest'))
    (h : c'.Stops rest) (h' : c'.Stops rest')
    (he : first.lexemes ++ (more.lexemes ++ rest) = first'.lexemes ++ (more'.lexemes ++ rest')) :
    first = first' ∧ more = more' ∧ rest = rest' := by
  obtain ⟨hfirst, hrest⟩ := ihf first' _ _ hs hs' he
  exact ⟨hfirst, ihm more' rest rest' h h' hrest⟩

private theorem unique_sum {first : Phrase .product} {more : Phrase .addends} (ihf : first.Unique)
    (ihm : more.Unique) : (Phrase.sum first more).Unique := by
  intro d' rest rest' h h' he
  cases d' with
  | sum first' more' =>
    simp only [lexemes, List.append_assoc] at he
    obtain ⟨rfl, rfl, hr⟩ := ihf.pair ihm (addends_stop more h) (addends_stop more' h') h h' he
    exact ⟨rfl, hr⟩

private theorem unique_product {first : Phrase .signed} {more : Phrase .factors} (ihf : first.Unique)
    (ihm : more.Unique) : (Phrase.product first more).Unique := by
  intro d' rest rest' h h' he
  cases d' with
  | product first' more' =>
    simp only [lexemes, List.append_assoc] at he
    obtain ⟨rfl, rfl, hr⟩ := ihf.pair ihm (factors_stop more h) (factors_stop more' h') h h' he
    exact ⟨rfl, hr⟩

private theorem addend_not_stops (s : Sign) (term : Phrase .product) (more : Phrase .addends)
    (rest : List Lexeme) : ¬Category.addends.Stops ((addend s term more).lexemes ++ rest) := by
  intro h
  have hl := h s.lexeme _ rfl
  cases s <;> cases hl

private theorem factor_not_stops (scaling : Scaling) (inner : Phrase .signed) (more : Phrase .factors)
    (rest : List Lexeme) : ¬Category.factors.Stops ((factor scaling inner more).lexemes ++ rest) := by
  intro h
  have hl := h scaling.lexeme _ rfl
  cases scaling <;> cases hl

private theorem unique_noAddend : noAddend.Unique := by
  intro d' rest rest' h h' he
  cases d' with
  | noAddend => exact ⟨rfl, he⟩
  | addend s term more =>
    have he' : rest = (addend s term more).lexemes ++ rest' := he
    rw [he'] at h
    exact absurd h (addend_not_stops s term more rest')

private theorem unique_addend (s : Sign) {term : Phrase .product} {more : Phrase .addends}
    (iht : term.Unique) (ihm : more.Unique) : (addend s term more).Unique := by
  intro d' rest rest' h h' he
  cases d' with
  | noAddend =>
    have he' : (addend s term more).lexemes ++ rest = rest' := he
    rw [← he'] at h'
    exact absurd h' (addend_not_stops s term more rest)
  | addend s' term' more' =>
    simp only [lexemes, List.cons_append, List.append_assoc, List.cons.injEq] at he
    obtain ⟨hs, ht⟩ := he
    obtain ⟨rfl, rfl, hr⟩ := iht.pair ihm (addends_stop more h) (addends_stop more' h') h h' ht
    have : s = s' := by cases s <;> cases s' <;> first | rfl | cases hs
    exact ⟨by rw [this], hr⟩

private theorem unique_noFactor : noFactor.Unique := by
  intro d' rest rest' h h' he
  cases d' with
  | noFactor => exact ⟨rfl, he⟩
  | factor scaling inner more =>
    have he' : rest = (factor scaling inner more).lexemes ++ rest' := he
    rw [he'] at h
    exact absurd h (factor_not_stops scaling inner more rest')

private theorem unique_factor (scaling : Scaling) {inner : Phrase .signed} {more : Phrase .factors}
    (ihi : inner.Unique) (ihm : more.Unique) : (factor scaling inner more).Unique := by
  intro d' rest rest' h h' he
  cases d' with
  | noFactor =>
    have he' : (factor scaling inner more).lexemes ++ rest = rest' := he
    rw [← he'] at h'
    exact absurd h' (factor_not_stops scaling inner more rest)
  | factor scaling' inner' more' =>
    simp only [lexemes, List.cons_append, List.append_assoc, List.cons.injEq] at he
    obtain ⟨hs, hi⟩ := he
    obtain ⟨rfl, rfl, hr⟩ := ihi.pair ihm (factors_stop more h) (factors_stop more' h') h h' hi
    have : scaling = scaling' := by cases scaling <;> cases scaling' <;> first | rfl | cases hs
    exact ⟨by rw [this], hr⟩

private theorem unique_sign (s : Sign) {inner : Phrase .signed} (ih : inner.Unique) :
    (Phrase.sign s inner).Unique := by
  intro d' rest rest' h h' he
  cases d' with
  | sign s' inner' =>
    simp only [lexemes, List.cons_append, List.cons.injEq] at he
    obtain ⟨rfl, hr⟩ := ih inner' rest rest' h h' he.2
    have : s = s' := by cases s <;> cases s' <;> first | rfl | cases he.1
    exact ⟨by rw [this], hr⟩
  | unsigned inner' =>
    cases s <;> cases inner' <;> simp [lexemes, Sign.lexeme] at he

private theorem unique_unsigned {inner : Phrase .operand} (ih : inner.Unique) :
    (unsigned inner).Unique := by
  intro d' rest rest' h h' he
  cases d' with
  | sign s' inner' =>
    cases s' <;> cases inner <;> simp [lexemes, Sign.lexeme] at he
  | unsigned inner' =>
    obtain ⟨rfl, hr⟩ := ih inner' rest rest' (h.mono fun _ ht => ht) (h'.mono fun _ ht => ht) he
    exact ⟨rfl, hr⟩

private theorem unique_name (text : String) : (name text).Unique := by
  intro d' rest rest' h h' he
  cases d' <;> simp [lexemes] at he
  · exact ⟨by rw [he.1], he.2⟩
  · exact absurd (h _ _ he.2) (by decide)

private theorem unique_call (text : String) {args : Phrase .arguments} (ih : args.Unique) :
    (call text args).Unique := by
  intro d' rest rest' h h' he
  cases d' <;> simp [lexemes] at he
  · exact absurd (h' _ _ he.2.symm) (by decide)
  · obtain ⟨rfl, hr⟩ := ih _ _ _ (Category.stops_cons.2 rfl) (Category.stops_cons.2 rfl) he.2
    exact ⟨by rw [he.1], (List.cons.inj hr).2⟩

private theorem unique_group {inner : Phrase .sum} (ih : inner.Unique) : (group inner).Unique := by
  intro d' rest rest' h h' he
  cases d' <;> simp [lexemes] at he
  obtain ⟨rfl, hr⟩ := ih _ _ _ (Category.stops_cons.2 rfl) (Category.stops_cons.2 rfl) he
  exact ⟨rfl, (List.cons.inj hr).2⟩

private theorem arguments_not_stops (first : Phrase .sum) (more : Phrase .furtherArguments)
    (rest : List Lexeme) : ¬Category.arguments.Stops ((arguments first more).lexemes ++ rest) := by
  intro h
  obtain ⟨lexeme, tail, hl, ho⟩ := sum_head first
  have hs := h lexeme (tail ++ (more.lexemes ++ rest)) (by simp [lexemes, hl])
  cases lexeme <;> simp_all [Category.takes, opensOperand]

private theorem unique_noArgument : noArgument.Unique := by
  intro d' rest rest' h h' he
  cases d' with
  | noArgument => exact ⟨rfl, he⟩
  | arguments first more =>
    have he' : rest = (arguments first more).lexemes ++ rest' := he
    rw [he'] at h
    exact absurd h (arguments_not_stops first more rest')

private theorem unique_arguments {first : Phrase .sum} {more : Phrase .furtherArguments}
    (ihf : first.Unique) (ihm : more.Unique) : (arguments first more).Unique := by
  intro d' rest rest' h h' he
  cases d' with
  | noArgument =>
    have he' : (arguments first more).lexemes ++ rest = rest' := he
    rw [← he'] at h'
    exact absurd h' (arguments_not_stops first more rest)
  | arguments first' more' =>
    simp only [lexemes, List.append_assoc] at he
    obtain ⟨rfl, rfl, hr⟩ :=
      ihf.pair ihm (furtherArguments_stop more h) (furtherArguments_stop more' h') h h' he
    exact ⟨rfl, hr⟩

private theorem unique_noFurtherArgument : noFurtherArgument.Unique := by
  intro d' rest rest' h h' he
  cases d' with
  | noFurtherArgument => exact ⟨rfl, he⟩
  | furtherArgument argument more => exact absurd (h _ _ he) (by decide)

private theorem unique_furtherArgument {argument : Phrase .sum} {more : Phrase .furtherArguments}
    (iha : argument.Unique) (ihm : more.Unique) : (furtherArgument argument more).Unique := by
  intro d' rest rest' h h' he
  cases d' with
  | noFurtherArgument => exact absurd (h' _ _ he.symm) (by decide)
  | furtherArgument argument' more' =>
    simp only [lexemes, List.cons_append, List.append_assoc, List.cons.injEq, true_and] at he
    obtain ⟨rfl, rfl, hr⟩ :=
      iha.pair ihm (furtherArguments_stop more h) (furtherArguments_stop more' h') h h' he
    exact ⟨rfl, hr⟩

theorem unique {c : Category} (d : Phrase c) : d.Unique := by
  induction d with
  | sum first more ihf ihm => exact unique_sum ihf ihm
  | noAddend => exact unique_noAddend
  | addend s term more iht ihm => exact unique_addend s iht ihm
  | product first more ihf ihm => exact unique_product ihf ihm
  | noFactor => exact unique_noFactor
  | factor scaling inner more ihi ihm => exact unique_factor scaling ihi ihm
  | sign s inner ih => exact unique_sign s ih
  | unsigned inner ih => exact unique_unsigned ih
  | number x | field text =>
    intro d' rest rest' h h' he
    cases d' <;> simp [lexemes] at he
    exact ⟨by rw [he.1], he.2⟩
  | name text => exact unique_name text
  | call text args ih => exact unique_call text ih
  | group inner ih => exact unique_group ih
  | noArgument => exact unique_noArgument
  | arguments first more ihf ihm => exact unique_arguments ihf ihm
  | noFurtherArgument => exact unique_noFurtherArgument
  | furtherArgument argument more iha ihm => exact unique_furtherArgument iha ihm

end Phrase
end Millwork.Formula
