import Millwork.Proofs.Formula.Grammar
/-!
# Reading tokens by the grammar

Reading tokens gives an expression exactly if their lexemes are those of a phrase that passes no more
parentheses, signs and calls than are allowed. Both halves follow the phrase: a phrase takes the reader
from the state before it to the state behind it, and where the reader succeeds, a phrase stands.
-/
namespace Millwork.Formula
namespace State
/-- The state after one lexeme; errors are not told apart. -/
def next? (s : State) (lexeme : Lexeme) : Option State :=
  (s.step ⟨lexeme, 0⟩).toOption

/-- The expression that the lexemes complete. -/
def run (s : State) : List Lexeme → Option Expr
  | [] => s.finish.toOption
  | lexeme :: more => (s.next? lexeme).bind (·.run more)

private theorem continueAfter_toOption (s : State) (e : Expr) (t t' : Token)
    (h : t.lexeme = t'.lexeme) :
    (s.continueAfter e t).toOption = (s.continueAfter e t').toOption := by
  unfold continueAfter
  rw [h]
  split <;> rfl

private theorem beginOperand_toOption (s : State) (t t' : Token) (h : t.lexeme = t'.lexeme) :
    (s.beginOperand t).toOption = (s.beginOperand t').toOption := by
  unfold beginOperand
  rw [h]
  split <;> rfl

private theorem step_toOption (s : State) (t : Token) : (s.step t).toOption = s.next? t.lexeme := by
  unfold next? step
  dsimp only
  split
  · exact beginOperand_toOption s t _ rfl
  · rfl
  · exact beginOperand_toOption s t _ rfl
  · rfl
  · exact continueAfter_toOption _ _ t _ rfl
  · exact continueAfter_toOption s _ t _ rfl

private theorem run_map_lexeme (s : State) (ts : List Token) :
    ((ts.foldlM step s).bind finish).toOption = s.run (ts.map Token.lexeme) := by
  induction ts generalizing s with
  | nil => rfl
  | cons t ts ih =>
    rw [List.foldlM_cons, List.map_cons, run, ← step_toOption]
    cases s.step t with
    | error e => rfl
    | ok s' => exact ih s'

def ambient (frames : List Frame) : Nat :=
  frames.foldl (fun n frame => n + 1 + frame.outer.signs.length) 0

private theorem foldl_ambient (frames : List Frame) (n : Nat) :
    frames.foldl (fun n frame => n + 1 + frame.outer.signs.length) n = n + ambient frames := by
  unfold ambient
  induction frames generalizing n with
  | nil => rfl
  | cons frame frames ih =>
    rw [List.foldl_cons, List.foldl_cons, ih, ih (0 + 1 + frame.outer.signs.length)]
    omega

theorem depth_eq (frames : List Frame) (level : Level) (place : Place) :
    (State.mk frames level place).depth = level.signs.length + ambient frames :=
  foldl_ambient frames _

theorem ambient_cons (outer : Level) (bracket : Bracket) (frames : List Frame) :
    ambient (⟨outer, bracket⟩ :: frames) = 1 + outer.signs.length + ambient frames := by
  rw [ambient, List.foldl_cons, foldl_ambient]

private theorem toOption_checkDepth (s : State) :
    (checkDepth s).toOption = if depthLimit < s.depth then none else some s := by
  unfold checkDepth
  split <;> rfl

private theorem run_pendingProduct (frames : List Frame) (sum product : Pending)
    (signs : List Sign) (e : Expr) (rest : List Lexeme) :
    run ⟨frames, ⟨sum, product, signs⟩, .after e⟩ rest =
      run ⟨frames, ⟨sum, none, signs⟩, .after (product.close e)⟩ rest := by
  cases rest with
  | nil => cases frames <;> rfl
  | cons lexeme rest =>
    have h : next? ⟨frames, ⟨sum, product, signs⟩, .after e⟩ lexeme =
        next? ⟨frames, ⟨sum, none, signs⟩, .after (product.close e)⟩ lexeme := by
      unfold next? step continueAfter
      dsimp only
      split <;> rfl
    rw [run, run, h]

private theorem run_pendingSum (frames : List Frame) (sum : Pending) (signs : List Sign) (e : Expr)
    {rest : List Lexeme} (hr : Category.product.Stops rest) :
    run ⟨frames, ⟨sum, none, signs⟩, .after e⟩ rest =
      run ⟨frames, ⟨none, none, signs⟩, .after (sum.close e)⟩ rest := by
  cases rest with
  | nil => cases frames <;> rfl
  | cons lexeme rest =>
    have hl := Category.stops_cons.1 hr
    have h : next? ⟨frames, ⟨sum, none, signs⟩, .after e⟩ lexeme =
        next? ⟨frames, ⟨none, none, signs⟩, .after (sum.close e)⟩ lexeme := by
      unfold next? step continueAfter
      dsimp only
      split <;> first | rfl | cases hl
    rw [run, run, h]

private theorem run_named (frames : List Frame) (level : Level) (text : String) {rest : List Lexeme}
    (hr : Category.operand.Stops rest) :
    run ⟨frames, level, .named text⟩ rest = run (complete frames level (.field text)) rest := by
  cases rest with
  | nil => cases frames <;> rfl
  | cons lexeme rest =>
    have hl := Category.stops_cons.1 hr
    have h : next? ⟨frames, level, .named text⟩ lexeme =
        next? (complete frames level (.field text)) lexeme := by
      cases lexeme <;> first | rfl | cases hl
    rw [run, run, h]

private theorem run_firstArgument (frames : List Frame) (level : Level) {lexeme : Lexeme}
    {rest : List Lexeme} (ho : opensOperand lexeme = true) :
    run ⟨frames, level, .firstArgument⟩ (lexeme :: rest) =
      run ⟨frames, level, .operand⟩ (lexeme :: rest) := by
  have h : next? ⟨frames, level, .firstArgument⟩ lexeme = next? ⟨frames, level, .operand⟩ lexeme := by
    cases lexeme <;> first | rfl | cases ho
  rw [run, run, h]

end State

open State

namespace Phrase
/-- A phrase takes the reader from the state before it to the state behind it, whatever follows, as
long as that does not belong to the phrase. -/
private def Runs : {c : Category} → Phrase c → Prop
  | .signed, d | .operand, d => ∀ frames level rest, Category.signed.Stops rest →
    level.signs.length + ambient frames + d.depth ≤ depthLimit →
    run ⟨frames, level, .operand⟩ (d.lexemes ++ rest) = run (complete frames level d.value) rest
  | .product, d => ∀ frames sum rest, Category.product.Stops rest →
    ambient frames + d.depth ≤ depthLimit →
    run ⟨frames, ⟨sum, none, []⟩, .operand⟩ (d.lexemes ++ rest) =
      run ⟨frames, ⟨sum, none, []⟩, .after d.value⟩ rest
  | .factors, d => ∀ frames sum e rest, Category.product.Stops rest →
    ambient frames + d.depth ≤ depthLimit →
    run ⟨frames, ⟨sum, none, []⟩, .after e⟩ (d.lexemes ++ rest) =
      run ⟨frames, ⟨sum, none, []⟩, .after (chain e d.value)⟩ rest
  | .sum, d => ∀ frames rest, Category.sum.Stops rest →
    ambient frames + d.depth ≤ depthLimit →
    run ⟨frames, {}, .operand⟩ (d.lexemes ++ rest) = run ⟨frames, {}, .after d.value⟩ rest
  | .addends, d => ∀ frames e rest, Category.sum.Stops rest →
    ambient frames + d.depth ≤ depthLimit →
    run ⟨frames, {}, .after e⟩ (d.lexemes ++ rest) = run ⟨frames, {}, .after (chain e d.value)⟩ rest
  | .arguments, d => ∀ frames outer function rest,
    1 + outer.signs.length + ambient frames + d.depth ≤ depthLimit →
    run ⟨⟨outer, .call function []⟩ :: frames, {}, .firstArgument⟩
        (d.lexemes ++ .closeParen :: rest) =
      (closeCall frames outer function d.value).toOption.bind (·.run rest)
  | .furtherArguments, d => ∀ frames outer function done e rest,
    1 + outer.signs.length + ambient frames + d.depth ≤ depthLimit →
    run ⟨⟨outer, .call function done⟩ :: frames, {}, .after e⟩
        (d.lexemes ++ .closeParen :: rest) =
      (closeCall frames outer function (done.reverse ++ e :: d.value)).toOption.bind (·.run rest)

private theorem runs_sign (s : Sign) {inner : Phrase .signed} (ih : inner.Runs) :
    (Phrase.sign s inner).Runs := by
  intro frames level rest hr hd
  have hd' : (s :: level.signs).length + ambient frames + inner.depth ≤ depthLimit := by
    simp only [depth, List.length_cons] at hd ⊢
    omega
  have ho : ¬depthLimit <
      (State.mk frames { level with signs := s :: level.signs } .operand).depth := by
    rw [depth_eq]
    exact Nat.not_lt.2 (Nat.le_trans (Nat.le_add_right _ inner.depth) hd')
  have hn : next? ⟨frames, level, .operand⟩ s.lexeme =
      some ⟨frames, { level with signs := s :: level.signs }, .operand⟩ := by
    cases s <;> exact (toOption_checkDepth _).trans (if_neg ho)
  rw [lexemes, List.cons_append, run, hn, Option.bind_some, ih frames _ rest hr hd']
  cases s <;> rfl

private theorem runs_group {inner : Phrase .sum} (ih : inner.Runs) : (Phrase.group inner).Runs := by
  intro frames level rest hr hd
  have hd' : ambient (⟨level, .group⟩ :: frames) + inner.depth ≤ depthLimit := by
    rw [ambient_cons]
    simp only [depth] at hd ⊢
    omega
  have ho : ¬depthLimit < (State.mk (⟨level, .group⟩ :: frames) {} .operand).depth := by
    rw [depth_eq]
    simp only [List.length_nil]
    omega
  have hn : next? ⟨frames, level, .operand⟩ .openParen =
      some ⟨⟨level, .group⟩ :: frames, {}, .operand⟩ :=
    (toOption_checkDepth _).trans (if_neg ho)
  rw [lexemes, List.cons_append, run, hn, Option.bind_some, List.append_assoc]
  show run _ (inner.lexemes ++ .closeParen :: rest) = _
  rw [ih _ _ (Category.stops_cons.2 rfl) hd']
  rfl

private theorem runs_call {text : String} {args : Phrase .arguments} {function : Function}
    (hf : Function.ofName? text = some function) (ha : function.arity.allows args.value.length = true)
    (ih : args.Runs) : (Phrase.call text args).Runs := by
  intro frames level rest hr hd
  have hd' : 1 + level.signs.length + ambient frames + args.depth ≤ depthLimit := by
    simp only [depth] at hd
    omega
  have ho : ¬depthLimit <
      (State.mk (⟨level, .call function []⟩ :: frames) {} .firstArgument).depth := by
    rw [depth_eq, ambient_cons]
    simp only [List.length_nil]
    omega
  have hn : next? ⟨frames, level, .named text⟩ .openParen =
      some ⟨⟨level, .call function []⟩ :: frames, {}, .firstArgument⟩ := by
    unfold next? step openCall
    simp only [hf]
    exact (toOption_checkDepth _).trans (if_neg ho)
  have hc : (closeCall frames level function args.value).toOption =
      some (complete frames level (.call function args.value)) := by
    simp only [closeCall, ha, if_true]
    rfl
  have hv : (Phrase.call text args).value = .call function args.value := by
    simp only [value, hf, Option.getD_some]
  rw [lexemes, List.cons_append, run]
  show run ⟨frames, level, .named text⟩ _ = _
  rw [List.cons_append, run, hn, Option.bind_some, List.append_assoc]
  show run _ (args.lexemes ++ .closeParen :: rest) = _
  rw [ih frames level function rest hd', hc, hv, Option.bind_some]

private theorem runs_sum {first : Phrase .product} {more : Phrase .addends} (ihf : first.Runs)
    (ihm : more.Runs) : (Phrase.sum first more).Runs := by
  intro frames rest hr hd
  simp only [depth] at hd
  rw [lexemes, List.append_assoc, ihf frames none _ (addends_stop more hr) (by omega),
    ihm frames _ rest hr (by omega), value]

private theorem runs_addend (s : Sign) {term : Phrase .product} {more : Phrase .addends}
    (iht : term.Runs) (ihm : more.Runs) : (Phrase.addend s term more).Runs := by
  intro frames e rest hr hd
  simp only [depth] at hd
  have hn : next? ⟨frames, {}, .after e⟩ s.lexeme =
      some ⟨frames, ⟨some (e, s.operator), none, []⟩, .operand⟩ := by
    cases s <;> rfl
  have hs := addends_stop more hr
  rw [lexemes, List.cons_append, run, hn, Option.bind_some, List.append_assoc,
    iht frames _ _ hs (by omega), run_pendingSum _ _ _ _ hs]
  show run ⟨frames, {}, .after (.binary s.operator e term.value)⟩ _ = _
  rw [ihm frames _ rest hr (by omega)]
  rfl

private theorem runs_product {first : Phrase .signed} {more : Phrase .factors} (ihf : first.Runs)
    (ihm : more.Runs) : (Phrase.product first more).Runs := by
  intro frames sum rest hr hd
  simp only [depth] at hd
  rw [lexemes, List.append_assoc, ihf frames _ _ (factors_stop more hr) (by simp; omega)]
  show run ⟨frames, ⟨sum, none, []⟩, .after first.value⟩ _ = _
  rw [ihm frames sum _ rest hr (by omega), value]

private theorem runs_factor (scaling : Scaling) {inner : Phrase .signed} {more : Phrase .factors}
    (iho : inner.Runs) (ihm : more.Runs) : (Phrase.factor scaling inner more).Runs := by
  intro frames sum e rest hr hd
  simp only [depth] at hd
  have hn : next? ⟨frames, ⟨sum, none, []⟩, .after e⟩ scaling.lexeme =
      some ⟨frames, ⟨sum, some (e, scaling.operator), []⟩, .operand⟩ := by
    cases scaling <;> rfl
  rw [lexemes, List.cons_append, run, hn, Option.bind_some, List.append_assoc,
    iho frames _ _ (factors_stop more hr) (by simp; omega)]
  show run ⟨frames, ⟨sum, some (e, scaling.operator), []⟩, .after inner.value⟩ _ = _
  rw [run_pendingProduct]
  show run ⟨frames, ⟨sum, none, []⟩, .after (.binary scaling.operator e inner.value)⟩ _ = _
  rw [ihm frames sum _ rest hr (by omega)]
  rfl

private theorem runs_arguments {first : Phrase .sum} {more : Phrase .furtherArguments}
    (ihf : first.Runs) (ihm : more.Runs) : (Phrase.arguments first more).Runs := by
  intro frames outer function rest hd
  simp only [depth] at hd
  obtain ⟨lexeme, tail, hl, ho⟩ := sum_head first
  have hs : Category.sum.Stops (more.lexemes ++ .closeParen :: rest) :=
    furtherArguments_stop more (Category.stops_cons.2 rfl)
  rw [lexemes, List.append_assoc]
  have hb : run ⟨⟨outer, .call function []⟩ :: frames, {}, .firstArgument⟩
        (first.lexemes ++ (more.lexemes ++ .closeParen :: rest)) =
      run ⟨⟨outer, .call function []⟩ :: frames, {}, .operand⟩
        (first.lexemes ++ (more.lexemes ++ .closeParen :: rest)) := by
    rw [hl]
    exact run_firstArgument _ _ ho
  rw [hb, ihf _ _ hs (by rw [ambient_cons]; omega), ihm frames outer function [] _ rest (by omega)]
  rfl

private theorem runs_furtherArgument {argument : Phrase .sum} {more : Phrase .furtherArguments}
    (iha : argument.Runs) (ihm : more.Runs) : (Phrase.furtherArgument argument more).Runs := by
  intro frames outer function done e rest hd
  simp only [depth] at hd
  have hs : Category.sum.Stops (more.lexemes ++ .closeParen :: rest) :=
    furtherArguments_stop more (Category.stops_cons.2 rfl)
  have hn : next? ⟨⟨outer, .call function done⟩ :: frames, {}, .after e⟩ .comma =
      some ⟨⟨outer, .call function (e :: done)⟩ :: frames, {}, .operand⟩ := rfl
  rw [lexemes, List.cons_append, run, hn, Option.bind_some, List.append_assoc,
    iha _ _ hs (by rw [ambient_cons]; omega), ihm frames outer function _ _ rest (by omega),
    List.reverse_cons, List.append_assoc]
  rfl

theorem allows_iff (function : Function) (n : Nat) :
    function.arity.allows n = true ↔ n = 1 ∨ ((function = .min ∨ function = .max) ∧ 1 ≤ n) := by
  cases function <;> simp [Function.arity, Function.Arity.allows] <;> omega

private theorem runs {c : Category} (d : Phrase c) (h : d.EveryCall Function.Takes) : d.Runs := by
  induction d with
  | sum first more ihf ihm => exact runs_sum (ihf h.1) (ihm h.2)
  | noAddend => exact fun _ _ _ _ _ => rfl
  | addend s term more iht ihm => exact runs_addend s (iht h.1) (ihm h.2)
  | product first more ihf ihm => exact runs_product (ihf h.1) (ihm h.2)
  | noFactor => exact fun _ _ _ _ _ _ => rfl
  | factor scaling inner more iho ihm => exact runs_factor scaling (iho h.1) (ihm h.2)
  | sign s inner ih => exact runs_sign s (ih h)
  | unsigned inner ih => exact ih h
  | number x => exact fun _ _ _ _ _ => rfl
  | name text => exact fun frames level rest hr _ => run_named frames level text hr
  | field text => exact fun _ _ _ _ _ => rfl
  | call text args ih =>
    obtain ⟨⟨function, hf, ha⟩, hc⟩ := h
    exact runs_call hf ((allows_iff function _).2 ha) (ih hc)
  | group inner ih => exact runs_group (ih h)
  | noArgument => exact fun _ _ _ _ _ => rfl
  | arguments first more ihf ihm => exact runs_arguments (ihf h.1) (ihm h.2)
  | noFurtherArgument =>
    intro frames outer function done e rest _
    rw [value, ← List.reverse_cons]
    rfl
  | furtherArgument argument more iha ihm => exact runs_furtherArgument (iha h.1) (ihm h.2)

end Phrase

open Phrase

namespace State
/-- The states in which a phrase of a category may begin, and how the text must not go on there. -/
inductive Entry : Category → State → List Lexeme → Prop
  | signed (frames : List Frame) (level : Level) (ls : List Lexeme) :
    Entry .signed ⟨frames, level, .operand⟩ ls
  | product (frames : List Frame) (sum : Pending) (ls : List Lexeme) :
    Entry .product ⟨frames, ⟨sum, none, []⟩, .operand⟩ ls
  | factors (frames : List Frame) (sum : Pending) (e : Expr) {ls : List Lexeme}
    (h : Category.signed.Stops ls) : Entry .factors ⟨frames, ⟨sum, none, []⟩, .after e⟩ ls
  | sum (frames : List Frame) (ls : List Lexeme) : Entry .sum ⟨frames, {}, .operand⟩ ls
  | addends (frames : List Frame) (e : Expr) {ls : List Lexeme} (h : Category.product.Stops ls) :
    Entry .addends ⟨frames, {}, .after e⟩ ls
  | arguments (frames : List Frame) (outer : Level) (function : Function) (ls : List Lexeme) :
    Entry .arguments ⟨⟨outer, .call function []⟩ :: frames, {}, .firstArgument⟩ ls
  | furtherArguments (frames : List Frame) (outer : Level) (function : Function) (done : List Expr)
    (e : Expr) {ls : List Lexeme} (h : Category.sum.Stops ls) :
    Entry .furtherArguments ⟨⟨outer, .call function done⟩ :: frames, {}, .after e⟩ ls

end State

def Category.Ends : Category → List Lexeme → Prop
  | .arguments, rest | .furtherArguments, rest => ∃ more, rest = .closeParen :: more
  | c, rest => c.Stops rest

def Category.Found (c : Category) (ls : List Lexeme) : Prop :=
  ∀ s : State, State.Entry c s ls → s.depth ≤ depthLimit → (s.run ls).isSome →
    ∃ (d : Phrase c) (rest : List Lexeme), ls = d.lexemes ++ rest ∧ c.Ends rest ∧
      d.EveryCall Function.Takes ∧ s.depth + d.depth ≤ depthLimit

namespace State
private theorem after_stops {frames : List Frame} {level : Level} {e : Expr} {ls : List Lexeme}
    (h : (run ⟨frames, level, .after e⟩ ls).isSome) : Category.signed.Stops ls := by
  cases ls with
  | nil => exact Category.stops_nil _
  | cons lexeme ls => cases lexeme <;> first | exact Category.stops_cons.2 rfl | cases h

private theorem group_closes {frames : List Frame} {outer : Level} {e : Expr} {ls : List Lexeme}
    (hs : Category.sum.Stops ls) (h : (run ⟨⟨outer, .group⟩ :: frames, {}, .after e⟩ ls).isSome) :
    ∃ rest, ls = .closeParen :: rest := by
  cases ls with
  | nil => cases h
  | cons lexeme ls =>
    have hl := Category.stops_cons.1 hs
    cases lexeme <;> first | exact ⟨ls, rfl⟩ | cases h | cases hl

private theorem run_checkDepth {s s' : State} {lexeme : Lexeme} {ls : List Lexeme}
    (hn : s.next? lexeme = (checkDepth s').toOption) (h : (s.run (lexeme :: ls)).isSome) :
    s'.depth ≤ depthLimit ∧ (s'.run ls).isSome := by
  rw [run, hn, toOption_checkDepth] at h
  split at h
  · cases h
  · exact ⟨by omega, h⟩

end State

namespace Category
abbrev FoundBelow (ls : List Lexeme) : Prop :=
  ∀ ls' : List Lexeme, ls'.length < ls.length → ∀ c : Category, c.Found ls'

private theorem found_sign (s : Sign) {ls : List Lexeme} (ih : FoundBelow (s.lexeme :: ls)) :
    Category.signed.Found (s.lexeme :: ls) := by
  intro state hs hd hr
  cases hs with
  | signed frames level =>
    have hn : next? ⟨frames, level, .operand⟩ s.lexeme =
        (checkDepth ⟨frames, { level with signs := s :: level.signs }, .operand⟩).toOption := by
      cases s <;> rfl
    obtain ⟨hd', hr'⟩ := run_checkDepth hn hr
    obtain ⟨inner, rest, rfl, he, hc, hi⟩ := ih ls (by simp) .signed _ (.signed ..) hd' hr'
    refine ⟨.sign s inner, rest, rfl, he, hc, ?_⟩
    simp only [depth_eq, List.length_cons, Phrase.depth] at hi ⊢
    omega

private theorem found_group {ls : List Lexeme} (ih : FoundBelow (.openParen :: ls)) :
    Category.signed.Found (.openParen :: ls) := by
  intro state hs hd hr
  cases hs with
  | signed frames level =>
    have hn : next? ⟨frames, level, .operand⟩ .openParen =
        (checkDepth ⟨⟨level, .group⟩ :: frames, {}, .operand⟩).toOption := rfl
    obtain ⟨hd', hr'⟩ := run_checkDepth hn hr
    obtain ⟨inner, rest, rfl, he, hc, hi⟩ := ih ls (by simp) .sum _ (.sum ..) hd' hr'
    simp only [depth_eq, ambient_cons, List.length_nil] at hi
    rw [runs inner hc _ _ he (by rw [ambient_cons]; omega)] at hr'
    obtain ⟨rest, rfl⟩ := group_closes he hr'
    refine ⟨.unsigned (.group inner), rest, ?_, after_stops hr', hc, ?_⟩
    · simp [lexemes]
    · simp only [depth_eq, Phrase.depth]
      omega

private theorem found_call (text : String) {ls : List Lexeme}
    (ih : FoundBelow (.name text :: .openParen :: ls)) :
    Category.signed.Found (.name text :: .openParen :: ls) := by
  intro state hs hd hr
  cases hs with
  | signed frames level =>
    have hr : (run ⟨frames, level, .named text⟩ (.openParen :: ls)).isSome := hr
    cases hf : Function.ofName? text with
    | none => simp [run, next?, step, openCall, hf, Except.toOption] at hr
    | some function =>
      have hn : next? ⟨frames, level, .named text⟩ .openParen =
          (checkDepth ⟨⟨level, .call function []⟩ :: frames, {}, .firstArgument⟩).toOption := by
        simp only [next?, step, openCall, hf]
      obtain ⟨hd', hr'⟩ := run_checkDepth hn hr
      obtain ⟨args, rest, rfl, ⟨rest, rfl⟩, hc, hi⟩ :=
        ih ls (by simp only [List.length_cons]; omega) .arguments _ (.arguments ..) hd' hr'
      simp only [depth_eq, ambient_cons, List.length_nil] at hi
      rw [runs args hc frames level function rest (by omega)] at hr'
      unfold closeCall at hr'
      split at hr'
      · rename_i ha
        refine ⟨.unsigned (.call text args), rest, by simp [lexemes], after_stops hr',
          ⟨⟨function, hf, (allows_iff function _).1 ha⟩, hc⟩, ?_⟩
        simp only [depth_eq, Phrase.depth]
        omega
      · cases hr'

private theorem exists_scaling {ls : List Lexeme} (h : Category.signed.Stops ls)
    (hp : ¬Category.product.Stops ls) : ∃ (scaling : Scaling) (more : List Lexeme),
    ls = scaling.lexeme :: more := by
  cases ls with
  | nil => exact absurd (stops_nil _) hp
  | cons lexeme ls =>
    have hl := stops_cons.1 h
    rw [stops_cons] at hp
    cases lexeme with
    | star => exact ⟨.times, ls, rfl⟩
    | slash => exact ⟨.over, ls, rfl⟩
    | openParen => cases hl
    | _ => exact absurd rfl hp

private theorem exists_sign {ls : List Lexeme} (h : Category.product.Stops ls)
    (hp : ¬Category.sum.Stops ls) : ∃ (sign : Sign) (more : List Lexeme),
    ls = sign.lexeme :: more := by
  cases ls with
  | nil => exact absurd (stops_nil _) hp
  | cons lexeme ls =>
    have hl := stops_cons.1 h
    rw [stops_cons] at hp
    cases lexeme with
    | plus => exact ⟨.plus, ls, rfl⟩
    | minus => exact ⟨.minus, ls, rfl⟩
    | openParen | star | slash => cases hl
    | _ => exact absurd rfl hp

private theorem found_atom (atom : Phrase .operand) {lexeme : Lexeme} {e : Expr} {ls : List Lexeme}
    (hl : atom.lexemes = [lexeme]) (hc : atom.EveryCall Function.Takes) (hd : atom.depth = 0)
    (hn : ∀ frames level, run ⟨frames, level, .operand⟩ (lexeme :: ls) =
      run (complete frames level e) ls) :
    Category.signed.Found (lexeme :: ls) := by
  intro state hs hs' hr
  cases hs with
  | signed frames level =>
    rw [hn] at hr
    refine ⟨.unsigned atom, ls, ?_, after_stops hr, hc, ?_⟩
    · rw [lexemes, hl]
      rfl
    · rw [Phrase.depth, hd]
      exact hs'

private theorem found_signed {ls : List Lexeme} (ih : FoundBelow ls) : Category.signed.Found ls := by
  cases ls with
  | nil =>
    intro s hs _ hr
    cases hs with
    | signed frames level => cases frames <;> cases hr
  | cons lexeme ls =>
    cases lexeme with
    | number x => exact found_atom (.number x) rfl trivial rfl fun _ _ => rfl
    | field text => exact found_atom (.field text) rfl trivial rfl fun _ _ => rfl
    | name text =>
      by_cases hp : Category.operand.Stops ls
      · exact found_atom (.name text) rfl trivial rfl fun frames level =>
          run_named frames level text hp
      · cases ls with
        | nil => exact absurd (stops_nil _) hp
        | cons lexeme ls =>
          have hl : lexeme = .openParen := by simpa [stops_cons, takes] using hp
          subst hl
          exact found_call text ih
    | plus => exact found_sign .plus ih
    | minus => exact found_sign .minus ih
    | openParen => exact found_group ih
    | star | slash | closeParen | comma => intro s hs _ hr; cases hs; cases hr

private theorem length_lt_append {ls : List Lexeme} (h : 0 < ls.length) (rest : List Lexeme) :
    rest.length < (ls ++ rest).length := by
  rw [List.length_append]
  omega

private theorem length_lt_cons_append (lexeme : Lexeme) (ls rest : List Lexeme) :
    rest.length < (lexeme :: (ls ++ rest)).length := by
  rw [List.length_cons, List.length_append]
  omega

private theorem signed_lexemes_length (d : Phrase .signed) : 0 < d.lexemes.length := by
  obtain ⟨lexeme, more, hl, _⟩ := signed_head d
  simp [hl]

private theorem found_product {ls : List Lexeme} (ih : FoundBelow ls) : Category.product.Found ls := by
  intro state hs hd hr
  cases hs with
  | product frames sum =>
    obtain ⟨first, rest, rfl, he, hc, hf⟩ := found_signed ih _ (.signed ..) hd hr
    simp only [depth_eq, List.length_nil, Nat.zero_add] at hf
    rw [runs first hc _ _ _ he (by simpa using hf)] at hr
    obtain ⟨more, rest, rfl, he', hc', hm⟩ :=
      ih rest (length_lt_append (signed_lexemes_length first) rest) .factors _
        (.factors frames sum first.value he) hd hr
    refine ⟨.product first more, rest, by simp [lexemes], he', ⟨hc, hc'⟩, ?_⟩
    simp only [depth_eq, Phrase.depth, List.length_nil] at hm ⊢
    omega

private theorem found_factors {ls : List Lexeme} (ih : FoundBelow ls) : Category.factors.Found ls := by
  intro state hs hd hr
  cases hs with
  | factors frames sum e h =>
    by_cases hp : Category.product.Stops ls
    · exact ⟨.noFactor, ls, rfl, hp, trivial, hd⟩
    · obtain ⟨scaling, ls, rfl⟩ := exists_scaling h hp
      have hn : next? ⟨frames, ⟨sum, none, []⟩, .after e⟩ scaling.lexeme =
          some ⟨frames, ⟨sum, some (e, scaling.operator), []⟩, .operand⟩ := by
        cases scaling <;> rfl
      rw [run, hn, Option.bind_some] at hr
      obtain ⟨inner, rest, rfl, he, hc, hi⟩ := ih ls (by simp) .signed
        ⟨frames, ⟨sum, some (e, scaling.operator), []⟩, .operand⟩ (.signed ..) hd hr
      simp only [depth_eq, List.length_nil, Nat.zero_add] at hi
      rw [runs inner hc _ _ _ he (by simpa using hi)] at hr
      replace hr : (run ⟨frames, ⟨sum, some (e, scaling.operator), []⟩, .after inner.value⟩
          rest).isSome := hr
      rw [run_pendingProduct] at hr
      obtain ⟨more, rest, rfl, he', hc', hm⟩ :=
        ih rest (length_lt_cons_append _ _ rest) .factors
          ⟨frames, ⟨sum, none, []⟩, .after (.binary scaling.operator e inner.value)⟩
          (.factors _ _ _ he) hd hr
      refine ⟨.factor scaling inner more, rest, by simp [lexemes], he', ⟨hc, hc'⟩, ?_⟩
      simp only [depth_eq, Phrase.depth, List.length_nil] at hm ⊢
      omega

private theorem product_lexemes_length (d : Phrase .product) : 0 < d.lexemes.length := by
  cases d with
  | product first more =>
    have := signed_lexemes_length first
    simp only [lexemes, List.length_append]
    omega

private theorem found_sum {ls : List Lexeme} (ih : FoundBelow ls) : Category.sum.Found ls := by
  intro state hs hd hr
  cases hs with
  | sum frames =>
    obtain ⟨first, rest, rfl, he, hc, hf⟩ := found_product ih _ (.product ..) hd hr
    simp only [depth_eq, List.length_nil, Nat.zero_add] at hf
    rw [runs first hc _ _ _ he hf] at hr
    obtain ⟨more, rest, rfl, he', hc', hm⟩ :=
      ih rest (length_lt_append (product_lexemes_length first) rest) .addends _
        (.addends frames first.value he) hd hr
    refine ⟨.sum first more, rest, by simp [lexemes], he', ⟨hc, hc'⟩, ?_⟩
    simp only [depth_eq, Phrase.depth, List.length_nil] at hm ⊢
    omega

private theorem found_addends {ls : List Lexeme} (ih : FoundBelow ls) : Category.addends.Found ls := by
  intro state hs hd hr
  cases hs with
  | addends frames e h =>
    by_cases hp : Category.sum.Stops ls
    · exact ⟨.noAddend, ls, rfl, hp, trivial, hd⟩
    · obtain ⟨sign, ls, rfl⟩ := exists_sign h hp
      have hn : next? ⟨frames, {}, .after e⟩ sign.lexeme =
          some ⟨frames, ⟨some (e, sign.operator), none, []⟩, .operand⟩ := by
        cases sign <;> rfl
      rw [run, hn, Option.bind_some] at hr
      obtain ⟨term, rest, rfl, he, hc, hi⟩ := ih ls (by simp) .product
        ⟨frames, ⟨some (e, sign.operator), none, []⟩, .operand⟩ (.product ..) hd hr
      simp only [depth_eq, List.length_nil, Nat.zero_add] at hi
      rw [runs term hc _ _ _ he hi, run_pendingSum _ _ _ _ he] at hr
      obtain ⟨more, rest, rfl, he', hc', hm⟩ :=
        ih rest (length_lt_cons_append _ _ rest) .addends
          ⟨frames, {}, .after (.binary sign.operator e term.value)⟩ (.addends _ _ he) hd hr
      refine ⟨.addend sign term more, rest, by simp [lexemes], he', ⟨hc, hc'⟩, ?_⟩
      simp only [depth_eq, Phrase.depth, List.length_nil] at hm ⊢
      omega

private theorem found_arguments {ls : List Lexeme} (ih : FoundBelow ls) :
    Category.arguments.Found ls := by
  intro state hs hd hr
  cases hs with
  | arguments frames outer function =>
    cases ls with
    | nil => cases hr
    | cons lexeme ls =>
      cases ho : opensOperand lexeme with
      | false =>
        cases lexeme with
        | closeParen => exact ⟨.noArgument, _, rfl, ⟨ls, rfl⟩, trivial, hd⟩
        | _ => first | cases hr | cases ho
      | true =>
        rw [run_firstArgument _ _ ho] at hr
        obtain ⟨first, rest, hl, he, hc, hf⟩ := found_sum ih _ (.sum ..) hd hr
        rw [hl] at hr ih ⊢
        simp only [depth_eq, List.length_nil, Nat.zero_add] at hf
        rw [runs first hc _ _ he hf] at hr
        have hlen : 0 < first.lexemes.length := by
          obtain ⟨lexeme, more, hl, _⟩ := sum_head first
          simp [hl]
        obtain ⟨more, rest, rfl, he', hc', hm⟩ :=
          ih rest (length_lt_append hlen rest) .furtherArguments _
            (.furtherArguments frames outer function [] first.value he) hd hr
        refine ⟨.arguments first more, rest, by simp [lexemes], he', ⟨hc, hc'⟩, ?_⟩
        simp only [depth_eq, Phrase.depth, List.length_nil] at hm ⊢
        omega

private theorem found_furtherArguments {ls : List Lexeme} (ih : FoundBelow ls) :
    Category.furtherArguments.Found ls := by
  intro state hs hd hr
  cases hs with
  | furtherArguments frames outer function done e h =>
    cases ls with
    | nil => cases hr
    | cons lexeme ls =>
      have hl := stops_cons.1 h
      cases lexeme with
      | closeParen => exact ⟨.noFurtherArgument, _, rfl, ⟨ls, rfl⟩, trivial, hd⟩
      | comma =>
        replace hr : (run ⟨⟨outer, .call function (e :: done)⟩ :: frames, {}, .operand⟩ ls).isSome :=
          hr
        have hd' : (State.mk (⟨outer, .call function (e :: done)⟩ :: frames) {} .operand).depth ≤
            depthLimit := hd
        obtain ⟨argument, rest, rfl, he, hc, hi⟩ := ih ls (by simp) .sum _ (.sum ..) hd' hr
        have hi' := hi
        simp only [depth_eq, List.length_nil, Nat.zero_add] at hi'
        rw [runs argument hc _ _ he hi'] at hr
        obtain ⟨more, rest, rfl, he', hc', hm⟩ :=
          ih rest (length_lt_cons_append _ _ rest) .furtherArguments _
            (.furtherArguments frames outer function (e :: done) argument.value he) hd' hr
        refine ⟨.furtherArgument argument more, rest, by simp [lexemes], he', ⟨hc, hc'⟩, ?_⟩
        simp only [depth_eq, ambient_cons, Phrase.depth, List.length_nil] at hi hm ⊢
        omega
      | _ => first | cases hr | cases hl

theorem found (c : Category) (ls : List Lexeme) : c.Found ls := by
  induction h : ls.length using Nat.strongRecOn generalizing c ls with
  | ind n ih =>
    subst h
    have below : FoundBelow ls := fun ls' hl c' => ih ls'.length hl c' ls' rfl
    cases c with
    | sum => exact found_sum below
    | addends => exact found_addends below
    | product => exact found_product below
    | factors => exact found_factors below
    | signed => exact found_signed below
    | operand => intro s hs; cases hs
    | arguments => exact found_arguments below
    | furtherArguments => exact found_furtherArguments below

end Category

namespace State
theorem run_eq_some_iff (ls : List Lexeme) (e : Expr) :
    run {} ls = some e ↔
      ∃ d : Phrase .sum, d.lexemes = ls ∧ d.EveryCall Function.Takes ∧ d.depth ≤ depthLimit ∧
        d.value = e := by
  constructor
  · intro h
    obtain ⟨d, rest, rfl, he, hc, hd⟩ :=
      Category.found .sum ls {} (.sum [] ls) (Nat.zero_le _) (by rw [h]; rfl)
    simp only [depth_eq, List.length_nil, Nat.zero_add] at hd
    rw [runs d hc _ _ he hd] at h
    cases rest with
    | nil => exact ⟨d, (List.append_nil _).symm, hc, by simpa [ambient] using hd, Option.some.inj h⟩
    | cons lexeme rest =>
      have hl := Category.stops_cons.1 he
      cases lexeme <;> first | cases h | cases hl
  · rintro ⟨d, rfl, hc, hd, rfl⟩
    have h := runs d hc [] [] (Category.stops_nil _) (by simpa [ambient] using hd)
    rw [List.append_nil] at h
    exact h

end State

namespace Expr
theorem eq_ok_iff_run (ts : List Token) (e : Expr) :
    ofTokens ts = .ok e ↔ ts ≠ [] ∧ ts.length ≤ 1024 ∧ run {} (ts.map Token.lexeme) = some e := by
  have hr : ((ts.foldlM step {}).bind finish).toOption = some e ↔
      (ts.foldlM step {}).bind finish = .ok e := by
    cases (ts.foldlM step {}).bind finish <;> simp [Except.toOption]
  rw [run_map_lexeme] at hr
  unfold ofTokens
  split
  · rename_i hn
    simp [List.isEmpty_iff.1 hn]
  · rename_i hn
    have hn' : ts ≠ [] := by simpa using hn
    split
    · rename_i hl
      have : ¬ts.length ≤ 1024 := Nat.not_le.2 hl
      simp [this]
    · rename_i hl
      have hl' : ts.length ≤ 1024 := Nat.not_lt.1 hl
      simp only [ne_eq, hn', not_false_eq_true, hl', true_and]
      exact hr.symm

end Expr
end Millwork.Formula
