import Millwork.Formula.Lexer
import Millwork.Proofs.Formula.Continuation
/-!
# Where reading a formula fails

The error of a text that is no formula points at the first token that no formula has behind what has
been read; if there is none, the text ends too early, calls something that is no function, or nests too
much.
-/
namespace Millwork.Formula
open State

private theorem utf8Length_pos {s : List Char} (h : s ≠ []) : 0 < utf8Length s := by
  rw [utf8Length, Nat.pos_iff_ne_zero, Ne, String.utf8ByteSize_eq_zero_iff]
  exact fun he => h (String.ofList_eq_empty_iff.1 he)

private theorem tokensFrom_ascending {offset : Nat} {s : List Char} {ts : List Token}
    (h : tokensFrom offset s = .ok ts) :
    (∀ t ∈ ts, offset ≤ t.offset) ∧ ts.Pairwise fun t t' => t.offset < t'.offset := by
  induction offset, s using tokensFrom.induct generalizing ts with
  | case1 offset =>
    rw [tokensFrom] at h
    cases h
    simp
  | case2 offset c s hb ih =>
    rw [tokensFrom, if_pos hb] at h
    obtain ⟨hle, hp⟩ := ih h
    exact ⟨fun t ht => Nat.le_of_add_right_le (hle t ht), hp⟩
  | case3 offset c s hb lexeme spelling hr ih =>
    rw [tokensFrom, if_neg hb, hr] at h
    simp only at h
    cases hmore : tokensFrom (offset + utf8Length spelling) (s.drop (spelling.length - 1)) with
    | error e =>
      rw [hmore] at h
      cases h
    | ok more =>
      rw [hmore] at h
      cases h
      obtain ⟨hle, hp⟩ := ih hmore
      have hpos := utf8Length_pos (readLexeme?_spelling hr).2
      have hlt : ∀ t ∈ more, offset < t.offset := fun t ht => by
        have := hle t ht
        omega
      exact ⟨List.forall_mem_cons.2 ⟨Nat.le_refl _, fun t ht => Nat.le_of_lt (hlt t ht)⟩,
        List.pairwise_cons.2 ⟨hlt, hp⟩⟩
  | case4 offset c s hb hr =>
    rw [tokensFrom, if_neg hb, hr] at h
    cases h

private theorem offset_ne {source : String} {before after : List Token} {t : Token}
    (h : tokens source = .ok (before ++ t :: after)) :
    ∀ other ∈ before ++ after, other.offset ≠ t.offset := by
  obtain ⟨-, hp, hcross⟩ := List.pairwise_append.1 (tokensFrom_ascending h).2
  intro other ho
  rcases List.mem_append.1 ho with hb | ha
  · exact Nat.ne_of_lt (hcross other hb t List.mem_cons_self)
  · exact Nat.ne_of_gt (List.rel_of_pairwise_cons hp ha)

theorem Begins.mono {limit limit' : Nat} (hl : limit ≤ limit') {ls : List Lexeme}
    (h : Begins limit ls) : Begins limit' ls := by
  obtain ⟨rest, d, hd, hc, hn⟩ := h
  exact ⟨rest, d, hd, hc, Nat.le_trans hn hl⟩

/-- Whether formulas begin with the lexemes, each with a path through at least `n` parentheses, signs and
calls. -/
def Nests (n : Nat) (ls : List Lexeme) : Prop :=
  (∃ limit, Begins limit ls) ∧ ∀ limit, Begins limit ls → n ≤ limit

namespace State
variable {s s' : State} {t : Token}

theorem checkDepth_ok (h : checkDepth s = .ok s') : s = s' := by
  unfold checkDepth at h
  split at h
  · cases h
  · exact Except.ok.inj h

theorem closeCall_ok {frames : List Frame} {level : Level} {function : Function} {args : List Expr}
    (h : closeCall frames level function args = .ok s') :
    complete frames level (.call function args) = s' := by
  unfold closeCall at h
  split at h
  · exact Except.ok.inj h
  · cases h

private theorem lexeme_of_named {name : String} (h : s.step t = .ok s') (hp : s'.place = .named name) :
    t.lexeme = .name name := by
  have hbegin (h : s.beginOperand t = .ok s') : t.lexeme = .name name := by
    unfold beginOperand at h
    split at h
    case h_3 text ht =>
      cases h
      rw [ht, Place.named.inj hp]
    case h_4 | h_5 | h_6 =>
      obtain rfl := checkDepth_ok h
      cases hp
    case h_7 => cases h
    all_goals
      cases h
      cases hp
  have hafter {s : State} {e : Expr} (h : s.continueAfter e t = .ok s') : t.lexeme = .name name := by
    unfold continueAfter at h
    split at h
    case h_6 =>
      obtain rfl := closeCall_ok h
      cases hp
    case h_8 => cases h
    all_goals
      cases h
      cases hp
  unfold step at h
  split at h
  · exact hbegin h
  · obtain rfl := closeCall_ok h
    cases hp
  · exact hbegin h
  · unfold openCall at h
    split at h
    · obtain rfl := checkDepth_ok h
      cases hp
    · cases h
  · exact hafter h
  · exact hafter h

private theorem exists_of_named {ts : List Token} {name : String} (h : ts.foldlM step {} = .ok s)
    (hp : s.place = .named name) :
    ∃ before t, ts = before ++ [t] ∧ t.lexeme = .name name ∧
      Begins depthLimit (before.map Token.lexeme) := by
  rcases List.eq_nil_or_concat ts with rfl | ⟨before, t, rfl⟩
  · cases h
    cases hp
  · rw [List.concat_eq_append, List.foldlM_append] at h
    cases hb : before.foldlM step {} with
    | error e =>
      rw [hb] at h
      cases h
    | ok middle =>
      rw [hb] at h
      refine ⟨before, t, List.concat_eq_append, ?_, begins_of_foldlM hb⟩
      have hlast : middle.step t = .ok s := by
        rw [← bind_pure (middle.step t)]
        exact h
      exact lexeme_of_named hlast hp

/-- What a token that cannot be read says of the front part of the text that it ends. -/
private theorem step_error {ts : List Token} {e : Error} (hts : ts.foldlM step {} = .ok s)
    (he : s.step t = .error e) :
    match e with
    | .unexpectedToken t' => t' = t ∧ ¬Begins depthLimit ((ts ++ [t]).map Token.lexeme)
    | .unexpectedEnd => False
    | .unknownFunction name =>
      ¬Function.IsName name ∧ t.lexeme = .openParen ∧ ∃ before t', ts = before ++ [t'] ∧
        t'.lexeme = .name name ∧ Begins depthLimit (before.map Token.lexeme)
    | .tooDeep limit => limit = depthLimit ∧ Nests (limit + 1) ((ts ++ [t]).map Token.lexeme)
    | _ => True := by
  have hs : s.Settled := (foldlM_ok (settled_of_place (by simp)) hts).1
  have hcont {limit : Nat} (hl : depthLimit ≤ limit) (ls : List Lexeme) :
      s.Continues limit (t.lexeme :: ls) ↔ IsFormula limit ((ts ++ [t]).map Token.lexeme ++ ls) := by
    simpa using continues_iff hts hl (t.lexeme :: ls)
  have hr := step_reads hs t
  rw [he] at hr
  generalize hanswer : Except.error e = answer at hr
  cases hr with
  | shifts => cases hanswer
  | wrongArity =>
    cases hanswer
    trivial
  | unexpected hno =>
    cases hanswer
    exact ⟨rfl, fun ⟨ls, hf⟩ => hno _ ls ((hcont (Nat.le_refl _) ls).2 hf)⟩
  | unknown name hp ht hn =>
    cases hanswer
    exact ⟨hn, ht, exists_of_named hts hp⟩
  | opens next _ hd hopens =>
    unfold checkDepth at hanswer
    split at hanswer
    · rename_i hdeep
      cases hanswer
      have hlow : ¬Begins depthLimit ((ts ++ [t]).map Token.lexeme) := by
        rintro ⟨ls, hf⟩
        have := ((hopens _ _).1 ((hcont (Nat.le_refl _) ls).2 hf)).1
        omega
      refine ⟨rfl, ?_, fun limit hb => ?_⟩
      · obtain ⟨ls, hls⟩ := exists_continues (s.depth + 1) next
        exact ⟨s.depth + 1, ls, (hcont (by omega) ls).1 ((hopens _ ls).2 ⟨Nat.lt_succ_self _, hls⟩)⟩
      · exact Nat.lt_of_not_le fun hle => hlow (hb.mono hle)
    · cases hanswer

end State

private theorem ofTokens_error_cases {ts : List Token} {e : Error} (h : Expr.ofTokens ts = .error e) :
    e = .empty ∨ e = .tooLong lengthLimit ∨
      (∃ before t after s, ts = before ++ t :: after ∧ before.foldlM State.step {} = .ok s ∧
        s.step t = .error e) ∨
      ∃ s, ts.foldlM State.step {} = .ok s ∧ s.finish = .error e := by
  unfold Expr.ofTokens at h
  split at h
  · exact .inl (Except.error.inj h).symm
  split at h
  · exact .inr (.inl (Except.error.inj h).symm)
  cases hts : ts.foldlM State.step {} with
  | error e' =>
    rw [hts] at h
    cases h
    exact .inr (.inr (.inl (State.exists_of_foldlM_error hts)))
  | ok s =>
    rw [hts] at h
    exact .inr (.inr (.inr ⟨s, rfl, h⟩))

/-- An unexpected token is the first one with which the text is no longer the front part of a formula; a
text that ends too early is the front part of a formula, but is none; a function that does not exist is
called behind the front part of a formula; what nests too deep is the front part of formulas that have
more than `depthLimit` parentheses, signs and calls in each other, and not without its last token. -/
theorem ofTokens_error {source : String} {ts : List Token} {e : Error} (hts : tokens source = .ok ts)
    (he : Expr.ofTokens ts = .error e) :
    match e with
    | .unexpectedToken t => ∃ before after, ts = before ++ t :: after ∧
        (∀ other ∈ before ++ after, other.offset ≠ t.offset) ∧
        Begins 64 (before.map Token.lexeme) ∧ ¬Begins 64 ((before ++ [t]).map Token.lexeme)
    | .unexpectedEnd => Begins 64 (ts.map Token.lexeme) ∧ ¬IsFormula 64 (ts.map Token.lexeme)
    | .unknownFunction name => ¬Function.IsName name ∧ ∃ before t t' after,
        ts = before ++ t :: t' :: after ∧ t.lexeme = .name name ∧ t'.lexeme = .openParen ∧
        Begins 64 (before.map Token.lexeme)
    | .tooDeep limit => limit = 64 ∧ ∃ before t after, ts = before ++ t :: after ∧
        Begins 64 (before.map Token.lexeme) ∧ Nests 65 ((before ++ [t]).map Token.lexeme)
    | _ => True := by
  rcases ofTokens_error_cases he with rfl | rfl | ⟨before, t, after, s, rfl, hb, ht⟩ | ⟨s, hs, hf⟩
  · trivial
  · trivial
  · have hstep := State.step_error hb ht
    cases e with
    | unexpectedToken t' =>
      obtain ⟨rfl, hno⟩ := hstep
      exact ⟨before, after, rfl, offset_ne hts, State.begins_of_foldlM hb, hno⟩
    | unexpectedEnd => exact hstep.elim
    | unknownFunction name =>
      obtain ⟨hn, hp, front, t', rfl, ht', hfront⟩ := hstep
      exact ⟨hn, front, t', t, after, List.append_assoc .., ht', hp, hfront⟩
    | tooDeep limit =>
      obtain ⟨rfl, hnests⟩ := hstep
      exact ⟨rfl, before, t, after, rfl, State.begins_of_foldlM hb, hnests⟩
    | _ => trivial
  · rcases s.finish_cases with ⟨found, hok⟩ | ⟨hend, hno⟩
    · rw [hok] at hf
      cases hf
    · rw [hend] at hf
      cases hf
      refine ⟨State.begins_of_foldlM hs, fun hformula => hno 64 ?_⟩
      rw [← List.append_nil (ts.map _)] at hformula
      exact (State.continues_iff hs (Nat.le_refl _) []).2 hformula

/-- In `area)` the parenthesis is unexpected. -/
theorem parenthesis_unexpected :
    tokens "area)" = .ok [⟨.name "area", 0⟩, ⟨.closeParen, 4⟩] ∧
      Expr.ofTokens [⟨.name "area", 0⟩, ⟨.closeParen, 4⟩] =
        .error (.unexpectedToken ⟨.closeParen, 4⟩) ∧
      ∃ before after : List Token, [⟨.name "area", 0⟩, ⟨.closeParen, 4⟩] =
          before ++ ⟨.closeParen, 4⟩ :: after ∧
        (∀ other ∈ before ++ after, other.offset ≠ 4) ∧ Begins 64 (before.map Token.lexeme) ∧
        ¬Begins 64 ((before ++ [(⟨.closeParen, 4⟩ : Token)]).map Token.lexeme) := by
  have hread : (tokens "area)").toOption = some [⟨.name "area", 0⟩, ⟨.closeParen, 4⟩] := by
    decide +kernel
  have hts : tokens "area)" = .ok [⟨.name "area", 0⟩, ⟨.closeParen, 4⟩] := by
    cases htokens : tokens "area)" with
    | error e =>
      rw [htokens] at hread
      cases hread
    | ok ts =>
      rw [htokens] at hread
      rw [Option.some.inj hread]
  have he : Expr.ofTokens [⟨.name "area", 0⟩, ⟨.closeParen, 4⟩] =
      .error (.unexpectedToken ⟨.closeParen, 4⟩) := rfl
  exact ⟨hts, he, ofTokens_error hts he⟩

end Millwork.Formula
