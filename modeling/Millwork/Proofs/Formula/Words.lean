import Millwork.Proofs.Formula.FirstError
import Millwork.Proofs.Formula.Lexemes
/-!
# Words of a text

A text is cut into tokens where it is a row of lexemes with blanks between them, each as long as it can
be, and the tokens are those lexemes at their places. The first character that begins no lexeme is where
cutting fails.
-/
namespace Millwork.Formula
open Text

private theorem utf8Length_append (s t : List Char) :
    utf8Length (s ++ t) = utf8Length s + utf8Length t := by
  rw [utf8Length, String.ofList_append, String.utf8ByteSize_append]
  rfl

private theorem utf8Length_cons (c : Char) (s : List Char) :
    utf8Length (c :: s) = c.utf8Size + utf8Length s := by
  rw [← List.singleton_append, utf8Length_append]
  simp [utf8Length]

/-- A lexeme as it is written, and the blanks in front of it. -/
structure Word where
  blanks : List Char
  spelling : List Char
  lexeme : Lexeme
  allBlank : AllBlank blanks
  spells : Spells spelling lexeme

/-- The words one behind the other, and the rest of the text behind them. -/
def textOf (rest : List Char) : List Word → List Char
  | [] => rest
  | w :: words => w.blanks ++ (w.spelling ++ textOf rest words)

/-- The tokens of words behind a text: a token is at the place where the spelling of its lexeme begins. -/
def tokensBehind (before : List Char) : List Word → List Token
  | [] => []
  | w :: words =>
    ⟨w.lexeme, utf8Length (before ++ w.blanks)⟩ ::
      tokensBehind (before ++ w.blanks ++ w.spelling) words

/-- Each word goes as far as a lexeme can, with `rest` behind them. -/
def Greedy (rest : List Char) : List Word → Prop
  | [] => True
  | w :: words => IsLongest w.spelling (textOf rest words) ∧ Greedy rest words

/-- There are blanks between the words. -/
def Separated (words : List Word) : Prop :=
  ∀ w ∈ words.tail, w.blanks ≠ []

private theorem textOf_append (rest behind : List Char) (words : List Word) :
    textOf (rest ++ behind) words = textOf rest words ++ behind := by
  induction words with
  | nil => rfl
  | cons w words ih => rw [textOf, textOf, ih, List.append_assoc, List.append_assoc]

private theorem IsLongest.of_append {spelling rest behind : List Char}
    (h : IsLongest spelling (rest ++ behind)) : IsLongest spelling rest :=
  fun other lexeme ho hp => h other lexeme ho <| by
    rw [← List.append_assoc]
    exact hp.trans (List.prefix_append _ behind)

private theorem Greedy.of_append {rest behind : List Char} {words : List Word}
    (h : Greedy (rest ++ behind) words) : Greedy rest words := by
  induction words with
  | nil => trivial
  | cons w words ih =>
    rw [Greedy, textOf_append] at h
    exact ⟨h.1.of_append, ih h.2⟩

private theorem Separated.greedy {last : List Char} (hl : AllBlank last) {words : List Word}
    (h : Separated words) : Greedy last words := by
  induction words with
  | nil => trivial
  | cons w words ih =>
    refine ⟨w.spells.isLongest fun c hc => ?_, ih fun v hv => h v (List.mem_of_mem_tail hv)⟩
    cases words with
    | nil => exact hl c (List.mem_of_mem_head? hc)
    | cons v words =>
      obtain ⟨b, more, hb⟩ := List.exists_cons_of_ne_nil (h v List.mem_cons_self)
      rw [textOf, hb] at hc
      obtain rfl := Option.some.inj hc
      exact v.allBlank b (by rw [hb]; exact List.mem_cons_self)

private theorem tokensFrom_blanks {blanks : List Char} (hb : AllBlank blanks) (offset : Nat)
    (s : List Char) :
    tokensFrom offset (blanks ++ s) = tokensFrom (offset + utf8Length blanks) s := by
  induction blanks generalizing offset with
  | nil => rfl
  | cons b blanks ih =>
    obtain ⟨hblank, hblanks⟩ := List.forall_mem_cons.1 hb
    rw [List.cons_append, tokensFrom, if_pos hblank, ih hblanks, utf8Length_cons, Nat.add_assoc]

private theorem tokensFrom_spelling {spelling rest : List Char} {lexeme : Lexeme}
    (h : Spells spelling lexeme) (hl : IsLongest spelling rest) (offset : Nat) :
    tokensFrom offset (spelling ++ rest) =
      (tokensFrom (offset + utf8Length spelling) rest).map (⟨lexeme, offset⟩ :: ·) := by
  have hread := (readLexeme?_eq_some_iff _ _ _).2 ⟨h, rest, rfl, hl⟩
  obtain ⟨c, more, rfl, hc⟩ := h.start
  rw [List.cons_append] at hread ⊢
  rw [tokensFrom, if_neg (by rw [hc]; exact Bool.false_ne_true), hread]
  simp only [List.length_cons, Nat.add_sub_cancel, List.drop_left]

private theorem tokensFrom_textOf {rest : List Char} {words : List Word} (h : Greedy rest words)
    (before : List Char) :
    tokensFrom (utf8Length before) (textOf rest words) =
      (tokensFrom (utf8Length (before ++ textOf [] words)) rest).map
        (tokensBehind before words ++ ·) := by
  induction words generalizing before with
  | nil =>
    rw [textOf, textOf, List.append_nil]
    cases tokensFrom (utf8Length before) rest <;> rfl
  | cons w words ih =>
    have hbehind : before ++ textOf [] (w :: words) =
        before ++ w.blanks ++ w.spelling ++ textOf [] words := by
      simp only [textOf, List.append_assoc]
    rw [hbehind, textOf, tokensFrom_blanks w.allBlank, tokensFrom_spelling w.spells h.1,
      ← utf8Length_append, ← utf8Length_append, ih h.2]
    cases tokensFrom (utf8Length (before ++ w.blanks ++ w.spelling ++ textOf [] words)) rest <;> rfl

/-- Behind the words there are blanks, and then the end or a character that begins no lexeme. -/
inductive Stops : List Char → Prop
  | atEnd {blanks : List Char} (hb : AllBlank blanks) : Stops blanks
  | atChar {blanks : List Char} (hb : AllBlank blanks) {c : Char} {after : List Char}
      (hc : isBlank c = false) (hn : readLexeme? (c :: after) = none) : Stops (blanks ++ c :: after)

private theorem exists_words (s : List Char) :
    ∃ words rest, s = textOf rest words ∧ Greedy rest words ∧ Stops rest := by
  have hsplit : s = s.takeWhile isBlank ++ s.dropWhile isBlank := List.takeWhile_append_dropWhile.symm
  have hb := allBlank_takeWhile s
  cases hs : s.dropWhile isBlank with
  | nil =>
    rw [hs, List.append_nil] at hsplit
    exact ⟨[], s, rfl, trivial, .atEnd (hsplit ▸ hb)⟩
  | cons c more =>
    have hc : isBlank c = false := by
      have hnot := List.head?_dropWhile_not isBlank s
      rw [hs] at hnot
      simpa using hnot
    rw [hs] at hsplit
    cases hread : readLexeme? (c :: more) with
    | none => exact ⟨[], s, rfl, trivial, hsplit ▸ .atChar hb hc hread⟩
    | some found =>
      obtain ⟨lexeme, spelling⟩ := found
      obtain ⟨hspells, behind, hbehind, hlongest⟩ := (readLexeme?_eq_some_iff _ _ _).1 hread
      have hshorter : behind.length < s.length := by
        have hne := List.length_pos_iff.2 (readLexeme?_spelling hread).2
        rw [hsplit, hbehind, List.length_append, List.length_append]
        omega
      obtain ⟨words, rest, rfl, hg, hstops⟩ := exists_words behind
      exact ⟨⟨s.takeWhile isBlank, spelling, lexeme, hb, hspells⟩ :: words, rest,
        by rw [textOf, ← hbehind, ← hsplit], ⟨hlongest, hg⟩, hstops⟩
termination_by s.length

section
variable {text : String} {words : List Word}

private theorem tokens_of_words {rest : List Char} (ht : text.toList = textOf rest words)
    (hg : Greedy rest words) :
    tokens text =
      (tokensFrom (utf8Length (textOf [] words)) rest).map (tokensBehind [] words ++ ·) := by
  rw [tokens, ht]
  exact tokensFrom_textOf hg []

private theorem tokens_of_allBlank {last : List Char} (ht : text.toList = textOf last words)
    (hg : Greedy last words) (hl : AllBlank last) : tokens text = .ok (tokensBehind [] words) := by
  rw [tokens_of_words ht hg, ← List.append_nil last, tokensFrom_blanks hl, tokensFrom, Except.map,
    List.append_nil]

private theorem tokens_of_readLexeme? {blanks : List Char} {c : Char} {after : List Char}
    (ht : text.toList = textOf (blanks ++ c :: after) words)
    (hg : Greedy (blanks ++ c :: after) words) (hb : AllBlank blanks) (hc : isBlank c = false)
    (hn : readLexeme? (c :: after) = none) :
    tokens text = .error (badLexeme c (utf8Length (textOf blanks words))) := by
  have hplace : textOf blanks words = textOf [] words ++ blanks := textOf_append [] blanks words
  rw [tokens_of_words ht hg, tokensFrom_blanks hb, tokensFrom,
    if_neg (by rw [hc]; exact Bool.false_ne_true), hn, hplace, utf8Length_append]
  rfl

end

/-- A text is cut into tokens exactly where it is a row of words, each as long as it can be, with blanks
behind them; words with blanks between them are always such a row. An error is about the first character
that is neither blank nor begins a lexeme, and what is in front of it can be cut. -/
theorem tokens_eq_iff (text : String) :
    (∀ ts, tokens text = .ok ts ↔ ∃ words last, text.toList = textOf last words ∧
      Greedy last words ∧ AllBlank last ∧ ts = tokensBehind [] words) ∧
    (∀ words last, text.toList = textOf last words → Separated words → AllBlank last →
      tokens text = .ok (tokensBehind [] words)) ∧
    ∀ e, tokens text = .error e → ∃ before c after, text.toList = before ++ c :: after ∧
      (c = '[' ∧ e = .unterminatedField (utf8Length before) ∨
        c ≠ '[' ∧ e = .unexpectedChar c (utf8Length before)) ∧
      (∃ ts, tokens (String.ofList before) = .ok ts) ∧ isBlank c = false ∧
      ∀ spelling lexeme, Spells spelling lexeme → ¬spelling <+: c :: after := by
  obtain ⟨words, rest, ht, hg, hstops⟩ := exists_words text.toList
  refine ⟨fun ts => ⟨fun h => ?_, ?_⟩, fun words last ht hs hl => ?_, fun e he => ?_⟩
  · cases hstops with
    | atEnd hb =>
      rw [tokens_of_allBlank ht hg hb] at h
      exact ⟨words, rest, ht, hg, hb, (Except.ok.inj h).symm⟩
    | atChar hb hc hn =>
      rw [tokens_of_readLexeme? ht hg hb hc hn] at h
      cases h
  · rintro ⟨words, last, ht, hg, hl, rfl⟩
    exact tokens_of_allBlank ht hg hl
  · exact tokens_of_allBlank ht (hs.greedy hl) hl
  · cases hstops with
    | atEnd hb =>
      rw [tokens_of_allBlank ht hg hb] at he
      cases he
    | @atChar blanks hb c after hc hn =>
      rw [tokens_of_readLexeme? ht hg hb hc hn] at he
      obtain rfl := Except.error.inj he
      have hbefore := tokens_of_allBlank String.toList_ofList hg.of_append hb
      refine ⟨textOf blanks words, c, after, ht.trans (textOf_append _ _ _), ?_, ⟨_, hbefore⟩, hc,
        (readLexeme?_eq_none_iff _).1 hn⟩
      rw [badLexeme]
      by_cases hbracket : c = '['
      · exact .inl ⟨hbracket, if_pos hbracket⟩
      · exact .inr ⟨hbracket, if_neg hbracket⟩

theorem tokens_eq_iff_width :
    (∃ words last, "2.5 *[Rail depth]".toList = textOf last words ∧ Greedy last words ∧
      AllBlank last ∧ [⟨.number 2.5, 0⟩, ⟨.star, 4⟩, ⟨.field "Rail depth", 5⟩] =
        tokensBehind [] words) ∧
    (∃ words, Separated words ∧ "w ,".toList = textOf [] words ∧
      tokens "w ," = .ok (tokensBehind [] words)) ∧
    ∃ before after, "w [é".toList = before ++ '[' :: after ∧ utf8Length before = 2 ∧
      ∃ ts, tokens (String.ofList before) = .ok ts := by
  refine ⟨((tokens_eq_iff "2.5 *[Rail depth]").1 _).1 (by decide +kernel), ?_, ?_⟩
  · have hw : Spells ['w'] (.name "w") := .name (.part (isNamePart_singleton (by decide)))
    have hcomma : Spells [','] .comma := .mark (by decide)
    have hb : AllBlank [' '] := List.forall_mem_singleton.2 (by decide)
    have hs : Separated [⟨[], ['w'], _, nofun, hw⟩, ⟨[' '], [','], _, hb, hcomma⟩] :=
      List.forall_mem_singleton.2 (List.cons_ne_nil _ _)
    exact ⟨_, hs, rfl, (tokens_eq_iff "w ,").2.1 _ [] rfl hs nofun⟩
  · obtain ⟨before, c, after, ht, hwhy, hts, -⟩ :=
      (tokens_eq_iff "w [é").2.2 (.unterminatedField 2) (by decide +kernel)
    rcases hwhy with ⟨rfl, he⟩ | ⟨-, he⟩
    · exact ⟨before, after, ht, (Error.unterminatedField.inj he).symm, hts⟩
    · cases he

end Millwork.Formula
