import Millwork.Text.Blank
import Millwork.Formula.Error
/-!
# Lexemes in a text

Cutting a text into tokens. Numbers and names are as long as they can be; a field reaches to the
first closing bracket; blanks between lexemes are left out. What a lexeme is read from is its
spelling at the front of the text (`readLexeme?_spelling`).
-/
namespace Millwork.Formula
open Text Decimal

def isNameStart (c : Char) : Bool :=
  c.isAlpha || c = '_' || c = '$'

def isNameChar (c : Char) : Bool :=
  c.isAlphanum || c = '_' || c = '$'

def nameAtFront : List Char → List Char
  | [] => []
  | c :: s =>
    if isNameChar c || (c = '.' && s.head?.any isNameStart) then c :: nameAtFront s else []

def isFieldChar (c : Char) : Bool :=
  c != ']'

/-- The lexeme at the front of a text and its spelling. -/
def readLexeme? (s : List Char) : Option (Lexeme × List Char) :=
  match s with
  | [] => none
  | '+' :: _ => some (.plus, ['+'])
  | '-' :: _ => some (.minus, ['-'])
  | '*' :: _ => some (.star, ['*'])
  | '/' :: _ => some (.slash, ['/'])
  | '(' :: _ => some (.openParen, ['('])
  | ')' :: _ => some (.closeParen, [')'])
  | ',' :: _ => some (.comma, [','])
  | '[' :: rest =>
    if (rest.dropWhile isFieldChar).isEmpty then
      none
    else
      let text := rest.takeWhile isFieldChar
      some (.field (String.ofList text), '[' :: text ++ [']'])
  | c :: rest =>
    if isNameStart c then
      some (.name (String.ofList (c :: nameAtFront rest)), c :: nameAtFront rest)
    else
      (Literal.read? (c :: rest)).map fun found => (.number found.1.toFloat, found.1.spelling)

theorem nameAtFront_prefix_of (s : List Char) : nameAtFront s <+: s := by
  induction s with
  | nil => exact List.nil_prefix
  | cons c s ih =>
    unfold nameAtFront
    split
    · exact (List.prefix_cons_inj c).2 ih
    · exact List.nil_prefix

/-- A spelling is never empty, and the text begins with it. -/
theorem readLexeme?_spelling {s : List Char} {lexeme : Lexeme} {spelling : List Char}
    (h : readLexeme? s = some (lexeme, spelling)) : spelling <+: s ∧ spelling ≠ [] := by
  unfold readLexeme? at h
  split at h
  case h_1 => simp at h
  case h_9 rest =>
    split at h
    · simp at h
    · rename_i hd
      simp only [Option.some.injEq, Prod.mk.injEq] at h
      obtain ⟨_, rfl⟩ := h
      refine ⟨?_, by simp⟩
      obtain ⟨c, more, hc⟩ := List.exists_cons_of_ne_nil (mt List.isEmpty_iff.2 hd)
      have hcc : c = ']' := by
        have := List.head?_dropWhile_not isFieldChar rest
        rw [hc] at this
        simpa [isFieldChar] using this
      subst hcc
      refine (List.prefix_cons_inj '[').2 ⟨more, ?_⟩
      show (rest.takeWhile isFieldChar ++ [']']) ++ more = rest
      rw [List.append_assoc, List.singleton_append, ← hc, List.takeWhile_append_dropWhile]
  case h_10 c rest _ _ _ _ _ _ _ _ =>
    split at h
    · simp only [Option.some.injEq, Prod.mk.injEq] at h
      obtain ⟨_, rfl⟩ := h
      exact ⟨(List.prefix_cons_inj c).2 (nameAtFront_prefix_of rest), by simp⟩
    · obtain ⟨found, hf, he⟩ := Option.map_eq_some_iff.1 h
      simp only [Prod.mk.injEq] at he
      obtain ⟨_, rfl⟩ := he
      obtain ⟨hs, hn⟩ := Literal.spelling_of_read? hf
      exact ⟨⟨found.2, hs.symm⟩, hn⟩
  all_goals
    simp only [Option.some.injEq, Prod.mk.injEq] at h
    obtain ⟨_, rfl⟩ := h
    exact ⟨(List.prefix_cons_inj _).2 List.nil_prefix, by simp⟩

def utf8Length (s : List Char) : Nat :=
  (String.ofList s).utf8ByteSize

def badLexeme (c : Char) (offset : Nat) : Error :=
  if c = '[' then .unterminatedField offset else .unexpectedChar c offset

/-- The tokens of a text that begins at `offset`. -/
def tokensFrom (offset : Nat) : List Char → Except Error (List Token)
  | [] => .ok []
  | c :: s =>
    if isBlank c then
      tokensFrom (offset + c.utf8Size) s
    else
      match readLexeme? (c :: s) with
      | some (lexeme, spelling) =>
        (tokensFrom (offset + utf8Length spelling) (s.drop (spelling.length - 1))).map
          (⟨lexeme, offset⟩ :: ·)
      | none => .error (badLexeme c offset)
termination_by s => s.length

def tokens (text : String) : Except Error (List Token) :=
  tokensFrom 0 text.toList

end Millwork.Formula
