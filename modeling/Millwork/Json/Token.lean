import Millwork.Json.Quoted
import Millwork.Json.Numeral
/-!
# JSON tokens

The tokens of a JSON text: its marks, its words, and its scalars, with blanks between them left out.
-/
namespace Millwork.Json
inductive Token
  | openBrace
  | closeBrace
  | openBracket
  | closeBracket
  | colon
  | comma
  | null
  | bool (value : Bool)
  | number (value : Numeral)
  | string (value : Quoted)
deriving DecidableEq, Repr

def isGap (c : Char) : Bool :=
  c = ' ' || c = '\t' || c = '\n' || c = '\r'

namespace Token
/-- The token at the front of a text, and what follows it. -/
def read? (s : List Char) : Option (Token × List Char) :=
  match s with
  | '{' :: rest => some (.openBrace, rest)
  | '}' :: rest => some (.closeBrace, rest)
  | '[' :: rest => some (.openBracket, rest)
  | ']' :: rest => some (.closeBracket, rest)
  | ':' :: rest => some (.colon, rest)
  | ',' :: rest => some (.comma, rest)
  | 'n' :: 'u' :: 'l' :: 'l' :: rest => some (.null, rest)
  | 't' :: 'r' :: 'u' :: 'e' :: rest => some (.bool true, rest)
  | 'f' :: 'a' :: 'l' :: 's' :: 'e' :: rest => some (.bool false, rest)
  | '"' :: rest => (Quoted.read? rest).map fun (quoted, after) => (.string quoted, after)
  | s => (Numeral.read? s).map fun (numeral, after) => (.number numeral, after)

theorem read?_shorter {s : List Char} {t : Token} {rest : List Char}
    (h : read? s = some (t, rest)) : rest.length < s.length := by
  unfold read? at h
  split at h
  case h_10 =>
    obtain ⟨found, hf, he⟩ := Option.map_eq_some_iff.1 h
    have := Quoted.read?_shorter hf
    simp only [Prod.mk.injEq] at he
    obtain ⟨_, rfl⟩ := he
    simp only [List.length_cons]
    omega
  case h_11 =>
    obtain ⟨found, hf, he⟩ := Option.map_eq_some_iff.1 h
    have := Numeral.read?_shorter hf
    simp only [Prod.mk.injEq] at he
    obtain ⟨_, rfl⟩ := he
    exact this
  all_goals
    simp only [Option.some.injEq, Prod.mk.injEq] at h
    obtain ⟨_, rfl⟩ := h
    simp only [List.length_cons]
    omega

/-- All tokens of a text; none if it has something else in it. -/
def all? : List Char → Option (List Token)
  | [] => some []
  | c :: s =>
    if isGap c then
      all? s
    else
      match _h : read? (c :: s) with
      | some (t, rest) => (all? rest).map (t :: ·)
      | none => none
termination_by s => s.length
decreasing_by
  · exact Nat.lt_succ_self s.length
  · exact read?_shorter _h

end Token
end Millwork.Json
