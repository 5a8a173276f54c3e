import Millwork.Text.Blank
import Millwork.Text.Pattern
/-!
# Links

A link begins with `http://` or `https://` and goes on to the next blank, with at least one
character after the slashes.
-/
namespace Millwork.Link
open Text

def scheme? : List Char → Option (List Char × List Char)
  | 'h' :: 't' :: 't' :: 'p' :: 's' :: ':' :: '/' :: '/' :: rest =>
    some (['h', 't', 't', 'p', 's', ':', '/', '/'], rest)
  | 'h' :: 't' :: 't' :: 'p' :: ':' :: '/' :: '/' :: rest =>
    some (['h', 't', 't', 'p', ':', '/', '/'], rest)
  | _ => none

theorem scheme?_shorter {s scheme rest : List Char} (h : scheme? s = some (scheme, rest)) :
    rest.length < s.length := by
  unfold scheme? at h
  split at h <;> simp_all <;> omega

def word (s : List Char) : List Char :=
  s.takeWhile (!isBlank ·)

def afterWord (s : List Char) : List Char :=
  s.dropWhile (!isBlank ·)

def pattern : Pattern (List Char) where
  read s :=
    match scheme? s with
    | some (scheme, rest) =>
      if (word rest).isEmpty then none else some (scheme ++ word rest, afterWord rest)
    | none => none
  shorter {s link rest} h := by
    split at h
    · rename_i scheme t hs
      split at h
      · simp at h
      · simp only [Option.some.injEq, Prod.mk.injEq] at h
        obtain ⟨_, rfl⟩ := h
        exact Nat.lt_of_le_of_lt (List.dropWhile_suffix _).length_le (scheme?_shorter hs)
    · simp at h

def inText (s : List Char) : List String :=
  (pattern.tokens s).map String.ofList

end Millwork.Link
