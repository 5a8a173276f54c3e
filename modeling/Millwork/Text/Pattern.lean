/-!
# Patterns

A pattern reads a token off the front of a text. Searching a text with a pattern cuts it, from left
to right, into tokens and the characters between them.
-/
namespace Millwork.Text
structure Pattern (α : Type) where
  /-- The token at the front of the text and what follows it. -/
  read : List Char → Option (α × List Char)
  shorter : ∀ {s a rest}, read s = some (a, rest) → rest.length < s.length

namespace Pattern
variable {α : Type}

/-- Reads a token of `p` and gives what `f` makes of it. -/
def map {β : Type} (f : α → β) (p : Pattern α) : Pattern β where
  read s := (p.read s).map fun found => (f found.1, found.2)
  shorter {s b rest} h := by
    obtain ⟨found, hp, he⟩ := Option.map_eq_some_iff.1 h
    simp only [Prod.mk.injEq] at he
    obtain ⟨_, rfl⟩ := he
    exact p.shorter hp

/-- Reads a token of `p` and then passes over what `mark` takes, which must be there. -/
def followedBy (p : Pattern α) (mark : List Char → Option (List Char))
    (mark_le : ∀ {s rest}, mark s = some rest → rest.length ≤ s.length) : Pattern α where
  read s := (p.read s).bind fun found => (mark found.2).map (found.1, ·)
  shorter {s a rest} h := by
    obtain ⟨found, hp, hm⟩ := Option.bind_eq_some_iff.1 h
    obtain ⟨after, ha, he⟩ := Option.map_eq_some_iff.1 hm
    simp only [Prod.mk.injEq] at he
    obtain ⟨_, rfl⟩ := he
    exact Nat.lt_of_le_of_lt (mark_le ha) (p.shorter hp)

/-- Reads a token of `p` and then one of `q`. -/
def pair {β : Type} (p : Pattern α) (q : Pattern β) : Pattern (α × β) where
  read s := (p.read s).bind fun first => (q.read first.2).map fun second =>
    ((first.1, second.1), second.2)
  shorter {s a rest} h := by
    obtain ⟨first, hp, hq⟩ := Option.bind_eq_some_iff.1 h
    obtain ⟨second, hs, he⟩ := Option.map_eq_some_iff.1 hq
    simp only [Prod.mk.injEq] at he
    obtain ⟨_, rfl⟩ := he
    exact Nat.lt_trans (q.shorter hs) (p.shorter hp)

/-- The text in pieces: a token wherever one can be read, else a single character. -/
def pieces (p : Pattern α) : List Char → List (Char ⊕ α)
  | [] => []
  | c :: s =>
    match _h : p.read (c :: s) with
    | some (a, rest) => .inr a :: p.pieces rest
    | none => .inl c :: p.pieces s
termination_by s => s.length
decreasing_by
  · exact p.shorter _h
  · exact Nat.lt_succ_self s.length

/-- The tokens of the text, in order. -/
def tokens (p : Pattern α) (s : List Char) : List α :=
  (p.pieces s).filterMap Sum.getRight?

/-- The text with every token cut out. -/
def without (p : Pattern α) (s : List Char) : List Char :=
  (p.pieces s).filterMap Sum.getLeft?

/-- The first token, and the text with that token cut out. -/
def cutFirst? (p : Pattern α) : List Char → Option (α × List Char)
  | [] => none
  | c :: s =>
    match p.read (c :: s) with
    | some (a, rest) => some (a, rest)
    | none => (p.cutFirst? s).map fun found => (found.1, c :: found.2)

def occursIn (p : Pattern α) (s : List Char) : Bool :=
  (p.cutFirst? s).isSome

end Pattern
end Millwork.Text
