import Millwork.Decimal.Nearest
/-!
# Decimal literals

A literal is a run of digits with at most one point in or around it, and perhaps an exponent:
`12`, `12.`, `12.5`, `.5`, `1.5e-3`. Reading takes the longest literal at the front of a text; what
it takes is the spelling of the literal it gives (`Literal.spelling_of_read?`).
-/
namespace Millwork.Decimal
def digitsAtFront (s : List Char) : List Char :=
  s.takeWhile Char.isDigit

def afterDigits (s : List Char) : List Char :=
  s.dropWhile Char.isDigit

@[simp] theorem digitsAtFront_append_afterDigits (s : List Char) :
    digitsAtFront s ++ afterDigits s = s :=
  List.takeWhile_append_dropWhile

/-- The number that a run of digits stands for. -/
def ofDigits (digits : List Char) : Nat :=
  Nat.ofDigitChars 10 digits 0

/-- An optional sign at the front of a text, and what follows it. -/
def splitSign : List Char → Option Char × List Char
  | '+' :: rest => (some '+', rest)
  | '-' :: rest => (some '-', rest)
  | s => (none, s)

@[simp] theorem splitSign_append (s : List Char) : (splitSign s).1.toList ++ (splitSign s).2 = s := by
  unfold splitSign
  split <;> rfl

/-- The text from the exponent mark on. -/
structure Exponent where
  mark : Char
  sign : Option Char
  digits : List Char
deriving DecidableEq, Repr

namespace Exponent
def value (e : Exponent) : Int :=
  if e.sign = some '-' then -(ofDigits e.digits) else ofDigits e.digits

def spelling (e : Exponent) : List Char :=
  e.mark :: (e.sign.toList ++ e.digits)

/-- An exponent needs a digit: an `e` without one is left in the text. -/
def read? : List Char → Option Exponent × List Char
  | [] => (none, [])
  | mark :: rest =>
    let signed := splitSign rest
    if (mark = 'e' || mark = 'E') && !(digitsAtFront signed.2).isEmpty then
      (some ⟨mark, signed.1, digitsAtFront signed.2⟩, afterDigits signed.2)
    else
      (none, mark :: rest)

theorem spelling_read? (s : List Char) :
    ((read? s).1.map spelling).getD [] ++ (read? s).2 = s := by
  cases s with
  | nil => rfl
  | cons mark rest =>
    simp only [read?]
    split
    · simp [spelling]
    · rfl

end Exponent

structure Literal where
  whole : List Char
  point : Bool
  fraction : List Char
  exponent : Option Exponent
deriving DecidableEq, Repr

namespace Literal
def significand (l : Literal) : Nat :=
  ofDigits (l.whole ++ l.fraction)

def scale (l : Literal) : Int :=
  (l.exponent.map Exponent.value).getD 0 - l.fraction.length

def toFloat (l : Literal) : Float :=
  nearest l.significand l.scale

def spelling (l : Literal) : List Char :=
  l.whole ++ (if l.point then '.' :: l.fraction else []) ++
    (l.exponent.map Exponent.spelling).getD []

/-- The longest literal at the front of the text, and what follows it. -/
def read? (s : List Char) : Option (Literal × List Char) :=
  let whole := digitsAtFront s
  match afterDigits s with
  | '.' :: t =>
    let fraction := digitsAtFront t
    let exponent := Exponent.read? (afterDigits t)
    if whole.isEmpty && fraction.isEmpty then none
    else some (⟨whole, true, fraction, exponent.1⟩, exponent.2)
  | t =>
    let exponent := Exponent.read? t
    if whole.isEmpty then none
    else some (⟨whole, false, [], exponent.1⟩, exponent.2)

/-- Reading takes the spelling of the literal off the text, and that is never empty. -/
theorem spelling_of_read? {s : List Char} {l : Literal} {rest : List Char}
    (h : read? s = some (l, rest)) : s = l.spelling ++ rest ∧ l.spelling ≠ [] := by
  have hs := digitsAtFront_append_afterDigits s
  unfold read? at h
  split at h
  · rename_i t ht
    have he := Exponent.spelling_read? (afterDigits t)
    dsimp only at h
    split at h
    · simp at h
    · simp only [Option.some.injEq, Prod.mk.injEq] at h
      obtain ⟨rfl, rfl⟩ := h
      refine ⟨?_, by simp [spelling]⟩
      simp only [spelling, if_true, List.append_assoc, List.cons_append]
      rw [he, digitsAtFront_append_afterDigits, ← ht, hs]
  · have he := Exponent.spelling_read? (afterDigits s)
    dsimp only at h
    split at h
    · simp at h
    · rename_i hw
      simp only [Option.some.injEq, Prod.mk.injEq] at h
      obtain ⟨rfl, rfl⟩ := h
      refine ⟨?_, fun hn => hw ?_⟩
      · simp only [spelling, Bool.false_eq_true, if_false, List.append_assoc, List.nil_append]
        rw [he, hs]
      · simp only [spelling, Bool.false_eq_true, if_false, List.append_nil,
          List.append_eq_nil_iff] at hn
        simp [hn.1]

theorem read?_shorter {s : List Char} {l : Literal} {rest : List Char}
    (h : read? s = some (l, rest)) : rest.length < s.length := by
  obtain ⟨rfl, hl⟩ := spelling_of_read? h
  have := List.length_pos_iff.2 hl
  simp only [List.length_append]
  omega

end Literal
end Millwork.Decimal
