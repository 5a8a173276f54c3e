import Millwork.Json.Token
import Millwork.Json.Printer
import Millwork.Proofs.Decimal.Spelling
/-!
# Scalars in JSON text

What is written for a text, a word or a finite double is one token, whatever follows, as long as that
does not go on with a number.
-/
namespace Millwork.Json
open Decimal

/-- The literal that a double with the given shortest digits is written as. -/
def writtenLiteral (d : Fixed) : Literal :=
  if d.coefficient = 0 || writtenPlainly d then
    if d.places = 0 then { d.positionalLiteral with point := true, fraction := ['0'] }
    else d.positionalLiteral
  else
    d.scientificLiteral

/-- The number that is written for a finite double. -/
def numeralOf (x : Float) : Numeral :=
  ⟨isNegative x, writtenLiteral (shortest .even x)⟩

private theorem writtenLiteral_spelling (d : Fixed) :
    (writtenLiteral d).spelling =
      if d.coefficient = 0 || writtenPlainly d then
        d.positional ++ (if d.places = 0 then ['.', '0'] else [])
      else d.scientific := by
  unfold writtenLiteral
  split
  · split
    · rename_i hp
      simp [Literal.spelling, Fixed.positionalLiteral, Fixed.positional, hp]
    · rw [Fixed.positionalLiteral_spelling, List.append_nil]
  · exact d.scientificLiteral_spelling

theorem writtenLiteral_wellFormed (d : Fixed) : (writtenLiteral d).WellFormed := by
  unfold writtenLiteral
  split
  · split
    · have h := d.positionalLiteral_wellFormed
      exact ⟨h.whole, by simp [AllDigits], by simp, .inr (by simp), h.exponent⟩
    · exact d.positionalLiteral_wellFormed
  · exact d.scientificLiteral_wellFormed

private theorem allows_digitsOf {l : Literal} {n : Nat} (hw : l.whole = digitsOf n)
    (hf : l.point = true → l.fraction ≠ []) : Numeral.allows l = true := by
  have hp : (!l.point || !l.fraction.isEmpty) = true := by
    cases hp : l.point with
    | false => rfl
    | true => simpa using hf hp
  unfold Numeral.allows
  rw [hw, hp, Bool.and_true]
  by_cases hn : n = 0
  · subst hn
    rfl
  · obtain ⟨c, more, hc, h0⟩ := digitsOf_head n (Nat.pos_of_ne_zero hn)
    rw [hc]
    cases more with
    | nil => rfl
    | cons next more => simpa using h0

private theorem scientificLiteral_allowed (d : Fixed) : Numeral.allows d.scientificLiteral = true := by
  unfold Fixed.scientificLiteral
  cases d.significantDigits with
  | nil => rfl
  | cons digit more => cases more <;> rfl

theorem writtenLiteral_allowed (d : Fixed) : Numeral.allows (writtenLiteral d) = true := by
  unfold writtenLiteral
  split
  · by_cases hp : d.places = 0
    · have hw : d.positionalLiteral.whole = digitsOf d.coefficient := by
        simp [Fixed.positionalLiteral, hp]
      simp only [hp, if_true]
      exact allows_digitsOf hw (by simp)
    · have hw : d.positionalLiteral.whole = digitsOf (d.coefficient / Nat.pow 10 d.places) := by
        simp [Fixed.positionalLiteral, hp]
      have hf : d.positionalLiteral.fraction ≠ [] := by
        simp [Fixed.positionalLiteral, hp, digitsOf_ne_nil]
      simp only [hp, if_false]
      exact allows_digitsOf hw fun _ => hf
  · exact scientificLiteral_allowed d

theorem numberText_eq (x : Float) :
    numberText x = withSign (numeralOf x).negative (numeralOf x).literal.spelling := by
  rw [numberText, numeralOf, writtenLiteral_spelling]

theorem spelling_head {l : Literal} (h : l.WellFormed) (ha : Numeral.allows l = true) :
    ∃ digit more, l.spelling = digit :: more ∧ digit.isDigit = true := by
  cases hw : l.whole with
  | nil => simp [Numeral.allows, hw] at ha
  | cons digit more =>
    have hd : digit.isDigit = true := h.whole digit (by simp [hw])
    exact ⟨digit, _, by rw [Literal.spelling, hw, List.cons_append, List.cons_append], hd⟩

theorem Numeral.read?_numberText (x : Float) {rest : List Char} (hr : Ends rest) :
    Numeral.read? (numberText x ++ rest) = some (numeralOf x, rest) := by
  have hw := writtenLiteral_wellFormed (shortest .even x)
  have ha := writtenLiteral_allowed (shortest .even x)
  have hread : ∀ negative, Numeral.readUnsigned? negative
      ((writtenLiteral (shortest .even x)).spelling ++ rest) =
        some (⟨negative, writtenLiteral (shortest .even x)⟩, rest) := by
    intro negative
    rw [readUnsigned?, Literal.read?_spelling hw hr]
    simp only [ha, if_true]
  rw [numberText_eq, numeralOf]
  cases isNegative x with
  | true => exact hread true
  | false =>
    obtain ⟨digit, more, hs, hd⟩ := spelling_head hw ha
    have hf := hread false
    rw [hs] at hf ⊢
    show Numeral.read? (digit :: (more ++ rest)) = _
    unfold Numeral.read?
    split
    · simp_all
    · exact hf

private theorem hexDigit?_digitChar : ∀ n, n < 16 → hexDigit? n.digitChar = some n := by
  decide

private theorem Piece.ofHex?_control {c : Char} (hc : c < ' ') :
    Piece.ofHex? '0' '0' (Nat.digitChar (c.toNat / 16)) (Nat.digitChar (c.toNat % 16)) =
      some (.char c) := by
  have hn : c.toNat < 32 := hc
  have h₁ := hexDigit?_digitChar (c.toNat / 16) (by omega)
  have h₂ := hexDigit?_digitChar (c.toNat % 16) (by omega)
  have h₀ : hexDigit? '0' = some 0 := rfl
  have hu : ((0 * 16 + 0) * 16 + c.toNat / 16) * 16 + c.toNat % 16 = c.toNat := by omega
  simp only [Piece.ofHex?, h₀, h₁, h₂]
  show some (if _ then _ else _) = _
  rw [hu, if_neg (by simp; omega), Char.ofNat_toNat]

private theorem Quoted.read?_backslash {e c : Char} (h : escaped? e = some c) (rest : List Char) :
    Quoted.read? ('\\' :: e :: rest) =
      (Quoted.read? rest).map fun found => (.char c :: found.1, found.2) := by
  rw [Quoted.read?.eq_def]
  split
  · simp_all
  · simp_all
  · rename_i he
    simp only [List.cons.injEq, true_and] at he
    rw [he.1] at h
    cases h
  · rename_i he
    simp only [List.cons.injEq, true_and] at he
    obtain ⟨rfl, rfl⟩ := he
    rw [h]
    cases Quoted.read? rest <;> rfl
  · rename_i hn he
    exact (hn e rest (List.cons.inj he).1.symm (List.cons.inj he).2.symm).elim

private theorem Quoted.read?_plain {c : Char} (hq : c ≠ '"') (hb : c ≠ '\\') (hc : ¬c < ' ')
    (rest : List Char) :
    Quoted.read? (c :: rest) =
      (Quoted.read? rest).map fun found => (.char c :: found.1, found.2) := by
  rw [Quoted.read?.eq_def]
  split
  · simp_all
  · simp_all
  · simp_all
  · simp_all
  · rename_i he
    obtain ⟨rfl, rfl⟩ := List.cons.inj he
    rw [if_neg hc]

private theorem Quoted.read?_escape (c : Char) (rest : List Char) :
    Quoted.read? ((escape? c).getD [c] ++ rest) =
      (Quoted.read? rest).map fun found => (.char c :: found.1, found.2) := by
  unfold escape?
  split
  case h_8 hq hb h₁ h₂ h₃ h₄ h₅ =>
    split
    · rename_i hc
      have hp := Piece.ofHex?_control hc
      simp only [Option.getD_some, List.cons_append, List.nil_append, Quoted.read?, hp]
      cases Quoted.read? rest <;> rfl
    · rename_i hc
      exact Quoted.read?_plain hq hb hc rest
  all_goals exact Quoted.read?_backslash rfl rest

theorem Quoted.read?_quote (s rest : List Char) :
    Quoted.read? ((s.flatMap fun c => (escape? c).getD [c]) ++ '"' :: rest) =
      some (s.map .char, rest) := by
  induction s with
  | nil => rfl
  | cons c s ih =>
    rw [List.flatMap_cons, List.append_assoc, Quoted.read?_escape, ih]
    rfl

theorem Quoted.text?_map_char (s : List Char) : Quoted.text? (s.map .char) = some s := by
  induction s with
  | nil => rfl
  | cons c s ih => simp only [List.map_cons, Quoted.text?, ih, Option.map_some]

end Millwork.Json
