import Mathlib.Algebra.Order.Ring.Nat
import Millwork.Decimal.Text
/-!
# Spellings of numbers

A literal is read back from its spelling if what follows cannot belong to a number, and both layouts
of a decimal number spell a literal. The text of a finite number has digits, a point and a sign only.
-/
namespace Millwork.Decimal
def AllDigits (s : List Char) : Prop :=
  ∀ c ∈ s, c.isDigit = true

theorem ofDigits_append (front back : List Char) :
    ofDigits (front ++ back) = 10 ^ back.length * ofDigits front + ofDigits back := by
  rw [ofDigits, Nat.ofDigitChars_append, Nat.ofDigitChars_eq_ofDigitChars_zero]
  rfl

def continuesNumber (c : Char) : Bool :=
  c.isDigit || c = '.' || c = 'e' || c = 'E'

def Ends (rest : List Char) : Prop :=
  ∀ c more, rest = c :: more → continuesNumber c = false

theorem ends_nil : Ends [] := by
  intro c more h
  cases h

theorem ends_cons {c : Char} {rest : List Char} : Ends (c :: rest) ↔ continuesNumber c = false := by
  constructor
  · intro h
    exact h c rest rfl
  · intro h c' more he
    rw [← (List.cons.inj he).1]
    exact h

theorem Ends.append {s rest : List Char} (hs : Ends s) (hr : Ends rest) : Ends (s ++ rest) := by
  cases s with
  | nil => exact hr
  | cons c s => exact ends_cons.2 (ends_cons.1 hs)

theorem digitsAtFront_append {digits : List Char} (h : AllDigits digits) (rest : List Char) :
    digitsAtFront (digits ++ rest) = digits ++ digitsAtFront rest :=
  List.takeWhile_append_of_pos h

private theorem afterDigits_append {digits : List Char} (h : AllDigits digits) (rest : List Char) :
    afterDigits (digits ++ rest) = afterDigits rest :=
  List.dropWhile_append_of_pos h

theorem span_digits {digits rest : List Char} (hd : AllDigits digits)
    (hr : rest.head?.any Char.isDigit = false) :
    digitsAtFront (digits ++ rest) = digits ∧ afterDigits (digits ++ rest) = rest := by
  rw [digitsAtFront_append hd, afterDigits_append hd]
  cases rest with
  | nil => exact ⟨List.append_nil digits, rfl⟩
  | cons c rest =>
    have hc : ¬c.isDigit = true := by simpa using hr
    rw [digitsAtFront, afterDigits, List.takeWhile_cons_of_neg hc, List.dropWhile_cons_of_neg hc,
      List.append_nil]
    exact ⟨rfl, rfl⟩

private theorem Ends.head?_isDigit {rest : List Char} (h : Ends rest) :
    rest.head?.any Char.isDigit = false := by
  cases rest with
  | nil => rfl
  | cons c rest =>
    have hc := ends_cons.1 h
    simp only [continuesNumber, Bool.or_eq_false_iff] at hc
    simpa using hc.1.1.1

namespace Exponent
/-- The literal is one that reading can give. -/
structure WellFormed (e : Exponent) : Prop where
  mark : e.mark = 'e' ∨ e.mark = 'E'
  sign : ∀ c, e.sign = some c → c = '+' ∨ c = '-'
  digits : AllDigits e.digits
  nonempty : e.digits ≠ []

private theorem splitSign_spelling {e : Exponent} (h : e.WellFormed) (rest : List Char) :
    splitSign (e.sign.toList ++ (e.digits ++ rest)) = (e.sign, e.digits ++ rest) := by
  obtain ⟨digit, digits, hd⟩ := List.exists_cons_of_ne_nil h.nonempty
  have hdigit : digit.isDigit = true := h.digits digit (by simp [hd])
  cases hs : e.sign with
  | none =>
    rw [hd]
    show splitSign (digit :: (digits ++ rest)) = _
    unfold splitSign
    split
    · simp_all
    · simp_all
    · rfl
  | some c =>
    rcases h.sign c hs with rfl | rfl <;> rfl

theorem read?_append {e : Exponent} (h : e.WellFormed) (rest : List Char) :
    read? (e.spelling ++ rest) =
      (some ⟨e.mark, e.sign, e.digits ++ digitsAtFront rest⟩, afterDigits rest) := by
  have hm : (e.mark = 'e' || e.mark = 'E') = true := by simpa using h.mark
  have hn : (e.digits ++ digitsAtFront rest).isEmpty = false := by
    simp [List.isEmpty_eq_false_iff, h.nonempty]
  rw [spelling, List.cons_append, List.append_assoc, read?]
  simp only [splitSign_spelling h, digitsAtFront_append h.digits, afterDigits_append h.digits, hm, hn]
  rfl

theorem read?_spelling {e : Exponent} (h : e.WellFormed) {rest : List Char} (hr : Ends rest) :
    read? (e.spelling ++ rest) = (some e, rest) := by
  obtain ⟨hfront, hafter⟩ := span_digits (List.forall_mem_nil _) hr.head?_isDigit
  rw [List.nil_append] at hfront hafter
  rw [read?_append h, hfront, hafter, List.append_nil]

theorem WellFormed.head?_spelling {e : Exponent} (h : e.WellFormed) (rest : List Char) :
    (e.spelling ++ rest).head?.any Char.isDigit = false ∧ ∀ t, e.spelling ++ rest ≠ '.' :: t := by
  rw [spelling, List.cons_append]
  rcases h.mark with hm | hm
  · rw [hm]
    exact ⟨rfl, fun t ht => by cases ht⟩
  · rw [hm]
    exact ⟨rfl, fun t ht => by cases ht⟩

private theorem read?_ends {rest : List Char} (h : Ends rest) : read? rest = (none, rest) := by
  cases rest with
  | nil => rfl
  | cons c rest =>
    have hc := ends_cons.1 h
    simp only [continuesNumber, Bool.or_eq_false_iff] at hc
    have hm : (c = 'e' || c = 'E') = false := by simp [hc.1.2, hc.2]
    rw [read?]
    simp only [hm]
    rfl

end Exponent

namespace Literal
/-- The literal is one that reading can give. -/
structure WellFormed (l : Literal) : Prop where
  whole : AllDigits l.whole
  fraction : AllDigits l.fraction
  point : l.point = false → l.fraction = []
  nonempty : l.whole ≠ [] ∨ l.fraction ≠ []
  exponent : ∀ e, l.exponent = some e → e.WellFormed

private theorem exponent_spelling {l : Literal} (h : l.WellFormed) {rest : List Char} (hr : Ends rest) :
    let tail := (l.exponent.map Exponent.spelling).getD [] ++ rest
    Exponent.read? tail = (l.exponent, rest) ∧ tail.head?.any Char.isDigit = false ∧
      ∀ more, tail ≠ '.' :: more := by
  intro tail
  cases he : l.exponent with
  | none =>
    have ht : tail = rest := by simp [tail, he]
    rw [ht]
    refine ⟨Exponent.read?_ends hr, hr.head?_isDigit, ?_⟩
    rintro more rfl
    exact absurd (ends_cons.1 hr) (by decide)
  | some e =>
    have ht : tail = e.spelling ++ rest := by simp [tail, he]
    have hw := h.exponent e he
    rw [ht]
    exact ⟨Exponent.read?_spelling hw hr, hw.head?_spelling rest⟩

theorem read?_point {whole t : List Char} (hw : AllDigits whole)
    (hn : whole ≠ [] ∨ digitsAtFront t ≠ []) :
    read? (whole ++ '.' :: t) = some (⟨whole, true, digitsAtFront t,
      (Exponent.read? (afterDigits t)).1⟩, (Exponent.read? (afterDigits t)).2) := by
  have hend : ('.' :: t).head?.any Char.isDigit = false := rfl
  obtain ⟨hfront, hafter⟩ := span_digits hw hend
  have hempty : (whole.isEmpty && (digitsAtFront t).isEmpty) = false := by
    rw [Bool.and_eq_false_iff, List.isEmpty_eq_false_iff, List.isEmpty_eq_false_iff]
    exact hn
  simp only [read?, hfront, hafter, hempty, Bool.false_eq_true, if_false]

theorem read?_pointless {whole rest : List Char} (hw : AllDigits whole) (hn : whole ≠ [])
    (hd : rest.head?.any Char.isDigit = false) (hp : ∀ t, rest ≠ '.' :: t) :
    read? (whole ++ rest) = some (⟨whole, false, [], (Exponent.read? rest).1⟩,
      (Exponent.read? rest).2) := by
  obtain ⟨hfront, hafter⟩ := span_digits hw hd
  have hempty : whole.isEmpty = false := List.isEmpty_eq_false_iff.2 hn
  unfold read?
  rw [hafter]
  split
  · rename_i t
    exact absurd rfl (hp t)
  · simp only [hfront, hempty, Bool.false_eq_true, if_false]

theorem read?_spelling {l : Literal} (h : l.WellFormed) {rest : List Char} (hr : Ends rest) :
    read? (l.spelling ++ rest) = some (l, rest) := by
  obtain ⟨ht, hd, hp⟩ := exponent_spelling h hr
  obtain ⟨whole, point, fraction, exponent⟩ := l
  rw [spelling, List.append_assoc, List.append_assoc]
  cases point with
  | true =>
    obtain ⟨hfront, hafter⟩ := span_digits h.fraction hd
    rw [if_pos rfl, List.cons_append, read?_point h.whole (by rw [hfront]; exact h.nonempty),
      hfront, hafter, ht]
  | false =>
    obtain rfl : fraction = [] := h.point rfl
    have hn : whole ≠ [] := h.nonempty.resolve_right fun hf => hf rfl
    rw [if_neg Bool.false_ne_true, List.nil_append, read?_pointless h.whole hn hd hp, ht]

end Literal

theorem digitsOf_allDigits (n : Nat) : AllDigits (digitsOf n) := by
  intro c hc
  exact Nat.isDigit_of_mem_toDigits (by decide) (by decide) hc

theorem digitsOf_ne_nil (n : Nat) : digitsOf n ≠ [] :=
  Nat.toDigits_ne_nil

theorem digitsOf_head (n : Nat) (hn : 0 < n) : ∃ c more, digitsOf n = c :: more ∧ c ≠ '0' := by
  induction n using Nat.strongRecOn with
  | ind n ih =>
    unfold digitsOf
    by_cases h : n < 10
    · refine ⟨n.digitChar, [], Nat.toDigits_of_lt_base h, ?_⟩
      rw [Ne, Nat.digitChar_eq_zero]
      omega
    · obtain ⟨c, more, hc, h0⟩ := ih (n / 10) (by omega) (by omega)
      refine ⟨c, more ++ [(n % 10).digitChar], ?_, h0⟩
      rw [Nat.toDigits_of_base_le (by decide) (by omega)]
      show digitsOf (n / 10) ++ _ = _
      rw [hc]
      rfl

namespace Fixed
def positionalLiteral (d : Fixed) : Literal :=
  if d.places = 0 then
    ⟨digitsOf d.coefficient, false, [], none⟩
  else
    let fraction := digitsOf (d.coefficient % Nat.pow 10 d.places)
    ⟨digitsOf (d.coefficient / Nat.pow 10 d.places), true,
      List.replicate (d.places - fraction.length) '0' ++ fraction, none⟩

theorem positionalLiteral_spelling (d : Fixed) : d.positionalLiteral.spelling = d.positional := by
  unfold positionalLiteral positional Literal.spelling
  split <;> simp

theorem positionalLiteral_wellFormed (d : Fixed) : d.positionalLiteral.WellFormed := by
  unfold positionalLiteral
  split
  · exact ⟨digitsOf_allDigits _, by simp [AllDigits], fun _ => rfl, .inl (digitsOf_ne_nil _), by simp⟩
  · refine ⟨digitsOf_allDigits _, ?_, by simp, .inl (digitsOf_ne_nil _), by simp⟩
    intro c hc
    rcases List.mem_append.1 hc with hz | hd
    · rw [List.eq_of_mem_replicate hz]
      rfl
    · exact digitsOf_allDigits _ c hd

private theorem significantDigits_allDigits (d : Fixed) : AllDigits d.significantDigits := by
  intro c hc
  rw [significantDigits, List.mem_reverse] at hc
  exact digitsOf_allDigits _ c (List.mem_reverse.1 ((List.dropWhile_sublist _).subset hc))

def exponentPart (d : Fixed) : Exponent :=
  ⟨'e', some (if d.leadingScale < 0 then '-' else '+'), digitsOf d.leadingScale.natAbs⟩

private theorem exponentPart_wellFormed (d : Fixed) : d.exponentPart.WellFormed where
  mark := .inl rfl
  sign c h := by
    have hc := Option.some.inj h
    split at hc
    · exact .inr hc.symm
    · exact .inl hc.symm
  digits := digitsOf_allDigits _
  nonempty := digitsOf_ne_nil _

def scientificLiteral (d : Fixed) : Literal :=
  match d.significantDigits with
  | [] => ⟨['0'], false, [], some d.exponentPart⟩
  | [digit] => ⟨[digit], false, [], some d.exponentPart⟩
  | digit :: more => ⟨[digit], true, more, some d.exponentPart⟩

theorem scientificLiteral_spelling (d : Fixed) : d.scientificLiteral.spelling = d.scientific := by
  unfold scientificLiteral scientific Literal.spelling Exponent.spelling exponentPart
  cases d.significantDigits with
  | nil => simp
  | cons digit more => cases more <;> simp

theorem scientificLiteral_wellFormed (d : Fixed) : d.scientificLiteral.WellFormed := by
  have hd := d.significantDigits_allDigits
  have he : ∀ e, some d.exponentPart = some e → e.WellFormed := by
    intro e h
    rw [← Option.some.inj h]
    exact d.exponentPart_wellFormed
  unfold scientificLiteral
  cases hs : d.significantDigits with
  | nil => exact ⟨by simp [AllDigits], by simp [AllDigits], fun _ => rfl, .inl (by simp), he⟩
  | cons digit more =>
    rw [hs] at hd
    have hdigit : AllDigits [digit] := by
      intro c hc
      exact hd c (List.mem_cons.2 (.inl (List.mem_singleton.1 hc)))
    have hmore : AllDigits more := fun c hc => hd c (List.mem_cons_of_mem _ hc)
    cases more with
    | nil => exact ⟨hdigit, by simp [AllDigits], fun _ => rfl, .inl (by simp), he⟩
    | cons next more => exact ⟨hdigit, hmore, by simp, .inl (by simp), he⟩

end Fixed

def IsPlainChar (c : Char) : Prop :=
  c.isDigit = true ∨ c = '.' ∨ c = '-'

theorem AllDigits.isPlainChar {s : List Char} (h : AllDigits s) {c : Char} (hc : c ∈ s) :
    IsPlainChar c :=
  .inl (h c hc)

theorem Fixed.isPlainChar_of_mem_positional {d : Fixed} {c : Char} (h : c ∈ d.positional) :
    IsPlainChar c := by
  unfold positional at h
  split at h
  · exact (digitsOf_allDigits _).isPlainChar h
  · rcases List.mem_append.1 h with hw | hf
    · exact (digitsOf_allDigits _).isPlainChar hw
    · rcases List.mem_cons.1 hf with rfl | hp
      · exact .inr (.inl rfl)
      · rcases List.mem_append.1 hp with hz | hd
        · rw [List.eq_of_mem_replicate hz]
          exact .inl rfl
        · exact (digitsOf_allDigits _).isPlainChar hd

theorem isPlainChar_of_mem_withSign {negative : Bool} {s : List Char}
    (h : ∀ c ∈ s, IsPlainChar c) {c : Char} (hc : c ∈ withSign negative s) : IsPlainChar c := by
  cases negative with
  | false => exact h c hc
  | true =>
    rcases List.mem_cons.1 hc with rfl | hm
    · exact .inr (.inr rfl)
    · exact h c hm

theorem isPlainChar_of_mem_text {x : Float} (hi : x.isInf = false) (hn : x.isNaN = false) {c : Char}
    (hc : c ∈ (text x).toList) : IsPlainChar c := by
  have hfinite : ¬x.isInf = true := Bool.eq_false_iff.1 hi
  unfold text at hc
  rw [if_neg hfinite] at hc
  split at hc
  · rw [String.toList_ofList] at hc
    exact isPlainChar_of_mem_withSign (fun _ => (digitsOf_allDigits _).isPlainChar) hc
  · rw [plainText, if_neg (Bool.eq_false_iff.1 hn), if_neg hfinite, String.toList_ofList] at hc
    exact isPlainChar_of_mem_withSign (fun _ => Fixed.isPlainChar_of_mem_positional) hc

end Millwork.Decimal
