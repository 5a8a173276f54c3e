import Millwork.Formula.Lexer
import Millwork.Proofs.Decimal.Longest
/-!
# The longest lexeme

Reading takes the longest lexeme that a text begins with, and fails only if it begins with none
(`readLexeme?_eq_some_iff`, `readLexeme?_eq_none_iff`).
-/
namespace Millwork.Formula
open Text Decimal

/-- What stands between the points of a name. -/
structure IsNamePart (part : List Char) : Prop where
  start : ∃ c rest, part = c :: rest ∧ isNameStart c = true
  chars : ∀ c ∈ part, isNameChar c = true

inductive IsName : List Char → Prop
  | part {p : List Char} (hp : IsNamePart p) : IsName p
  | dotted {p s : List Char} (hp : IsNamePart p) (hs : IsName s) : IsName (p ++ '.' :: s)

private theorem range_of_isNameStart {c : Char} (h : isNameStart c = true) :
    (65 ≤ c.toNat ∧ c.toNat ≤ 122) ∨ c = '_' ∨ c = '$' := by
  change (decide (c.val ≥ 65 ∧ c.val ≤ 90) || (decide (c.val ≥ 97) && decide (c.val ≤ 122)) ||
    decide (c = '_') || decide (c = '$')) = true at h
  simp only [Bool.or_eq_true, Bool.and_eq_true, decide_eq_true_eq, ge_iff_le,
    UInt32.le_iff_toNat_le] at h
  change (((65 ≤ c.toNat ∧ c.toNat ≤ 90) ∨ (97 ≤ c.toNat ∧ c.toNat ≤ 122)) ∨ c = '_') ∨ c = '$' at h
  rcases h with (hletter | hline) | hdollar
  · exact .inl (by omega)
  · exact .inr (.inl hline)
  · exact .inr (.inr hdollar)

private theorem isNameChar_iff (c : Char) :
    isNameChar c = true ↔ isNameStart c = true ∨ c.isDigit = true := by
  simp only [isNameStart, isNameChar, Char.isAlphanum, Bool.or_eq_true]
  tauto

private theorem isNameChar_of_isNameStart {c : Char} (h : isNameStart c = true) : isNameChar c = true :=
  (isNameChar_iff c).2 (.inl h)

theorem isNamePart_singleton {c : Char} (h : isNameStart c = true) : IsNamePart [c] where
  start := ⟨c, [], rfl, h⟩
  chars := List.forall_mem_singleton.2 (isNameChar_of_isNameStart h)

private theorem IsNamePart.concat {p : List Char} (h : IsNamePart p) {c : Char}
    (hc : isNameChar c = true) : IsNamePart (p ++ [c]) where
  start := by
    obtain ⟨d, rest, rfl, hd⟩ := h.start
    exact ⟨d, rest ++ [c], rfl, hd⟩
  chars := List.forall_mem_append.2 ⟨h.chars, List.forall_mem_singleton.2 hc⟩

theorem IsName.start {name : List Char} (h : IsName name) :
    ∃ c rest, name = c :: rest ∧ isNameStart c = true := by
  cases h with
  | part hp => exact hp.start
  | @dotted p s hp =>
    obtain ⟨c, rest, rfl, hc⟩ := hp.start
    exact ⟨c, rest ++ '.' :: s, rfl, hc⟩

private theorem nameAtFront_of_chars {p : List Char} (h : ∀ c ∈ p, isNameChar c = true)
    (rest : List Char) :
    nameAtFront (p ++ rest) = p ++ nameAtFront rest := by
  induction p with
  | nil => rfl
  | cons c p ih =>
    obtain ⟨hc, hp⟩ := List.forall_mem_cons.1 h
    rw [List.cons_append, nameAtFront, hc, Bool.true_or, if_pos rfl, ih hp, List.cons_append]

private theorem nameAtFront_point {c : Char} (hc : isNameStart c = true) (rest : List Char) :
    nameAtFront ('.' :: c :: rest) = '.' :: nameAtFront (c :: rest) := by
  rw [nameAtFront, if_pos (by simp [hc])]

private theorem IsName.nameAtFront_append {name : List Char} (h : IsName name) (rest : List Char) :
    nameAtFront (name ++ rest) = name ++ nameAtFront rest := by
  induction h with
  | part hp => exact nameAtFront_of_chars hp.chars rest
  | dotted hp hs ih =>
    obtain ⟨c, more, rfl, hc⟩ := hs.start
    rw [List.append_assoc, nameAtFront_of_chars hp.chars, List.cons_append, List.cons_append,
      nameAtFront_point hc, ← List.cons_append, ih, List.append_assoc]
    rfl

private theorem isName_append_nameAtFront (s : List Char) :
    (∀ p, IsNamePart p → IsName (p ++ nameAtFront s)) ∧
      (s.head?.any isNameStart = true → IsName (nameAtFront s)) := by
  induction s with
  | nil => exact ⟨fun p hp => by rw [nameAtFront, List.append_nil]; exact .part hp, nofun⟩
  | cons c s ih =>
    constructor
    · intro p hp
      rw [nameAtFront]
      split
      · rename_i h
        rcases (Bool.or_eq_true _ _).mp h with hc | hpoint
        · rw [List.append_cons]
          exact ih.1 _ (hp.concat hc)
        · simp only [Bool.and_eq_true, decide_eq_true_eq] at hpoint
          obtain ⟨rfl, hstart⟩ := hpoint
          exact .dotted hp (ih.2 hstart)
      · rw [List.append_nil]
        exact .part hp
    · intro h
      have hc : isNameStart c = true := by simpa using h
      have hfront := nameAtFront_of_chars (isNamePart_singleton hc).chars s
      rw [List.singleton_append] at hfront
      rw [hfront]
      exact ih.1 _ (isNamePart_singleton hc)

private theorem isBlank_of_isNameChar {c : Char} (h : isNameChar c = true) : isBlank c = false := by
  rcases (isNameChar_iff c).1 h with hstart | hdigit
  · rcases range_of_isNameStart hstart with hr | rfl | rfl
    · exact isBlank_of_visible (by omega)
    · decide
    · decide
  · exact isBlank_of_isDigit hdigit

theorem IsName.isBlank_of_mem {name : List Char} (h : IsName name) :
    ∀ c ∈ name, isBlank c = false := by
  induction h with
  | part hp => exact fun c hc => isBlank_of_isNameChar (hp.chars c hc)
  | dotted hp _ ih =>
    exact List.forall_mem_append.2 ⟨fun c hc => isBlank_of_isNameChar (hp.chars c hc),
      List.forall_mem_cons.2 ⟨by decide, ih⟩⟩

def marks : List (Char × Lexeme) :=
  [('+', .plus), ('-', .minus), ('*', .star), ('/', .slash), ('(', .openParen), (')', .closeParen),
    (',', .comma)]

/-- How lexemes are written. -/
inductive Spells : List Char → Lexeme → Prop
  | number {l : Literal} (h : l.WellFormed) : Spells l.spelling (.number l.toFloat)
  | name {text : List Char} (h : IsName text) : Spells text (.name (String.ofList text))
  | field {text : List Char} (h : ']' ∉ text) :
    Spells ('[' :: text ++ [']']) (.field (String.ofList text))
  | mark {c : Char} {lexeme : Lexeme} (h : (c, lexeme) ∈ marks) : Spells [c] lexeme

private theorem readLexeme?_mark {c : Char} {lexeme : Lexeme} (h : (c, lexeme) ∈ marks)
    (rest : List Char) :
    readLexeme? (c :: rest) = some (lexeme, [c]) := by
  simp only [marks, List.mem_cons, List.not_mem_nil, or_false, Prod.mk.injEq] at h
  rcases h with ⟨rfl, rfl⟩ | ⟨rfl, rfl⟩ | ⟨rfl, rfl⟩ | ⟨rfl, rfl⟩ | ⟨rfl, rfl⟩ | ⟨rfl, rfl⟩ |
    ⟨rfl, rfl⟩ <;> rfl

private theorem readLexeme?_field {text : List Char} (h : ']' ∉ text) (rest : List Char) :
    readLexeme? ('[' :: text ++ [']'] ++ rest) =
      some (.field (String.ofList text), '[' :: text ++ [']']) := by
  have hchars : ∀ c ∈ text, isFieldChar c = true := fun c hc =>
    bne_iff_ne.2 fun he => h (he ▸ hc)
  have hshape : '[' :: text ++ [']'] ++ rest = '[' :: (text ++ (']' :: rest)) := by simp
  have htake : (text ++ (']' :: rest)).takeWhile isFieldChar = text := by
    rw [List.takeWhile_append_of_pos hchars, List.takeWhile_cons_of_neg (by decide),
      List.append_nil]
  have hdrop : (text ++ (']' :: rest)).dropWhile isFieldChar = ']' :: rest := by
    rw [List.dropWhile_append_of_pos hchars, List.dropWhile_cons_of_neg (by decide)]
  rw [hshape, readLexeme?, htake, hdrop]
  rfl

private theorem readLexeme?_of_not_mem {c : Char}
    (h : c ∉ '[' :: marks.map Prod.fst) (rest : List Char) :
    readLexeme? (c :: rest) =
      if isNameStart c then
        some (.name (String.ofList (c :: nameAtFront rest)), c :: nameAtFront rest)
      else
        (Literal.read? (c :: rest)).map fun found => (.number found.1.toFloat, found.1.spelling) := by
  unfold readLexeme?
  split
  case h_1 he => cases he
  case h_10 he =>
    cases he
    rfl
  all_goals
    rename_i he
    cases he
    exact absurd (by decide) h

private theorem readLexeme?_name {c : Char} (h : isNameStart c = true) (rest : List Char) :
    readLexeme? (c :: rest) =
      some (.name (String.ofList (nameAtFront (c :: rest))), nameAtFront (c :: rest)) := by
  have hmarks : ('[' :: marks.map Prod.fst).any isNameStart = false := by decide
  have hc : c ∉ '[' :: marks.map Prod.fst := fun hm => List.any_eq_false.1 hmarks c hm h
  have hfront := nameAtFront_of_chars (isNamePart_singleton h).chars rest
  rw [List.singleton_append, List.singleton_append] at hfront
  rw [readLexeme?_of_not_mem hc, if_pos h, hfront]

theorem readLexeme?_number {c : Char} (h : c.isDigit = true ∨ c = '.') (rest : List Char) :
    readLexeme? (c :: rest) = (Literal.read? (c :: rest)).map fun found =>
      (.number found.1.toFloat, found.1.spelling) := by
  have hmarks : ('[' :: marks.map Prod.fst).any (fun d => d.isDigit || d = '.') = false := by decide
  have hc : c ∉ '[' :: marks.map Prod.fst := fun hm =>
    List.any_eq_false.1 hmarks c hm (by simpa using h)
  have hname : ¬isNameStart c = true := by
    rcases h with hdigit | rfl
    · have hrange := (isDigit_iff c).1 hdigit
      intro hstart
      rcases range_of_isNameStart hstart with hr | rfl | rfl
      · omega
      · cases hdigit
      · cases hdigit
    · decide
  rw [readLexeme?_of_not_mem hc, if_neg hname]

private theorem spells_of_readLexeme? {s spelling : List Char} {lexeme : Lexeme}
    (h : readLexeme? s = some (lexeme, spelling)) : Spells spelling lexeme := by
  unfold readLexeme? at h
  split at h
  case h_1 => cases h
  case h_9 rest =>
    split at h
    · cases h
    · cases h
      refine .field fun hm => ?_
      exact absurd (List.mem_takeWhile_imp hm) (by decide)
  case h_10 c rest _ _ _ _ _ _ _ _ =>
    split at h
    · rename_i hc
      cases h
      have hfront := nameAtFront_of_chars (isNamePart_singleton hc).chars rest
      rw [← List.singleton_append, ← hfront]
      exact .name ((isName_append_nameAtFront _).2 (by simpa using hc))
    · obtain ⟨found, hf, he⟩ := Option.map_eq_some_iff.1 h
      cases he
      exact .number (Literal.wellFormed_of_read? hf)
  all_goals
    cases h
    exact .mark (by simp [marks])

namespace Spells
variable {spelling : List Char} {lexeme : Lexeme}

private theorem exists_readLexeme? (h : Spells spelling lexeme) {s : List Char} (hs : spelling <+: s) :
    ∃ lexeme' spelling', readLexeme? s = some (lexeme', spelling') ∧
      spelling.length ≤ spelling'.length := by
  cases h with
  | @number l hl =>
    obtain ⟨found, rest, hread, hle⟩ := Literal.exists_read? hl hs
    obtain ⟨c, more, hspelling, hc⟩ := hl.exists_spelling
    obtain ⟨behind, rfl⟩ := hs
    rw [hspelling, List.cons_append] at hread ⊢
    rw [readLexeme?_number hc, hread]
    rw [hspelling] at hle
    exact ⟨_, _, rfl, hle⟩
  | name hn =>
    obtain ⟨rest, rfl⟩ := hs
    obtain ⟨c, more, rfl, hc⟩ := hn.start
    have hfront := hn.nameAtFront_append rest
    rw [List.cons_append] at hfront ⊢
    rw [readLexeme?_name hc, hfront]
    exact ⟨_, _, rfl, by simp⟩
  | field hf =>
    obtain ⟨rest, rfl⟩ := hs
    exact ⟨_, _, readLexeme?_field hf rest, Nat.le_refl _⟩
  | mark hm =>
    obtain ⟨rest, rfl⟩ := hs
    exact ⟨_, _, readLexeme?_mark hm rest, Nat.le_refl _⟩

private theorem readLexeme?_self (h : Spells spelling lexeme) :
    readLexeme? spelling = some (lexeme, spelling) := by
  cases h with
  | number hl =>
    obtain ⟨c, more, hspelling, hc⟩ := hl.exists_spelling
    have hread := Literal.read?_spelling hl ends_nil
    rw [List.append_nil] at hread
    rw [hspelling] at hread ⊢
    rw [readLexeme?_number hc, hread, ← hspelling]
    rfl
  | name hn =>
    obtain ⟨c, more, rfl, hc⟩ := hn.start
    have hfront := hn.nameAtFront_append []
    rw [List.append_nil, nameAtFront, List.append_nil] at hfront
    rw [readLexeme?_name hc, hfront]
  | field hf =>
    have hread := readLexeme?_field hf []
    rwa [List.append_nil] at hread
  | mark hm => exact readLexeme?_mark hm []

/-- A spelling is that of one lexeme only. -/
theorem unique (h : Spells spelling lexeme) {lexeme' : Lexeme} (h' : Spells spelling lexeme') :
    lexeme = lexeme' := by
  have hread := h.readLexeme?_self
  rw [h'.readLexeme?_self] at hread
  cases hread
  rfl

end Spells

/-- No lexeme at the front of the text goes beyond the spelling. -/
def IsLongest (spelling rest : List Char) : Prop :=
  ∀ other lexeme, Spells other lexeme → other <+: spelling ++ rest → other.length ≤ spelling.length

theorem readLexeme?_eq_some_iff (s spelling : List Char) (lexeme : Lexeme) :
    readLexeme? s = some (lexeme, spelling) ↔
      Spells spelling lexeme ∧ ∃ rest, s = spelling ++ rest ∧ IsLongest spelling rest := by
  constructor
  · intro h
    obtain ⟨⟨rest, rfl⟩, -⟩ := readLexeme?_spelling h
    refine ⟨spells_of_readLexeme? h, rest, rfl, fun other lexeme' ho hp => ?_⟩
    obtain ⟨_, _, hread, hle⟩ := ho.exists_readLexeme? hp
    rw [h] at hread
    cases hread
    exact hle
  · rintro ⟨h, rest, rfl, hlongest⟩
    obtain ⟨found, spelling', hread, hle⟩ := h.exists_readLexeme? (List.prefix_append spelling rest)
    have hfound := spells_of_readLexeme? hread
    have hfront := (readLexeme?_spelling hread).1
    have hlength := hlongest _ _ hfound hfront
    have hsame : spelling = spelling' :=
      (List.prefix_of_prefix_length_le (List.prefix_append spelling rest) hfront hle).eq_of_length
        (by omega)
    subst hsame
    rw [hread, hfound.unique h]

theorem readLexeme?_eq_none_iff (s : List Char) :
    readLexeme? s = none ↔ ∀ spelling lexeme, Spells spelling lexeme → ¬spelling <+: s := by
  constructor
  · intro hnone spelling lexeme h hs
    obtain ⟨_, _, hread, -⟩ := h.exists_readLexeme? hs
    rw [hnone] at hread
    cases hread
  · intro h
    cases hread : readLexeme? s with
    | none => rfl
    | some found => exact absurd (readLexeme?_spelling hread).1 (h _ _ (spells_of_readLexeme? hread))

namespace Spells
variable {spelling : List Char} {lexeme : Lexeme}

theorem isBlank_of_mem (h : Spells spelling lexeme) :
    (∃ text, spelling = '[' :: text ++ [']'] ∧ ']' ∉ text) ∨ ∀ c ∈ spelling, isBlank c = false := by
  cases h with
  | number hl => exact .inr fun c => hl.isBlank_of_mem_spelling
  | name hn => exact .inr hn.isBlank_of_mem
  | field hf => exact .inl ⟨_, rfl, hf⟩
  | mark hm =>
    have hmarks : (marks.map Prod.fst).any isBlank = false := by decide
    have hc := List.any_eq_false.1 hmarks _ (List.mem_map_of_mem hm)
    exact .inr (List.forall_mem_singleton.2 (eq_false_of_ne_true hc))

theorem start (h : Spells spelling lexeme) :
    ∃ c more, spelling = c :: more ∧ isBlank c = false := by
  have hne := (readLexeme?_spelling h.readLexeme?_self).2
  obtain ⟨c, more, rfl⟩ := List.exists_cons_of_ne_nil hne
  refine ⟨c, more, rfl, ?_⟩
  rcases h.isBlank_of_mem with ⟨text, hs, -⟩ | hvisible
  · rw [(List.cons.inj hs).1]
    decide
  · exact hvisible c List.mem_cons_self

private theorem exists_bracket {s : List Char} (h : Spells ('[' :: s) lexeme) :
    ∃ text, s = text ++ [']'] := by
  have hread := h.readLexeme?_self
  rw [readLexeme?] at hread
  split at hread
  · cases hread
  · exact ⟨s.takeWhile isFieldChar, (List.cons.inj (Prod.mk.inj (Option.some.inj hread)).2).2.symm⟩

theorem isLongest (h : Spells spelling lexeme) {rest : List Char}
    (hr : ∀ c ∈ rest.head?, isBlank c = true) : IsLongest spelling rest := by
  intro other lexeme' ho hp
  by_contra hlt
  rw [Nat.not_le] at hlt
  obtain ⟨more, rfl⟩ : spelling <+: other :=
    List.prefix_of_prefix_length_le (List.prefix_append spelling rest) hp (Nat.le_of_lt hlt)
  rw [List.prefix_append_right_inj] at hp
  cases more with
  | nil => simp at hlt
  | cons c more =>
    have hc : isBlank c = true := by
      obtain ⟨behind, rfl⟩ := hp
      exact hr c rfl
    rcases ho.isBlank_of_mem with ⟨text, hs, hf⟩ | hvisible
    · -- both are fields, and a field has one closing bracket only
      obtain ⟨d, tail, rfl, -⟩ := h.start
      obtain rfl : d = '[' := (List.cons.inj hs).1
      obtain ⟨inner, rfl⟩ := h.exists_bracket
      have hfront : inner ++ [']'] <+: text ++ [']'] := ⟨c :: more, (List.cons.inj hs).2⟩
      have hlength := congrArg List.length hs
      simp only [List.length_append, List.length_cons] at hlength
      have hinside := List.prefix_of_prefix_length_le hfront (List.prefix_append text [']'])
        (by rw [List.length_append, List.length_singleton]; omega)
      exact hf (hinside.subset (by simp))
    · rw [hvisible c (by simp)] at hc
      cases hc

end Spells
end Millwork.Formula
