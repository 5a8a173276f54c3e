import Millwork.Proofs.Decimal.Longest
import Millwork.Proofs.Decimal.NotANumber
/-!
# Numbers at the front of a text

The two readers of numbers agree: what is read from the front of a text is what the longest readable text
at its front is as a whole.
-/
namespace Millwork.Decimal
open Text

/-- A number as it is written without a sign, and what it is, negated or not. -/
inductive Unsigned (negative : Bool) : List Char → Float → Prop
  | infinity : Unsigned negative infinityWord (infinity negative)
  | literal {l : Literal} (h : l.WellFormed) :
    Unsigned negative l.spelling (nearestSigned negative l.significand l.scale)

def IsSign (sign : Option Char) : Prop :=
  ∀ c, sign = some c → c = '+' ∨ c = '-'

/-- A number as it is written, with or without a sign. -/
inductive Written : List Char → Float → Prop
  | signed {sign : Option Char} {body : List Char} {x : Float} (hs : IsSign sign)
    (h : Unsigned (sign == some '-') body x) : Written (sign.toList ++ body) x

private theorem not_begins_infinityWord {l : Literal} (h : l.WellFormed) (rest : List Char) :
    ¬infinityWord <+: l.spelling ++ rest := by
  obtain ⟨c, more, hs, hc⟩ := h.exists_spelling
  rw [hs, infinityWord, List.cons_append, List.cons_prefix_cons]
  rintro ⟨rfl, -⟩
  exact absurd hc (by decide)

namespace Unsigned
variable {negative : Bool} {body : List Char} {x : Float}

theorem isNaN (h : Unsigned negative body x) : x.isNaN = false := by
  cases h with
  | infinity => exact isNaN_infinity negative
  | literal => exact isNaN_nearestSigned _ _ _

theorem isBlank_of_mem (h : Unsigned negative body x) {c : Char} (hc : c ∈ body) :
    isBlank c = false := by
  cases h with
  | infinity =>
    have hword : infinityWord.all (fun c => !isBlank c) = true := by decide
    simpa using List.all_eq_true.1 hword c hc
  | literal hl => exact hl.isBlank_of_mem_spelling hc

private theorem head (h : Unsigned negative body x) :
    ∃ c more, body = c :: more ∧ c ≠ '+' ∧ c ≠ '-' := by
  cases h with
  | infinity => exact ⟨'I', _, rfl, by decide, by decide⟩
  | literal hl =>
    obtain ⟨c, more, hs, hc⟩ := hl.exists_spelling
    refine ⟨c, more, hs, ?_, ?_⟩
    · rintro rfl
      exact absurd hc (by decide)
    · rintro rfl
      exact absurd hc (by decide)

theorem splitSign_append (h : Unsigned negative body x) {sign : Option Char} (hs : IsSign sign)
    (rest : List Char) : splitSign (sign.toList ++ (body ++ rest)) = (sign, body ++ rest) := by
  cases sign with
  | some c =>
    rcases hs c rfl with rfl | rfl
    · rfl
    · rfl
  | none =>
    obtain ⟨c, more, rfl, hplus, hminus⟩ := h.head
    rw [Option.toList_none, List.nil_append, List.cons_append, splitSign]
    · exact fun t ht => hplus (List.cons.inj ht).1
    · exact fun t ht => hminus (List.cons.inj ht).1

end Unsigned

namespace Written
variable {s : List Char} {x : Float}

theorem isNaN (h : Written s x) : x.isNaN = false := by
  obtain ⟨-, hbody⟩ := h
  exact hbody.isNaN

theorem isBlank_of_mem (h : Written s x) {c : Char} (hc : c ∈ s) : isBlank c = false := by
  obtain ⟨hs, hbody⟩ := h
  rcases List.mem_append.1 hc with hsign | hmem
  · rcases hs c (Option.mem_toList.1 hsign) with rfl | rfl
    · decide
    · decide
  · exact hbody.isBlank_of_mem hmem

theorem ne_nil (h : Written s x) : s ≠ [] := by
  obtain ⟨-, hbody⟩ := h
  obtain ⟨c, more, rfl, -⟩ := hbody.head
  exact List.append_ne_nil_of_right_ne_nil _ (List.cons_ne_nil c more)

theorem surrounded {before : List Char} (h : Written s x) (hb : AllBlank before)
    (rest : List Char) :
    (before ++ (s ++ rest)).takeWhile isBlank = before ∧
      skipBlanks (before ++ (s ++ rest)) = s ++ rest := by
  obtain ⟨c, more, rfl⟩ := List.exists_cons_of_ne_nil h.ne_nil
  have hc : ¬isBlank c = true := by
    rw [h.isBlank_of_mem List.mem_cons_self]
    exact Bool.false_ne_true
  rw [skipBlanks_append hb, List.takeWhile_append_of_pos hb, List.cons_append, skipBlanks,
    List.takeWhile_cons_of_neg hc, List.dropWhile_cons_of_neg hc, List.append_nil]
  exact ⟨rfl, rfl⟩

end Written

theorem readAll_written {before s after : List Char} {x : Float} (hb : AllBlank before)
    (ha : AllBlank after) (h : Written s x) : readAll (before ++ s ++ after) = x := by
  have htrim : trim (before ++ s ++ after) = s := trim_surrounded hb ha fun c => h.isBlank_of_mem
  have hne : s.isEmpty = false := List.isEmpty_eq_false_iff.2 h.ne_nil
  obtain @⟨sign, body, x, hs, hbody⟩ := h
  have hsplit := hbody.splitSign_append hs []
  rw [List.append_nil] at hsplit
  simp only [readAll, htrim, hne, hsplit, Bool.false_eq_true, if_false]
  cases hbody with
  | infinity => rw [if_pos rfl]
  | @literal l hl =>
    have hword : l.spelling ≠ infinityWord := fun he =>
      not_begins_infinityWord hl [] ⟨[], by rw [List.append_nil, List.append_nil, he]⟩
    have hread := Literal.read?_spelling hl ends_nil
    rw [List.append_nil] at hread
    rw [if_neg hword, hread]

/-- A text that is not blank and is a number as a whole. -/
structure Readable (s : List Char) : Prop where
  notBlank : ∃ c ∈ s, isBlank c = false
  number : (readAll s).isNaN = false

theorem Written.readable {before s after : List Char} {x : Float} (h : Written s x)
    (hb : AllBlank before) (ha : AllBlank after) : Readable (before ++ s ++ after) where
  notBlank := by
    obtain ⟨c, more, rfl⟩ := List.exists_cons_of_ne_nil h.ne_nil
    exact ⟨c, by simp, h.isBlank_of_mem List.mem_cons_self⟩
  number := by
    rw [readAll_written hb ha h]
    exact h.isNaN

private theorem Readable.exists_written {s : List Char} (h : Readable s) :
    ∃ before number after x, AllBlank before ∧ AllBlank after ∧ Written number x ∧
      s = before ++ number ++ after := by
  obtain ⟨before, after, hb, ha, hs⟩ := exists_surrounded s
  refine ⟨before, trim s, after, readAll s, hb, ha, ?_, hs⟩
  have hne : (trim s).isEmpty = false := by
    rw [List.isEmpty_eq_false_iff]
    intro hempty
    obtain ⟨c, hc, hblank⟩ := h.notBlank
    rw [hs, hempty, List.append_nil] at hc
    have hall : isBlank c = true := (List.mem_append.1 hc).elim (hb c) (ha c)
    rw [hblank] at hall
    cases hall
  have hsign : IsSign (splitSign (trim s)).1 := fun c => eq_sign_of_splitSign
  have hnumber := h.number
  rw [← Decimal.splitSign_append (trim s)]
  refine .signed hsign ?_
  simp only [readAll, hne, Bool.false_eq_true, if_false] at hnumber ⊢
  split
  · rename_i hword
    rw [hword]
    exact .infinity
  · rename_i hword
    rw [if_neg hword] at hnumber
    obtain ⟨l, hread⟩ : ∃ l, Literal.read? (splitSign (trim s)).2 = some (l, []) := by
      split at hnumber
      · rename_i l hread
        exact ⟨l, hread⟩
      · cases isNaN_notANumber.symm.trans hnumber
    have hspelling := (Literal.spelling_of_read? hread).1
    rw [List.append_nil] at hspelling
    rw [hread, hspelling]
    exact .literal (Literal.wellFormed_of_read? hread)

/-- A text begins with the word for infinity or with a literal, but not with both. -/
theorem Unsigned.front {negative : Bool} {body t : List Char} {x : Float}
    (h : Unsigned negative body x) (ht : body <+: t) :
    (infinityWord <+: t ∧ body.length = infinityWord.length) ∨
      (¬infinityWord <+: t ∧ ∃ l rest, Literal.read? t = some (l, rest) ∧
        body.length ≤ l.spelling.length) := by
  cases h with
  | infinity => exact .inl ⟨ht, rfl⟩
  | literal hl =>
    obtain ⟨rest, rfl⟩ := ht
    obtain ⟨found, behind, hread, hle⟩ := Literal.exists_read? hl (List.prefix_append _ rest)
    exact .inr ⟨not_begins_infinityWord hl rest, found, behind, hread, hle⟩

/-- A number at the front has the sign of the text, and goes no further than what is read behind it. -/
theorem Written.front {s other : List Char} {x : Float} (h : Written other x) (hp : other <+: s) :
    (infinityWord <+: (splitSign s).2 ∧
        other.length = (splitSign s).1.toList.length + infinityWord.length) ∨
      (¬infinityWord <+: (splitSign s).2 ∧ ∃ l rest, Literal.read? (splitSign s).2 = some (l, rest) ∧
        other.length ≤ (splitSign s).1.toList.length + l.spelling.length) := by
  obtain ⟨rest, rfl⟩ := hp
  obtain @⟨sign, body, x, hs, hbody⟩ := h
  rw [List.append_assoc, hbody.splitSign_append hs rest, List.length_append]
  rcases hbody.front (List.prefix_append body rest) with ⟨hword, he⟩ | ⟨hword, l, behind, hread, hle⟩
  · exact .inl ⟨hword, by rw [he]⟩
  · exact .inr ⟨hword, l, behind, hread, Nat.add_le_add_left hle _⟩

/-- What is read is the longest number at the front, if there is one. -/
theorem readFront_cases (s : List Char) :
    (∃ number rest, skipBlanks s = number ++ rest ∧ Written number (readFront s) ∧
      ∀ other y, Written other y → other <+: skipBlanks s → other.length ≤ number.length) ∨
    ((∀ other y, Written other y → ¬other <+: skipBlanks s) ∧ readFront s = notANumber) := by
  have hsign : IsSign (splitSign (skipBlanks s)).1 := fun c => eq_sign_of_splitSign
  have happend := Decimal.splitSign_append (skipBlanks s)
  rw [readFront]
  by_cases hword : infinityWord <+: (splitSign (skipBlanks s)).2
  · rw [if_pos (List.isPrefixOf_iff_prefix.2 hword)]
    obtain ⟨rest, hrest⟩ := hword
    refine .inl ⟨_ ++ infinityWord, rest, ?_, .signed hsign .infinity, fun other y ho hp => ?_⟩
    · rw [List.append_assoc, hrest, happend]
    · rcases ho.front hp with ⟨-, he⟩ | ⟨hno, -⟩
      · rw [he, List.length_append]
      · exact absurd ⟨rest, hrest⟩ hno
  · rw [if_neg (mt List.isPrefixOf_iff_prefix.1 hword)]
    cases hread : Literal.read? (splitSign (skipBlanks s)).2 with
    | none =>
      refine .inr ⟨fun other y ho hp => ?_, rfl⟩
      rcases ho.front hp with ⟨hinfinity, -⟩ | ⟨-, l, rest, hfound, -⟩
      · exact hword hinfinity
      · rw [hread] at hfound
        cases hfound
    | some found =>
      obtain ⟨l, rest⟩ := found
      obtain ⟨hl, hrest, -⟩ := (Literal.read?_eq_some_iff _ _ _).1 hread
      refine .inl ⟨_ ++ l.spelling, rest, ?_, .signed hsign (.literal hl), fun other y ho hp => ?_⟩
      · rw [List.append_assoc, ← hrest, happend]
      · rcases ho.front hp with ⟨hinfinity, -⟩ | ⟨-, l', rest', hfound, hle⟩
        · exact absurd hinfinity hword
        · rw [hread] at hfound
          cases hfound
          rwa [List.length_append]

/-- `p` is the longest text that can be read among those that `s` begins with. -/
structure LongestReadable (s p : List Char) : Prop where
  front : p <+: s
  readable : Readable p
  longest : ∀ q, q <+: s → Readable q → q.length ≤ p.length

theorem LongestReadable.unique {s p q : List Char} (hp : LongestReadable s p)
    (hq : LongestReadable s q) : p = q := by
  have hle := hp.longest q hq.front hq.readable
  have hge := hq.longest p hp.front hp.readable
  exact (List.prefix_of_prefix_length_le hp.front hq.front hge).eq_of_length (by omega)

private theorem length_blanks_le {short long blanks rest rest' : List Char} {x : Float}
    (h : Written long x) (hb : AllBlank blanks)
    (hs : short ++ (blanks ++ rest') = long ++ rest) (hle : short.length ≤ long.length) :
    short.length + blanks.length ≤ long.length + (rest.takeWhile isBlank).length := by
  obtain ⟨more, rfl⟩ : short <+: long :=
    List.prefix_of_prefix_length_le ⟨_, hs⟩ (List.prefix_append long rest) hle
  rw [List.append_assoc, List.append_cancel_left_eq] at hs
  cases more with
  | nil =>
    rw [List.nil_append] at hs
    rw [← hs, List.takeWhile_append_of_pos hb]
    simp
  | cons c more =>
    cases blanks with
    | nil =>
      rw [List.length_nil]
      omega
    | cons b blanks =>
      have hbc : b = c := (List.cons.inj hs).1
      have hblank := hb b List.mem_cons_self
      rw [hbc, h.isBlank_of_mem (by simp)] at hblank
      cases hblank

private theorem longestReadable_of_written {s number rest : List Char} {x : Float}
    (h : Written number x) (hs : skipBlanks s = number ++ rest)
    (hlongest : ∀ other y, Written other y → other <+: skipBlanks s →
      other.length ≤ number.length) :
    LongestReadable s (s.takeWhile isBlank ++ number ++ rest.takeWhile isBlank) := by
  have hsplit : s = s.takeWhile isBlank ++ (number ++ rest) := by
    rw [← hs, skipBlanks, List.takeWhile_append_dropWhile]
  refine ⟨⟨rest.dropWhile isBlank, ?_⟩, h.readable (allBlank_takeWhile s) (allBlank_takeWhile rest),
    fun q hq hreadable => ?_⟩
  · rw [List.append_assoc, List.append_assoc, List.takeWhile_append_dropWhile, ← hsplit]
  · obtain ⟨before, other, after, y, hb, ha, ho, rfl⟩ := hreadable.exists_written
    obtain ⟨behind, rfl⟩ := hq
    have hassoc : before ++ other ++ after ++ behind = before ++ (other ++ (after ++ behind)) := by
      simp only [List.append_assoc]
    obtain ⟨htake, hskip⟩ := ho.surrounded hb (after ++ behind)
    rw [hassoc, hskip] at hs hlongest
    have hle := hlongest other y ho (List.prefix_append _ _)
    have hblanks := length_blanks_le h ha hs hle
    rw [hassoc, htake]
    simp only [List.length_append]
    omega

private theorem not_readable_of_not_written {s p : List Char}
    (h : ∀ other y, Written other y → ¬other <+: skipBlanks s) (hp : p <+: s) : ¬Readable p := by
  intro hreadable
  obtain ⟨before, number, after, y, hb, -, hn, rfl⟩ := hreadable.exists_written
  obtain ⟨behind, rfl⟩ := hp
  rw [List.append_assoc, List.append_assoc, (hn.surrounded hb _).2] at h
  exact h number y hn (List.prefix_append _ _)

/-- What is read from the front of a text is what the longest readable text at its front is as a
whole, and not a number where no text at the front is readable. -/
theorem readFront_eq_iff (s : List Char) (x : Float) :
    (readFront s = x ↔ (∃ p, LongestReadable s p ∧ readAll p = x) ∨
      ((∀ p, p <+: s → ¬Readable p) ∧ x = notANumber)) ∧
    (Readable s → readFront s = readAll s) := by
  have hfound : ∀ p, LongestReadable s p → readFront s = readAll p := by
    intro p hp
    rcases readFront_cases s with ⟨number, rest, hs, hw, hlongest⟩ | ⟨hnone, -⟩
    · rw [hp.unique (longestReadable_of_written hw hs hlongest),
        readAll_written (allBlank_takeWhile s) (allBlank_takeWhile rest) hw]
    · exact absurd hp.readable (not_readable_of_not_written hnone hp.front)
  refine ⟨⟨?_, ?_⟩, fun h => hfound s ⟨List.prefix_refl s, h, fun q hq _ => hq.length_le⟩⟩
  · rintro rfl
    rcases readFront_cases s with ⟨number, rest, hs, hw, hlongest⟩ | ⟨hnone, hnan⟩
    · have hp := longestReadable_of_written hw hs hlongest
      exact .inl ⟨_, hp, (hfound _ hp).symm⟩
    · exact .inr ⟨fun p hp => not_readable_of_not_written hnone hp, hnan⟩
  · rintro (⟨p, hp, rfl⟩ | ⟨hnone, rfl⟩)
    · exact hfound p hp
    · rcases readFront_cases s with ⟨number, rest, hs, hw, hlongest⟩ | ⟨-, hnan⟩
      · have hp := longestReadable_of_written hw hs hlongest
        exact absurd hp.readable (hnone _ hp.front)
      · exact hnan

theorem readFront_eq_iff_width :
    (∃ p, LongestReadable "2.5 mm".toList p ∧ readAll p = 2.5) ∧
      readFront " 2.5 ".toList = readAll " 2.5 ".toList := by
  constructor
  · rcases (readFront_eq_iff "2.5 mm".toList 2.5).1.1 (by decide +kernel) with hp | ⟨-, hnan⟩
    · exact hp
    · exact absurd hnan (by decide +kernel)
  · exact (readFront_eq_iff " 2.5 ".toList 2.5).2 ⟨⟨'2', by decide, by decide⟩, by decide +kernel⟩

end Millwork.Decimal
