import Millwork.Proofs.Decimal.Spelling
import Millwork.Proofs.Text.Blank
/-!
# The longest literal

Reading takes the longest literal that a text begins with (`Literal.read?_eq_some_iff`).
-/
namespace Millwork.Decimal

theorem allDigits_digitsAtFront (s : List Char) : AllDigits (digitsAtFront s) :=
  List.all_eq_true.1 List.all_takeWhile

theorem head?_afterDigits (s : List Char) : (afterDigits s).head?.any Char.isDigit = false := by
  have hnot := List.head?_dropWhile_not Char.isDigit s
  rw [afterDigits]
  cases h : (s.dropWhile Char.isDigit).head? with
  | none => rfl
  | some c =>
    rw [h] at hnot
    simpa using hnot

theorem eq_sign_of_splitSign {s : List Char} {c : Char} (h : (splitSign s).1 = some c) :
    c = '+' ∨ c = '-' := by
  unfold splitSign at h
  split at h
  · exact .inl (Option.some.inj h).symm
  · exact .inr (Option.some.inj h).symm
  · cases h

namespace Exponent
theorem wellFormed_of_read? {s rest : List Char} {e : Exponent} (h : read? s = (some e, rest)) :
    e.WellFormed := by
  cases s with
  | nil => cases h
  | cons mark s =>
    rw [read?] at h
    split at h
    · rename_i hm
      obtain ⟨rfl, -⟩ := Prod.mk.inj h |>.imp_left Option.some.inj
      rw [Bool.and_eq_true] at hm
      exact ⟨by simpa using hm.1, fun c => eq_sign_of_splitSign, allDigits_digitsAtFront _,
        by simpa using hm.2⟩
    · cases h

end Exponent

namespace Literal
theorem wellFormed_of_read? {s rest : List Char} {l : Literal} (h : read? s = some (l, rest)) :
    l.WellFormed := by
  have hexponent (t : List Char) : ∀ e, (Exponent.read? t).1 = some e → e.WellFormed :=
    fun e he => Exponent.wellFormed_of_read? (Prod.ext he rfl)
  unfold read? at h
  split at h
  · dsimp only at h
    split at h
    · cases h
    · rename_i t _ hn
      obtain ⟨rfl, -⟩ := Prod.mk.inj (Option.some.inj h)
      refine ⟨allDigits_digitsAtFront s, allDigits_digitsAtFront t, nofun, ?_, hexponent _⟩
      rw [Bool.and_eq_true, List.isEmpty_iff, List.isEmpty_iff] at hn
      exact Decidable.not_and_iff_or_not.1 hn
  · dsimp only at h
    split at h
    · cases h
    · rename_i hn
      obtain ⟨rfl, -⟩ := Prod.mk.inj (Option.some.inj h)
      rw [List.isEmpty_iff] at hn
      exact ⟨allDigits_digitsAtFront s, nofun, fun _ => rfl, .inl hn, hexponent _⟩

private theorem exists_read?_point {whole fraction : List Char} {exponent : Option Exponent}
    (h : WellFormed ⟨whole, true, fraction, exponent⟩) (rest : List Char) :
    ∃ found behind, read? (spelling ⟨whole, true, fraction, exponent⟩ ++ rest) =
        some (found, behind) ∧
      (spelling ⟨whole, true, fraction, exponent⟩).length ≤ found.spelling.length := by
  cases exponent with
  | none =>
    have hspelling : spelling ⟨whole, true, fraction, none⟩ ++ rest =
        whole ++ '.' :: (fraction ++ rest) := by
      simp [spelling]
    have hfront := digitsAtFront_append h.fraction rest
    rw [hspelling, read?_point h.whole (h.nonempty.imp_right fun hne => by simp [hfront, hne]),
      hfront]
    exact ⟨_, _, rfl, by simp [spelling]⟩
  | some e =>
    have he := h.exponent e rfl
    have hspelling : spelling ⟨whole, true, fraction, some e⟩ ++ rest =
        whole ++ '.' :: (fraction ++ (e.spelling ++ rest)) := by
      simp [spelling]
    obtain ⟨hfront, hafter⟩ := span_digits h.fraction (he.head?_spelling rest).1
    rw [hspelling, read?_point h.whole (by rw [hfront]; exact h.nonempty), hfront, hafter,
      Exponent.read?_append he]
    exact ⟨_, _, rfl, by simp [spelling, Exponent.spelling]⟩

private theorem exists_read?_pointless {whole : List Char} {exponent : Option Exponent}
    (h : WellFormed ⟨whole, false, [], exponent⟩) (rest : List Char) :
    ∃ found behind, read? (spelling ⟨whole, false, [], exponent⟩ ++ rest) = some (found, behind) ∧
      (spelling ⟨whole, false, [], exponent⟩).length ≤ found.spelling.length := by
  have hne : whole ≠ [] := h.nonempty.resolve_right fun hf => hf rfl
  cases exponent with
  | none =>
    -- more digits may follow, and then a point
    have hspelling : spelling ⟨whole, false, [], none⟩ ++ rest =
        (whole ++ digitsAtFront rest) ++ afterDigits rest := by
      simp [spelling]
    have hdigits : AllDigits (whole ++ digitsAtFront rest) :=
      List.forall_mem_append.2 ⟨h.whole, allDigits_digitsAtFront rest⟩
    have hdigitsNe : whole ++ digitsAtFront rest ≠ [] := by simp [hne]
    rw [hspelling]
    by_cases hp : ∃ t, afterDigits rest = '.' :: t
    · obtain ⟨t, ht⟩ := hp
      rw [ht, read?_point hdigits (.inl hdigitsNe)]
      exact ⟨_, _, rfl, by simp [spelling]⟩
    · rw [read?_pointless hdigits hdigitsNe (head?_afterDigits rest) (not_exists.1 hp)]
      exact ⟨_, _, rfl, by simp [spelling]⟩
  | some e =>
    have he := h.exponent e rfl
    have hspelling : spelling ⟨whole, false, [], some e⟩ ++ rest =
        whole ++ (e.spelling ++ rest) := by
      simp [spelling]
    obtain ⟨hd, hp⟩ := he.head?_spelling rest
    rw [hspelling, read?_pointless h.whole hne hd hp, Exponent.read?_append he]
    exact ⟨_, _, rfl, by simp [spelling, Exponent.spelling]⟩

theorem exists_read? {l : Literal} (h : l.WellFormed) {s : List Char} (hs : l.spelling <+: s) :
    ∃ found behind, read? s = some (found, behind) ∧
      l.spelling.length ≤ found.spelling.length := by
  obtain ⟨rest, rfl⟩ := hs
  obtain ⟨whole, point, fraction, exponent⟩ := l
  cases point with
  | true => exact exists_read?_point h rest
  | false =>
    obtain rfl : fraction = [] := h.point rfl
    exact exists_read?_pointless h rest

private theorem eq_of_spelling {l l' : Literal} (h : l.WellFormed) (h' : l'.WellFormed)
    (hs : l.spelling = l'.spelling) : l = l' := by
  have hread := read?_spelling h ends_nil
  have hread' := read?_spelling h' ends_nil
  rw [hs, hread'] at hread
  exact (Prod.mk.inj (Option.some.inj hread)).1.symm

/-- The longest of the literals that a text begins with is read. -/
theorem read?_eq_some_iff (s rest : List Char) (l : Literal) :
    read? s = some (l, rest) ↔ l.WellFormed ∧ s = l.spelling ++ rest ∧
      ∀ other : Literal, other.WellFormed → other.spelling <+: s →
        other.spelling.length ≤ l.spelling.length := by
  constructor
  · intro h
    refine ⟨wellFormed_of_read? h, (spelling_of_read? h).1, fun other ho hs => ?_⟩
    obtain ⟨found, behind, hread, hle⟩ := exists_read? ho hs
    rw [h] at hread
    cases hread
    exact hle
  · rintro ⟨h, rfl, hlongest⟩
    obtain ⟨found, behind, hread, hle⟩ := exists_read? h (List.prefix_append l.spelling rest)
    have hfound := wellFormed_of_read? hread
    have hs := (spelling_of_read? hread).1
    have hlength := hlongest found hfound ⟨behind, hs.symm⟩
    obtain ⟨hspelling, hbehind⟩ := List.append_inj hs (by omega)
    rw [hread, eq_of_spelling h hfound hspelling, hbehind]

end Literal

theorem Exponent.WellFormed.isBlank_of_mem_spelling {e : Exponent} (h : e.WellFormed) {c : Char}
    (hc : c ∈ e.spelling) : Text.isBlank c = false := by
  rw [Exponent.spelling, List.mem_cons, List.mem_append] at hc
  rcases hc with rfl | hsign | hdigit
  · rcases h.mark with hm | hm
    · rw [hm]
      decide
    · rw [hm]
      decide
  · rcases h.sign c (Option.mem_toList.1 hsign) with rfl | rfl
    · decide
    · decide
  · exact Text.isBlank_of_isDigit (h.digits c hdigit)

namespace Literal
theorem WellFormed.isBlank_of_mem_spelling {l : Literal} (h : l.WellFormed) {c : Char}
    (hc : c ∈ l.spelling) : Text.isBlank c = false := by
  rw [spelling, List.mem_append, List.mem_append] at hc
  rcases hc with (hwhole | hfraction) | hexponent
  · exact Text.isBlank_of_isDigit (h.whole c hwhole)
  · split at hfraction
    · rcases List.mem_cons.1 hfraction with rfl | hdigit
      · decide
      · exact Text.isBlank_of_isDigit (h.fraction c hdigit)
    · cases hfraction
  · cases he : l.exponent with
    | none =>
      rw [he] at hexponent
      cases hexponent
    | some e =>
      rw [he] at hexponent
      exact (h.exponent e he).isBlank_of_mem_spelling hexponent

theorem WellFormed.exists_spelling {l : Literal} (h : l.WellFormed) :
    ∃ c more, l.spelling = c :: more ∧ (c.isDigit = true ∨ c = '.') := by
  cases hw : l.whole with
  | cons c more =>
    exact ⟨c, _, by rw [spelling, hw]; rfl, .inl (h.whole c (by rw [hw]; exact List.mem_cons_self))⟩
  | nil =>
    have hp : l.point = true := by
      rw [← Bool.not_eq_false]
      intro hpoint
      exact (h.nonempty.resolve_left fun hn => hn hw) (h.point hpoint)
    exact ⟨'.', _, by rw [spelling, hw, hp]; rfl, .inr rfl⟩

end Literal
end Millwork.Decimal
