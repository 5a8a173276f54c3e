import Mathlib.Data.List.Forall2
import Mathlib.Data.List.Infix
import Millwork.Proofs.Text.Lower.Blank
/-!
# Small letters one by one

A text is lower-cased character by character, except that a capital sigma has two small letters to choose
from. And what ASCII has in the small text is, but for two letters, there in the text itself, in letters of
some case: the `k` may come from a Kelvin sign, and the `i` in front of a dot from an `İ`.
-/
namespace Millwork.Text

def SameLetter (c d : Char) : Prop :=
  c = d ∨ (c = 'ς' ∧ d = 'σ')

theorem forall₂_lower (s : List Char) : List.Forall₂ SameLetter (lower s) (s.flatMap lowerChar) := by
  have hsame : ∀ piece, List.Forall₂ SameLetter piece piece :=
    fun piece => List.forall₂_same.2 fun c _ => .inl rfl
  suffices hafter : ∀ before, List.Forall₂ SameLetter (lowerAfter before s) (s.flatMap lowerChar) from
    hafter []
  induction s with
  | nil => exact fun _ => .nil
  | cons c s ih =>
    intro before
    rw [lowerAfter, List.flatMap_cons]
    apply List.rel_append _ (ih (c :: before))
    split
    · rename_i hfinal
      have hsigma : c = 'Σ' := by
        simp only [Bool.and_eq_true, decide_eq_true_eq] at hfinal
        exact hfinal.1.1
      have hsmall : lowerChar 'Σ' = ['σ'] := by decide
      rw [hsigma, hsmall]
      exact .cons (.inr ⟨rfl, rfl⟩) .nil
    · exact hsame (lowerChar c)

theorem filter_of_sameLetter {s t : List Char} (h : List.Forall₂ SameLetter s t) {p : Char → Bool}
    (hfinal : p 'ς' = false) (hsigma : p 'σ' = false) : s.filter p = t.filter p := by
  induction h with
  | nil => rfl
  | @cons c d s t hcd _ ih =>
    rcases hcd with rfl | ⟨rfl, rfl⟩
    · rw [List.filter_cons, List.filter_cons, ih]
    · simp [hfinal, hsigma, ih]

theorem lowerChar_toLower (c : Char) : lowerChar c.toLower = lowerChar c := by
  have hl := toNat_toLower c
  by_cases hascii : c.toNat < 0x80
  · have hsmall : IsSmall c.toLower.toNat := by
      apply isSmall_of_lt
      · split at hl <;> omega
      · split at hl <;> omega
    rw [lowerChar_of_isSmall hsmall, lowerChar, if_pos hascii]
  · rw [if_neg (by omega)] at hl
    rw [Char.toNat_inj.1 hl]

theorem flatMap_lowerChar_congr {s t : List Char} (h : s.map Char.toLower = t.map Char.toLower) :
    s.flatMap lowerChar = t.flatMap lowerChar := by
  have hcase : ∀ u : List Char, u.flatMap lowerChar = (u.map Char.toLower).flatMap lowerChar := by
    intro u
    simp [List.flatMap_map, lowerChar_toLower]
  rw [hcase, h, ← hcase]

def IsKept (c : Char) : Prop :=
  isBlank c = true ∨ (0 < c.toNat ∧ c.toNat < 0x80 ∧ c ≠ 'k')

private theorem not_isKept_dot : ¬IsKept '\u0307' := by
  intro h
  rcases h with hblank | ⟨-, hascii, -⟩
  · exact absurd hblank (by decide)
  · exact absurd hascii (by decide)

private theorem not_isKept_small {run : CapitalRun} (h : run ∈ capitalRuns) {code : Nat}
    (hc : run.contains code = true) : ¬IsKept (Char.ofNat (run.small code)) := by
  have ha : (capitalRuns.all fun run =>
      0x80 ≤ run.small run.first || (run.first == run.last && run.small run.first == 'k'.toNat)) = true := by
    decide
  have hor := List.all_eq_true.1 ha run h
  simp only [Bool.or_eq_true, Bool.and_eq_true, decide_eq_true_eq, beq_iff_eq] at hor
  simp only [CapitalRun.contains, Bool.and_eq_true, decide_eq_true_eq] at hc
  intro hkept
  rcases hkept with hblank | ⟨hpos, hascii, hne⟩
  · rw [small_not_blank h (by simp [CapitalRun.contains, hc])] at hblank
    cases hblank
  · have hcode : (Char.ofNat (run.small code)).toNat = run.small code := by
      rcases toNat_ofNat (run.small code) with hcode | hnull
      · exact hcode
      · omega
    rw [hcode] at hascii
    rcases hor with hhigh | ⟨hsingle, hk⟩
    · unfold CapitalRun.small at hascii hhigh
      omega
    · obtain rfl : code = run.first := by omega
      apply hne
      rw [hk]
      rfl

private theorem lowerChar_cases (d : Char) :
    (∃ e, lowerChar d = [e] ∧ (IsKept e → d.toLower = e)) ∨ lowerChar d = ['i', '\u0307'] := by
  unfold lowerChar
  split
  · exact .inl ⟨d.toLower, rfl, fun _ => rfl⟩
  · split
    · exact .inr rfl
    · refine .inl ?_
      split
      · rename_i run hrun
        have hcapital : run.contains d.toNat = true := by simpa using List.find?_some hrun
        refine ⟨_, rfl, fun hkept => ?_⟩
        exact absurd hkept (not_isKept_small (List.mem_of_find?_eq_some hrun) hcapital)
      · rename_i hascii _ _
        have hl := toNat_toLower d
        rw [if_neg (by omega)] at hl
        exact ⟨d, rfl, fun _ => Char.toNat_inj.1 hl⟩

private theorem lowerAfter_cons_cases (before : List Char) (d : Char) (s : List Char) :
    (∃ e, lowerAfter before (d :: s) = e :: lowerAfter (d :: before) s ∧ (IsKept e → d.toLower = e)) ∨
      lowerAfter before (d :: s) = 'i' :: '\u0307' :: lowerAfter (d :: before) s := by
  rw [lowerAfter]
  split
  · refine .inl ⟨'ς', rfl, fun hkept => ?_⟩
    rcases hkept with hblank | ⟨-, hascii, -⟩
    · exact absurd hblank (by decide)
    · exact absurd hascii (by decide)
  · rcases lowerChar_cases d with ⟨e, he, hkept⟩ | hdot
    · exact .inl ⟨e, by rw [he]; rfl, hkept⟩
    · exact .inr (by rw [hdot]; rfl)

section Kept
variable {w : List Char} (hw : ∀ c ∈ w, IsKept c) (hlast : w.getLast? ≠ some 'i')
include hw hlast

private theorem exists_of_lowerAfter_eq_append {before s rest : List Char}
    (h : lowerAfter before s = w ++ rest) :
    ∃ front back, s = front ++ back ∧ front.map Char.toLower = w ∧
      lowerAfter (front.reverse ++ before) back = rest := by
  induction w generalizing before s with
  | nil => exact ⟨[], s, rfl, rfl, h⟩
  | cons c w ih =>
    have hkept : ∀ e ∈ w, IsKept e := fun e he => hw e (List.mem_cons_of_mem c he)
    cases s with
    | nil => cases h
    | cons d s =>
      rcases lowerAfter_cons_cases before d s with ⟨e, he, hsame⟩ | hdot
      · rw [he, List.cons_append, List.cons.injEq] at h
        have hne : w.getLast? ≠ some 'i' := by
          intro hi
          apply hlast
          rw [List.getLast?_cons, hi]
          rfl
        obtain ⟨front, back, hs, hfront, hback⟩ := ih hkept hne h.2
        refine ⟨d :: front, back, by rw [hs]; rfl, ?_, by simpa using hback⟩
        rw [List.map_cons, hfront, hsame (h.1 ▸ hw c List.mem_cons_self), h.1]
      · -- the dot would have to be kept, or the `i` be the last of what is kept
        rw [hdot, List.cons_append, List.cons.injEq] at h
        cases w with
        | nil => exact absurd (congrArg some h.1.symm) hlast
        | cons e w =>
          have he : '\u0307' = e := (List.cons.inj h.2).1
          exact absurd (he ▸ hkept e List.mem_cons_self) not_isKept_dot

theorem isInfix_map_toLower {s : List Char} (h : w <:+: lower s) : w <:+: s.map Char.toLower := by
  suffices hafter : ∀ before, w <:+: lowerAfter before s → w <:+: s.map Char.toLower from hafter [] h
  clear h
  induction s with
  | nil => exact fun _ => id
  | cons d s ih =>
    intro before h
    have hfront : w <+: lowerAfter before (d :: s) → w <:+: (d :: s).map Char.toLower := by
      rintro ⟨rest, hrest⟩
      obtain ⟨front, back, hs, hw', -⟩ := exists_of_lowerAfter_eq_append hw hlast hrest.symm
      rw [hs, List.map_append, hw']
      exact (List.prefix_append w _).isInfix
    have hbehind : w <:+: lowerAfter (d :: before) s → w <:+: (d :: s).map Char.toLower :=
      fun hs => (ih _ hs).trans (List.suffix_cons _ _).isInfix
    rcases lowerAfter_cons_cases before d s with ⟨e, he, -⟩ | hdot
    · rw [he, List.infix_cons_iff, ← he] at h
      exact h.elim hfront hbehind
    · rw [hdot, List.infix_cons_iff, ← hdot, List.infix_cons_iff] at h
      rcases h with h | h | h
      · exact hfront h
      · rcases List.prefix_cons_iff.1 h with hnil | ⟨t, ht, -⟩
        · rw [hnil]
          exact List.nil_infix
        · exact absurd (hw _ (by rw [ht]; exact List.mem_cons_self)) not_isKept_dot
      · exact hbehind h

end Kept

theorem map_toLower_eq_lower {s : List Char} (hw : ∀ c ∈ lower s, IsKept c)
    (hlast : (lower s).getLast? ≠ some 'i') : s.map Char.toLower = lower s := by
  obtain ⟨front, back, hs, hfront, hback⟩ :=
    exists_of_lowerAfter_eq_append hw hlast (List.append_nil (lower s)).symm
  have hnone : back = [] := by
    cases back with
    | nil => rfl
    | cons d back =>
      rcases lowerAfter_cons_cases (front.reverse ++ []) d back with ⟨e, he, -⟩ | hdot
      · rw [he] at hback
        cases hback
      · rw [hdot] at hback
        cases hback
  rw [hnone, List.append_nil] at hs
  rwa [hs] at hfront ⊢

end Millwork.Text
