import Millwork.Proofs.Text.Lower.Blank
/-!
# Small letters on the two sides of a border

A final sigma depends on the letters around it, but not across a character that is neither a letter with
case nor passed over in looking for one, such as a digit or a space. The texts on the two sides of such a
character are lower-cased apart.
-/
namespace Millwork.Text
variable {c : Char}

structure IsBorder (c : Char) : Prop where
  not_cased : isCased c = false
  not_ignorable : isCaseIgnorable c = false

theorem isBorder_space : IsBorder ' ' :=
  ⟨by decide +kernel, by decide +kernel⟩

theorem isBorder_of_isDigit (h : c.isDigit = true) : IsBorder c := by
  have hcode := (isDigit_iff c).1 h
  have hcased : (casedRanges.all fun range => 0x39 < range.1) = true := by decide
  have hignorable : (caseIgnorableRanges.all fun range => range.2 < 0x30 || 0x39 < range.1) = true := by
    decide +kernel
  constructor
  · rw [isCased, inRanges, List.any_eq_false]
    intro range hrange
    have := List.all_eq_true.1 hcased range hrange
    simp only [decide_eq_true_eq] at this
    simp only [Bool.and_eq_true, decide_eq_true_eq]
    omega
  · rw [isCaseIgnorable, inRanges, List.any_eq_false]
    intro range hrange
    have := List.all_eq_true.1 hignorable range hrange
    simp only [Bool.or_eq_true, decide_eq_true_eq] at this
    simp only [Bool.and_eq_true, decide_eq_true_eq]
    omega

theorem IsBorder.startsCased (h : IsBorder c) (s t : List Char) :
    startsCased (s ++ c :: t) = startsCased s := by
  have hc : (c :: t).dropWhile isCaseIgnorable = c :: t :=
    List.dropWhile_cons_of_neg (by simp [h.not_ignorable])
  rw [Text.startsCased, Text.startsCased, List.dropWhile_append, hc]
  cases hs : s.dropWhile isCaseIgnorable with
  | nil => simpa using h.not_cased
  | cons d s => rfl

private theorem IsBorder.lowerAfter_behind (h : IsBorder c) (s before between : List Char) :
    lowerAfter (between ++ c :: before) s = lowerAfter (between ++ [c]) s := by
  induction s generalizing between with
  | nil => rfl
  | cons d s ih =>
    rw [lowerAfter, lowerAfter, h.startsCased, h.startsCased, ← List.cons_append, ← List.cons_append, ih]

private theorem IsBorder.lowerAfter_append (h : IsBorder c) (before s t : List Char) :
    lowerAfter before (s ++ c :: t) =
      lowerAfter before s ++ lowerAfter (s.reverse ++ before) (c :: t) := by
  induction s generalizing before with
  | nil => rfl
  | cons d s ih =>
    rw [List.cons_append, lowerAfter, lowerAfter, h.startsCased, ih]
    simp

theorem lower_append_cons (h : IsBorder c) (s t : List Char) :
    lower (s ++ c :: t) = lower s ++ lower (c :: t) := by
  have hsigma : c ≠ 'Σ' := by
    rintro rfl
    exact absurd h.not_cased (by decide)
  have hfront : ∀ before, lowerAfter before (c :: t) = lowerChar c ++ lowerAfter [c] t := by
    intro before
    have hbehind := h.lowerAfter_behind t before []
    rw [List.nil_append, List.nil_append] at hbehind
    simp [lowerAfter, hsigma, hbehind]
  rw [lower, h.lowerAfter_append, lower, lower, hfront, hfront]

end Millwork.Text
