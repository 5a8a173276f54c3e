import Millwork.Proofs.Measurement.Sum
/-!
# Fractions counted and fractions cut out

Fractions are counted in the whole measurement and cut out of what is left of it without the feet. Every
fraction that is counted is cut out, but cutting out feet may join the ends of a fraction that was not
counted. Both searches are followed from one run of digits to the next: no two runs are joined, as a run
of feet is cut out with the unit behind it.
-/
namespace Millwork.Measurement
open Text Decimal

@[elab_as_elim]
theorem run_induction {motive : List Char → Prop} (gap : ∀ s, NoDigit s → motive s)
    (run : ∀ gap run rest, NoDigit gap → IsRun run → EndsRun rest → motive rest →
      motive (gap ++ (run ++ rest))) (s : List Char) : motive s := by
  induction hn : s.length using Nat.strongRecOn generalizing s with
  | ind n ih =>
    have hgap : NoDigit (s.takeWhile fun c => !c.isDigit) := by
      intro c hc
      simpa using List.mem_takeWhile_imp hc
    have hs : s.takeWhile (fun c => !c.isDigit) ++ s.dropWhile (fun c => !c.isDigit) = s :=
      List.takeWhile_append_dropWhile
    rcases exists_run_or_endsRun (s.dropWhile fun c => !c.isDigit) with ⟨r, rest, hr, he, hd⟩ | hd
    · rw [hd] at hs
      have hlength := congrArg List.length hs
      have hpos := List.length_pos_iff.2 hr.nonempty
      simp only [List.length_append] at hlength
      rw [← hs]
      exact run _ r rest hgap hr he (ih rest.length (by omega) rest rfl)
    · -- what follows the gap starts with a digit, if there is anything
      have hnil : s.dropWhile (fun c => !c.isDigit) = [] := by
        cases hrest : s.dropWhile (fun c => !c.isDigit) with
        | nil => rfl
        | cons c rest =>
          have hc := List.head?_dropWhile_not (fun c => !c.isDigit) s
          rw [hrest] at hc hd
          simp_all [EndsRun]
      rw [hnil, List.append_nil] at hs
      rw [← hs]
      exact gap _ hgap

section Run
variable {run rest : List Char}

private theorem feet_passes_run (hr : IsRun run) (he : EndsRun rest)
    (h : feet.read (run ++ rest) = none) :
    feet.Passes run rest := by
  rw [feet_read_run hr he, Option.map_eq_none_iff] at h
  refine passes_run (fun r hrun => ?_) hr
  rw [feet_read_run hrun he, h]
  rfl

private theorem fraction_tokens_run (hr : IsRun run) (he : EndsRun rest) :
    fraction.tokens (run ++ rest) =
      ((fraction.read (run ++ rest)).map Prod.fst).toList ++ fraction.tokens rest := by
  cases h : fraction.read (run ++ rest) with
  | none =>
    have hpass : fraction.Passes run rest := by
      rw [fraction_read_run hr he] at h
      refine passes_run (fun r hrun => ?_) hr
      rw [fraction_read_run hrun he]
      simpa using h
    simpa using hpass.tokens
  | some found =>
    rw [Pattern.tokens_of_read h]
    rw [fraction_read_run hr he] at h
    obtain ⟨t, hslash, hmap⟩ := Option.bind_eq_some_iff.1 h
    obtain ⟨second, hinches, rfl⟩ := Option.map_eq_some_iff.1 hmap
    obtain ⟨bar, hbar, rfl⟩ := exists_of_slash hslash
    obtain ⟨den, mark, hden, hm, rfl, -⟩ := inches_read_eq_some_iff.1 hinches
    have hpass : fraction.Passes (den ++ mark) second.2 := by
      refine passes_token fraction_startsWithDigit hden (hm.noDigit (by decide)) fun r hrun => ?_
      rw [fraction_read_run hrun (hm.endsRun_inches second.2), slash_eq_none (.inl hm)]
      rfl
    rw [(fraction_startsWithDigit.passes_gap hbar.noDigit _).tokens, ← List.append_assoc, hpass.tokens]
    rfl

end Run

private theorem fraction_read_without {t rest : List Char} {f : Nat × Nat}
    (h : fraction.read t = some (f, rest)) :
    fraction.read (feet.without t) = some (f, feet.without rest) := by
  obtain ⟨n, d⟩ := f
  obtain ⟨run, bar, u, hrun, hbar, hu, rfl, rfl⟩ := fraction_read_eq_some_iff.1 h
  obtain ⟨den, mark, hden, hm, rfl, rfl⟩ := inches_read_eq_some_iff.1 hu
  have hspelled := Component.Spelled.fraction hrun hbar hden hm
  have htoken : ∀ behind, run ++ (bar ++ (den ++ (mark ++ behind))) =
      run ++ (bar ++ (den ++ mark)) ++ behind := by
    intro behind
    simp
  have hpass : feet.Passes (run ++ (bar ++ (den ++ mark))) rest := by
    simpa [Component.feet?] using feet_meets _ _ rest hspelled
  rw [htoken, hpass.without]
  simpa [Component.fraction?] using fraction_meets _ _ (feet.without rest) hspelled

/-- At some place that is not inside of a run of digits stand no feet and no fraction, but a fraction once
the feet behind that place are cut out. -/
def JoinsFraction (s : List Char) : Prop :=
  ∃ before t, s = before ++ t ∧ before.getLast?.any Char.isDigit = false ∧ feet.read t = none ∧
    fraction.read t = none ∧ (fraction.read (feet.without t)).isSome = true

private theorem endsRun_without {t : List Char} (h : EndsRun t) : EndsRun (feet.without t) := by
  cases t with
  | nil => simpa using h
  | cons c t => rwa [Pattern.without_of_not_read (feet_startsWithDigit _ h)]

private theorem not_endsRun_of_joined {t : List Char}
    (h : (fraction.read (feet.without t)).isSome = true) : ¬EndsRun t := by
  intro ht
  rw [fraction_startsWithDigit _ (endsRun_without ht)] at h
  cases h

private theorem not_joinsFraction_of_noDigit {s : List Char} (h : NoDigit s) : ¬JoinsFraction s := by
  rintro ⟨before, t, rfl, -, -, -, hread⟩
  apply not_endsRun_of_joined hread
  cases t with
  | nil => rfl
  | cons c t => simpa [EndsRun] using h c (by simp)

private theorem joinsFraction_run_iff {gap run rest : List Char} (hg : NoDigit gap) (hr : IsRun run)
    (he : EndsRun rest) : JoinsFraction (gap ++ (run ++ rest)) ↔
      (feet.read (run ++ rest) = none ∧ fraction.read (run ++ rest) = none ∧
        (fraction.read (feet.without (run ++ rest))).isSome = true) ∨ JoinsFraction rest := by
  constructor
  · rintro ⟨before, t, hs, hbefore, hfeet, hfraction, hread⟩
    obtain ⟨y, hy⟩ := exists_behind_gap hg (not_endsRun_of_joined hread) hs.symm
    obtain rfl : before = gap ++ y := by
      rw [← hy, ← List.append_assoc] at hs
      exact (List.append_cancel_right hs).symm
    rcases List.append_eq_append_iff.1 hy with ⟨r, rfl, rfl⟩ | ⟨z, rfl, rfl⟩
    · obtain rfl | ⟨init, c, rfl⟩ := List.eq_nil_or_concat y
      · exact .inl ⟨hfeet, hfraction, hread⟩
      · have hdigit := hr.digits c (by simp)
        simp [hdigit] at hbefore
    · cases z with
      | nil => exact absurd he (not_endsRun_of_joined hread)
      | cons c z =>
        refine .inr ⟨c :: z, t, rfl, ?_, hfeet, hfraction, hread⟩
        rwa [← List.append_assoc, List.getLast?_append_of_ne_nil _ (List.cons_ne_nil c z)] at hbefore
  · rintro (⟨hfeet, hfraction, hread⟩ | ⟨before, t, rfl, hbefore, hfeet, hfraction, hread⟩)
    · refine ⟨gap, run ++ rest, rfl, ?_, hfeet, hfraction, hread⟩
      obtain rfl | ⟨init, c, rfl⟩ := List.eq_nil_or_concat gap
      · rfl
      · simpa using hg c (by simp)
    · cases before with
      | nil => exact absurd he (not_endsRun_of_joined hread)
      | cons c before =>
        refine ⟨gap ++ run ++ c :: before, t, by simp, ?_, hfeet, hfraction, hread⟩
        rwa [List.getLast?_append_of_ne_nil _ (List.cons_ne_nil c before)]

private theorem fraction_tokens_feet {run rest behind : List Char} {n : Nat} (hr : IsRun run)
    (he : EndsRun rest) (h : feet.read (run ++ rest) = some (n, behind)) :
    fraction.tokens (run ++ rest) = fraction.tokens rest ∧
      fraction.tokens (feet.without (run ++ rest)) = fraction.tokens (feet.without rest) := by
  have hwithout := Pattern.without_of_read h
  rw [feet_read_run hr he] at h
  obtain ⟨after, hafter, hfound⟩ := Option.map_eq_some_iff.1 h
  obtain ⟨rfl, rfl⟩ := Prod.mk.inj hfound
  obtain ⟨mark, hm, rfl⟩ := feetMark_eq_some_iff.1 hafter
  have hgap := hm.noDigit (by decide)
  constructor
  · rw [fraction_tokens_run hr he, fraction_read_run hr he, slash_eq_none (.inr hm)]
    rfl
  · rw [hwithout, (feet_startsWithDigit.passes_gap hgap _).without,
      (fraction_startsWithDigit.passes_gap hgap _).tokens]

private theorem fraction_tokens_sublist (s : List Char) :
    (fraction.tokens s).Sublist (fraction.tokens (feet.without s)) ∧
      (fraction.tokens s = fraction.tokens (feet.without s) ↔ ¬JoinsFraction s) := by
  induction s using run_induction with
  | gap s hs =>
    rw [(feet_startsWithDigit.passes_gap hs []).without_eq_self]
    simpa using not_joinsFraction_of_noDigit hs
  | run gap run rest hg hr he ih =>
    obtain ⟨hsub, hiff⟩ := ih
    rw [joinsFraction_run_iff hg hr he, (feet_startsWithDigit.passes_gap hg _).without,
      (fraction_startsWithDigit.passes_gap hg _).tokens, (fraction_startsWithDigit.passes_gap hg _).tokens]
    cases hfeet : feet.read (run ++ rest) with
    | some found =>
      -- the run is cut out with its unit, and no fraction starts at it in either text
      obtain ⟨hcounted, hcut⟩ := fraction_tokens_feet hr he hfeet
      rw [hcounted, hcut]
      simpa using ⟨hsub, hiff⟩
    | none =>
      -- the run stays: what starts at it is the same in both texts, or joined in the second one
      have hwithout : feet.without (run ++ rest) = run ++ feet.without rest :=
        (feet_passes_run hr he hfeet).without
      have hcut := fraction_tokens_run hr (endsRun_without he)
      rw [← hwithout] at hcut
      rw [fraction_tokens_run hr he, hcut]
      cases hfraction : fraction.read (run ++ rest) with
      | some found =>
        rw [fraction_read_without hfraction]
        simpa using ⟨hsub, hiff⟩
      | none =>
        cases hjoined : fraction.read (feet.without (run ++ rest)) with
        | none => simpa using ⟨hsub, hiff⟩
        | some found =>
          have hlonger : fraction.tokens rest ≠ found.1 :: fraction.tokens (feet.without rest) := by
            intro heq
            have hlength := hsub.length_le
            rw [heq, List.length_cons] at hlength
            omega
          simpa [hlonger] using hsub.cons found.1

/-- Of a measurement every fraction that is counted is cut out, in the same order. The fractions that are
cut out are the ones that are counted exactly if cutting out the feet joins none. -/
theorem counted_eq_cut_iff (text : String) :
    let s := lower (trim text.toList)
    let counted := fraction.tokens s
    let cut := fraction.tokens (feet.without s)
    counted.Sublist cut ∧ (counted = cut ↔ ¬JoinsFraction s) :=
  fraction_tokens_sublist _

/-- The numbers on both sides of the two feet are cut out as a third of an inch, and nothing of it is
counted. -/
theorem counted_ne_cut_feet :
    let text := "1/2ft3in"
    let s := lower (trim text.toList)
    fraction.tokens s = [] ∧ fraction.tokens (feet.without s) = [(1, 3)] ∧ read text = .ok 24 := by
  decide +kernel

end Millwork.Measurement
