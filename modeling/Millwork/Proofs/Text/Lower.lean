import Mathlib.Data.List.Basic
import Millwork.Text.Lower
/-!
# Texts in small letters

Lower-casing leaves nothing that it would change: a text in small letters is its own small form.
-/
namespace Millwork.Text
def allCapitals : List CapitalRun :=
  ⟨0x41, 0x5a, 1, 32⟩ :: ⟨0x130, 0x130, 1, 0⟩ :: capitalRuns

def CapitalRun.small (run : CapitalRun) (code : Nat) : Nat :=
  (code + run.shift).toNat

private def CapitalRun.avoids (run other : CapitalRun) : Bool :=
  (run.small run.last).blt other.first || other.last.blt (run.small run.first) ||
    ((run.step == 2 || run.first == run.last) && other.step == 2 && run.small run.first != 0 &&
      (run.small run.first + other.first) % 2 == 1)

private theorem CapitalRun.not_contains_small {run other : CapitalRun} (h : run.avoids other = true)
    {code : Nat} (hc : run.contains code = true) : other.contains (run.small code) = false := by
  rw [← Bool.not_eq_true]
  intro ho
  simp only [CapitalRun.contains, Bool.and_eq_true, decide_eq_true_eq, beq_iff_eq] at hc ho
  simp only [CapitalRun.avoids, Bool.or_eq_true, Bool.and_eq_true, beq_iff_eq, bne_iff_ne,
    Nat.blt_eq] at h
  obtain ⟨⟨hfirst, hlast⟩, hstep⟩ := hc
  obtain ⟨⟨hfirst', hlast'⟩, hstep'⟩ := ho
  unfold CapitalRun.small at *
  obtain (hbelow | habove) | ⟨⟨⟨hspread, htwo⟩, hpos⟩, hodd⟩ := h
  · omega
  · omega
  · rw [htwo] at hstep'
    rcases hspread with heven | hsingle
    · rw [heven] at hstep
      omega
    · omega

private theorem avoids_of_mem {run other : CapitalRun} (h : run ∈ capitalRuns)
    (ho : other ∈ allCapitals) :
    run.avoids other = true := by
  have ha : (capitalRuns.all fun run => allCapitals.all run.avoids) = true := by decide +kernel
  exact List.all_eq_true.1 (List.all_eq_true.1 ha run h) other ho

private theorem contains_of_lt {run : CapitalRun} (h : run ∈ capitalRuns) {code : Nat}
    (hc : code < 0x80) :
    run.contains code = false := by
  have ha : (capitalRuns.all fun run => 0x80 ≤ run.first) = true := by decide
  have hle : 0x80 ≤ run.first := by simpa using List.all_eq_true.1 ha run h
  simp only [CapitalRun.contains, Bool.and_eq_false_iff, decide_eq_false_iff_not]
  omega

/-- No capital letter has this code point. -/
def IsSmall (code : Nat) : Prop :=
  ∀ run ∈ allCapitals, run.contains code = false

theorem isSmall_iff (code : Nat) : IsSmall code ↔
    ¬(0x41 ≤ code ∧ code ≤ 0x5a) ∧ code ≠ 0x130 ∧
      ∀ run ∈ capitalRuns, run.contains code = false := by
  have hone (first last shift) : (CapitalRun.mk first last 1 shift).contains code = false ↔
      ¬(first ≤ code ∧ code ≤ last) := by
    simp [CapitalRun.contains, Nat.mod_one]
  simp only [IsSmall, allCapitals, List.forall_mem_cons, hone]
  refine and_congr_right fun _ => and_congr_left fun _ => ?_
  omega

theorem isSmall_of_lt {code : Nat} (h : code < 0x80) (hc : ¬(0x41 ≤ code ∧ code ≤ 0x5a)) :
    IsSmall code :=
  (isSmall_iff code).2 ⟨hc, by omega, fun _ hm => contains_of_lt hm h⟩

theorem IsSmall.ne_sigma {c : Char} (h : IsSmall c.toNat) : c ≠ 'Σ' := by
  rintro rfl
  have hsigma : (allCapitals.any (·.contains 'Σ'.toNat)) = true := by decide
  obtain ⟨run, hm, hc⟩ := List.any_eq_true.1 hsigma
  rw [h run hm] at hc
  cases hc

theorem toNat_toLower (c : Char) :
    c.toLower.toNat = if 0x41 ≤ c.toNat ∧ c.toNat ≤ 0x5a then c.toNat + 32 else c.toNat := by
  have hv : c.val.toNat = c.toNat := rfl
  have hiff : (c.val ≥ 'A'.val ∧ c.val ≤ 'Z'.val) ↔ (0x41 ≤ c.toNat ∧ c.toNat ≤ 0x5a) := by
    simp [UInt32.le_iff_toNat_le]
  unfold Char.toLower
  split
  · rename_i h
    rw [if_pos (hiff.1 h)]
    show (c.val + ('a'.val - 'A'.val)).toNat = c.toNat + 32
    rw [UInt32.toNat_add, hv]
    have := (hiff.1 h).2
    simp
    omega
  · rename_i h
    rw [if_neg (mt hiff.2 h)]

theorem map_toLower_of {t : List Char} (h : ∀ c ∈ t, ¬(0x41 ≤ c.toNat ∧ c.toNat ≤ 0x5a)) :
    t.map Char.toLower = t := by
  have hid : t.map Char.toLower = t.map id := by
    apply List.map_congr_left
    intro c hc
    apply Char.toNat_inj.1
    rw [toNat_toLower, if_neg (h c hc)]
    rfl
  rw [hid, List.map_id]

theorem lowerChar_of_isSmall {c : Char} (h : IsSmall c.toNat) : lowerChar c = [c] := by
  obtain ⟨hascii, hdot, hruns⟩ := (isSmall_iff c.toNat).1 h
  unfold lowerChar
  split
  · have hl : c.toLower.toNat = c.toNat := by rw [toNat_toLower, if_neg hascii]
    rw [Char.toNat_inj.1 hl]
  · have hne : c ≠ 'İ' := by
      rintro rfl
      exact hdot rfl
    have hnone : capitalRuns.find? (·.contains c.toNat) = none := by simpa using hruns
    simp only [hne, if_false, hnone]

/-- A code point that is no character stands for the null character. -/
theorem toNat_ofNat (code : Nat) :
    (Char.ofNat code).toNat = code ∨ (Char.ofNat code).toNat = 0 := by
  by_cases h : code.isValidChar
  · rw [Char.ofNat, dif_pos h]
    exact .inl rfl
  · rw [Char.ofNat, dif_neg h]
    exact .inr rfl

private theorem isSmall_toNat_ofNat {code : Nat} (h : IsSmall code) :
    IsSmall (Char.ofNat code).toNat := by
  rcases toNat_ofNat code with hcode | hnull
  · rwa [hcode]
  · rw [hnull]
    exact isSmall_of_lt (by decide) (by decide)

private theorem isSmall_of_mem_lowerChar {c d : Char} (h : d ∈ lowerChar c) : IsSmall d.toNat := by
  unfold lowerChar at h
  split at h
  · rw [List.mem_singleton.1 h]
    have hl := toNat_toLower c
    apply isSmall_of_lt
    · split at hl <;> omega
    · split at hl <;> omega
  · rename_i hascii
    split at h
    · have hdot : (['i', '\u0307'].all fun d => allCapitals.all fun run => !run.contains d.toNat) = true := by
        decide
      intro run hm
      simpa using List.all_eq_true.1 (List.all_eq_true.1 hdot d h) run hm
    · rename_i hdot
      split at h
      · rename_i run hrun
        rw [List.mem_singleton.1 h]
        apply isSmall_toNat_ofNat
        have hcapital : run.contains c.toNat = true := by simpa using List.find?_some hrun
        intro other ho
        exact CapitalRun.not_contains_small (avoids_of_mem (List.mem_of_find?_eq_some hrun) ho)
          hcapital
      · rename_i hnone
        rw [List.mem_singleton.1 h]
        have hne : c.toNat ≠ 0x130 := fun he => hdot (Char.toNat_inj.1 he)
        exact (isSmall_iff c.toNat).2 ⟨by omega, hne, by simpa using hnone⟩

private theorem lowerAfter_of_isSmall {s : List Char} (h : ∀ c ∈ s, IsSmall c.toNat)
    (before : List Char) :
    lowerAfter before s = s := by
  induction s generalizing before with
  | nil => rfl
  | cons c s ih =>
    have hc : IsSmall c.toNat := h c List.mem_cons_self
    have hs : ∀ d ∈ s, IsSmall d.toNat := fun d hd => h d (List.mem_cons_of_mem c hd)
    simp only [lowerAfter, hc.ne_sigma, decide_false, Bool.false_and, Bool.false_eq_true, if_false,
      lowerChar_of_isSmall hc, ih hs, List.singleton_append]

private theorem isSmall_of_mem_lowerAfter {before s : List Char} {d : Char}
    (h : d ∈ lowerAfter before s) :
    IsSmall d.toNat := by
  induction s generalizing before with
  | nil => cases h
  | cons c s ih =>
    rw [lowerAfter, List.mem_append] at h
    rcases h with hc | hs
    · split at hc
      · rw [List.mem_singleton.1 hc]
        have hfinal : lowerChar 'ς' = ['ς'] := by decide
        exact isSmall_of_mem_lowerChar (c := 'ς') (by rw [hfinal]; exact List.mem_singleton_self _)
      · exact isSmall_of_mem_lowerChar hc
    · exact ih hs

theorem lower_of_isSmall {s : List Char} (h : ∀ c ∈ s, IsSmall c.toNat) : lower s = s :=
  lowerAfter_of_isSmall h []

private theorem isSmall_of_mem_lower {s : List Char} {d : Char} (h : d ∈ lower s) : IsSmall d.toNat :=
  isSmall_of_mem_lowerAfter h

@[simp] theorem lower_lower (s : List Char) : lower (lower s) = lower s :=
  lower_of_isSmall fun _ hd => isSmall_of_mem_lower hd

@[simp] theorem lowerString_lowerString (s : String) :
    lowerString (lowerString s) = lowerString s := by
  rw [lowerString, lowerString, String.toList_ofList, lower_lower]

theorem lowerChar_ne_nil (c : Char) : lowerChar c ≠ [] := by
  unfold lowerChar
  split
  · simp
  · split
    · simp
    · split <;> simp

theorem lower_eq_nil_iff (s : List Char) : lower s = [] ↔ s = [] := by
  cases s with
  | nil => exact iff_of_true rfl rfl
  | cons c s =>
    refine iff_of_false ?_ (List.cons_ne_nil c s)
    rw [lower, lowerAfter, List.append_eq_nil_iff]
    rintro ⟨hc, -⟩
    split at hc
    · cases hc
    · exact lowerChar_ne_nil c hc

private theorem small_ge_of_mem {run : CapitalRun} (h : run ∈ capitalRuns) {code : Nat}
    (hc : run.contains code = true) : 0x61 ≤ run.small code := by
  have ha : (capitalRuns.all fun run => 0x61 ≤ run.small run.first) = true := by decide
  have hfirst : 0x61 ≤ run.small run.first := by simpa using List.all_eq_true.1 ha run h
  simp only [CapitalRun.contains, Bool.and_eq_true, decide_eq_true_eq] at hc
  unfold CapitalRun.small at *
  omega

private theorem eq_of_mem_lowerChar {c d : Char} (h : d ∈ lowerChar c) (hpos : 0 < d.toNat)
    (hlt : d.toNat < 0x41) : c = d := by
  unfold lowerChar at h
  split at h
  · have hd := List.mem_singleton.1 h
    have hl := toNat_toLower c
    rw [← hd] at hl
    apply Char.toNat_inj.1
    split at hl <;> omega
  · split at h
    · have hdot : (['i', '\u0307'].all fun d => 0x41 ≤ d.toNat) = true := by decide
      have hge : 0x41 ≤ d.toNat := by simpa using List.all_eq_true.1 hdot d h
      omega
    · split at h
      · rename_i run hrun
        have hcapital : run.contains c.toNat = true := by simpa using List.find?_some hrun
        have hsmall := small_ge_of_mem (List.mem_of_find?_eq_some hrun) hcapital
        have hd : d = Char.ofNat (run.small c.toNat) := List.mem_singleton.1 h
        have hn := toNat_ofNat (run.small c.toNat)
        rw [← hd] at hn
        omega
      · exact (List.mem_singleton.1 h).symm

section Filter
variable {p : Char → Bool} (hp : ∀ d, p d = true → 0 < d.toNat ∧ d.toNat < 0x41)
include hp

private theorem filter_lowerChar (c : Char) : (lowerChar c).filter p = [c].filter p := by
  cases hc : p c with
  | true =>
    obtain ⟨hpos, hlt⟩ := hp c hc
    rw [lowerChar_of_isSmall (isSmall_of_lt (by omega) (by omega))]
  | false =>
    have hnone : ∀ d ∈ lowerChar c, ¬p d = true := by
      intro d hd hpd
      obtain ⟨hpos, hlt⟩ := hp d hpd
      rw [eq_of_mem_lowerChar hd hpos hlt, hpd] at hc
      cases hc
    rw [List.filter_eq_nil_iff.2 hnone, List.filter_singleton, hc]
    rfl

theorem filter_lower (s : List Char) : (lower s).filter p = s.filter p := by
  suffices hafter : ∀ before, (lowerAfter before s).filter p = s.filter p from hafter []
  induction s with
  | nil => exact fun _ => rfl
  | cons c s ih =>
    intro before
    rw [lowerAfter, List.filter_append, ih, ← List.singleton_append (l := s), List.filter_append]
    congr 1
    split
    · rename_i hfinal
      have hsigma : c = 'Σ' := by
        simp only [Bool.and_eq_true, decide_eq_true_eq] at hfinal
        exact hfinal.1.1
      have hone (d : Char) (hd : 0x41 ≤ d.toNat) : [d].filter p = [] := by
        refine List.filter_eq_nil_iff.2 fun e he hpe => ?_
        rw [List.mem_singleton.1 he] at hpe
        have := (hp d hpe).2
        omega
      rw [hsigma, hone 'ς' (by decide), hone 'Σ' (by decide)]
    · exact filter_lowerChar hp c

end Filter

end Millwork.Text
