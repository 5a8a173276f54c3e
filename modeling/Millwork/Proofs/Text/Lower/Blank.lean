import Millwork.Proofs.Text.Blank
import Millwork.Proofs.Text.Lower
/-!
# Small letters and blanks

Lower-casing neither makes nor loses a blank, so a trimmed text stays trimmed, and a text of ASCII
characters and blanks is lower-cased character by character.
-/
namespace Millwork.Text

theorem isSmall_of_isBlank {c : Char} (h : isBlank c = true) : IsSmall c.toNat := by
  have ha : (blankCodes.all fun code => allCapitals.all fun run => !run.contains code) = true := by
    decide +kernel
  have hmem : c.toNat ∈ blankCodes := by simpa [isBlank] using h
  intro run hrun
  simpa using List.all_eq_true.1 (List.all_eq_true.1 ha _ hmem) run hrun

theorem small_not_blank {run : CapitalRun} (h : run ∈ capitalRuns) {code : Nat}
    (hc : run.contains code = true) : isBlank (Char.ofNat (run.small code)) = false := by
  have ha : (capitalRuns.all fun run => blankCodes.all fun blank =>
      blank.blt (run.small run.first) || (run.small run.last).blt blank) = true := by
    decide +kernel
  rcases toNat_ofNat (run.small code) with hcode | hnull
  · rw [isBlank, hcode, ← Bool.not_eq_true, List.contains_iff_mem]
    intro hblank
    have hor := List.all_eq_true.1 (List.all_eq_true.1 ha run h) _ hblank
    simp only [CapitalRun.contains, Bool.and_eq_true, decide_eq_true_eq] at hc
    simp only [Bool.or_eq_true, Nat.blt_eq] at hor
    unfold CapitalRun.small at hor
    omega
  · rw [isBlank, hnull]
    decide

private theorem isBlank_of_mem_lowerChar {c d : Char} (hc : isBlank c = false) (h : d ∈ lowerChar c) :
    isBlank d = false := by
  unfold lowerChar at h
  split at h
  · rename_i hascii
    have hl := toNat_toLower c
    rw [List.mem_singleton.1 h]
    split at hl
    · exact isBlank_of_visible (by omega)
    · rwa [Char.toNat_inj.1 hl]
  · split at h
    · have hdot : (['i', '\u0307'].all fun d => !isBlank d) = true := by decide
      simpa using List.all_eq_true.1 hdot d h
    · split at h
      · rename_i run hrun
        have hcapital : run.contains c.toNat = true := by simpa using List.find?_some hrun
        rw [List.mem_singleton.1 h]
        exact small_not_blank (List.mem_of_find?_eq_some hrun) hcapital
      · rwa [List.mem_singleton.1 h]

private theorem lowerAfter_cons (before : List Char) (c : Char) (rest : List Char) :
    ∃ piece, piece ≠ [] ∧ (isBlank c = false → ∀ d ∈ piece, isBlank d = false) ∧
      lowerAfter before (c :: rest) = piece ++ lowerAfter (c :: before) rest := by
  rw [lowerAfter]
  split
  · refine ⟨['ς'], by simp, ?_, rfl⟩
    intro _ d hd
    rw [List.mem_singleton.1 hd]
    decide
  · exact ⟨lowerChar c, lowerChar_ne_nil c, fun hc d hd => isBlank_of_mem_lowerChar hc hd, rfl⟩

private theorem head?_lower {s : List Char} (h : s.head?.any isBlank = false) :
    (lower s).head?.any isBlank = false := by
  cases s with
  | nil => rfl
  | cons c s =>
    obtain ⟨piece, hne, hblank, he⟩ := lowerAfter_cons [] c s
    obtain ⟨d, piece, rfl⟩ := List.exists_cons_of_ne_nil hne
    rw [lower, he]
    simpa using hblank (by simpa using h) d List.mem_cons_self

private theorem getLast?_lowerAfter {s : List Char} (before : List Char)
    (h : s.getLast?.any isBlank = false) : (lowerAfter before s).getLast?.any isBlank = false := by
  induction s generalizing before with
  | nil => rfl
  | cons c s ih =>
    obtain ⟨piece, hne, hblank, he⟩ := lowerAfter_cons before c s
    rw [he]
    cases s with
    | nil =>
      obtain ⟨init, d, rfl⟩ := List.eq_nil_or_concat piece |>.resolve_left hne
      have hd := hblank (by simpa using h) d (by simp)
      simpa [lowerAfter] using hd
    | cons d s =>
      obtain ⟨more, hmore, -, hs⟩ := lowerAfter_cons (c :: before) d s
      have hlast := ih (c :: before) (by simpa using h)
      have hne' : lowerAfter (c :: before) (d :: s) ≠ [] := by
        rw [hs]
        exact List.append_ne_nil_of_left_ne_nil hmore _
      rwa [List.getLast?_append_of_ne_nil _ hne']

private theorem trim_trim (s : List Char) : trim (trim s) = trim s := by
  rw [trim_eq s, trim_rdropWhile, trim_skipBlanks, ← trim_eq]

theorem trim_eq_self_iff (s : List Char) :
    trim s = s ↔ s.head?.any isBlank = false ∧ s.getLast?.any isBlank = false := by
  have hskip : skipBlanks s = s ↔ s.head?.any isBlank = false := by
    cases s with
    | nil => simp [skipBlanks]
    | cons c s => simp [skipBlanks]
  have hdrop : s.rdropWhile isBlank = s ↔ s.getLast?.any isBlank = false := by
    rw [List.rdropWhile_eq_self_iff]
    cases s using List.reverseRecOn with
    | nil => simp
    | append_singleton s c => simp
  rw [← hskip, ← hdrop, trim_eq]
  constructor
  · intro h
    have hlength : s.length ≤ (skipBlanks s).length :=
      (congrArg List.length h).ge.trans (List.rdropWhile_prefix isBlank _).length_le
    have hs : skipBlanks s = s := (List.dropWhile_suffix isBlank).eq_of_length_le hlength
    rw [hs] at h
    exact ⟨hs, h⟩
  · rintro ⟨hs, hr⟩
    rw [hs, hr]

theorem trim_lower_trim (s : List Char) : trim (lower (trim s)) = lower (trim s) := by
  obtain ⟨hhead, hlast⟩ := (trim_eq_self_iff (trim s)).1 (trim_trim s)
  exact (trim_eq_self_iff _).2 ⟨head?_lower hhead, getLast?_lowerAfter [] hlast⟩

theorem lower_trim_eq_self {s : List Char} (hsmall : ∀ c ∈ s, IsSmall c.toNat)
    (hhead : s.head?.any isBlank = false) (hlast : s.getLast?.any isBlank = false) :
    lower (trim s) = s := by
  rw [(trim_eq_self_iff s).2 ⟨hhead, hlast⟩, lower_of_isSmall hsmall]

private theorem lowerChar_of_ascii_or_blank {c : Char} (h : c.toNat < 0x80 ∨ isBlank c = true) :
    lowerChar c = [c.toLower] ∧ c ≠ 'Σ' := by
  rcases h with hascii | hblank
  · refine ⟨by rw [lowerChar, if_pos hascii], ?_⟩
    rintro rfl
    exact absurd hascii (by decide)
  · have hsmall := isSmall_of_isBlank hblank
    have hl := toNat_toLower c
    rw [if_neg ((isSmall_iff c.toNat).1 hsmall).1] at hl
    exact ⟨by rw [lowerChar_of_isSmall hsmall, Char.toNat_inj.1 hl], hsmall.ne_sigma⟩

theorem lower_eq_map {s : List Char} (h : ∀ c ∈ s, c.toNat < 0x80 ∨ isBlank c = true) :
    lower s = s.map Char.toLower := by
  suffices hafter : ∀ before, lowerAfter before s = s.map Char.toLower from hafter []
  induction s with
  | nil => simp [lowerAfter]
  | cons c s ih =>
    intro before
    obtain ⟨hc, hsigma⟩ := lowerChar_of_ascii_or_blank (h c List.mem_cons_self)
    have hs := ih (fun d hd => h d (List.mem_cons_of_mem c hd)) (c :: before)
    simp [lowerAfter, hsigma, hc, hs]

end Millwork.Text
