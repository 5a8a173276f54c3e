import Mathlib.Data.List.DropRight
import Millwork.Text.Blank
/-!
# Texts and the blanks around them

Trimming takes off the blanks around a text and nothing else.
-/
namespace Millwork.Text
def AllBlank (s : List Char) : Prop :=
  ∀ c ∈ s, isBlank c = true

theorem allBlank_takeWhile (s : List Char) : AllBlank (s.takeWhile isBlank) :=
  List.all_eq_true.1 List.all_takeWhile

theorem isDigit_iff (c : Char) : c.isDigit = true ↔ 0x30 ≤ c.toNat ∧ c.toNat ≤ 0x39 := by
  simp [Char.isDigit, UInt32.le_iff_toNat_le]

theorem isBlank_of_visible {c : Char} (h : 0x21 ≤ c.toNat ∧ c.toNat ≤ 0x7e) : isBlank c = false := by
  simp [isBlank, blankCodes]
  omega

theorem isBlank_of_isDigit {c : Char} (h : c.isDigit = true) : isBlank c = false := by
  rw [isDigit_iff] at h
  exact isBlank_of_visible (by omega)

theorem toList_trimmed {s : String} (h : trimString s = s) : trim s.toList = s.toList := by
  rw [← String.toList_inj, trimString, String.toList_ofList] at h
  exact h

theorem trim_eq (s : List Char) : trim s = (skipBlanks s).rdropWhile isBlank := rfl

theorem skipBlanks_skipBlanks (s : List Char) : skipBlanks (skipBlanks s) = skipBlanks s :=
  List.dropWhile_idempotent isBlank s

theorem trim_skipBlanks (s : List Char) : trim (skipBlanks s) = trim s := by
  rw [trim_eq, skipBlanks_skipBlanks, trim_eq]

theorem trim_cons_blank {c : Char} (hc : isBlank c = true) (s : List Char) : trim (c :: s) = trim s := by
  rw [trim_eq, skipBlanks, List.dropWhile_cons_of_pos hc]
  rfl

private theorem skipBlanks_append_cons {c : Char} (hc : isBlank c = false) (a b : List Char) :
    skipBlanks (a ++ c :: b) = skipBlanks a ++ c :: b := by
  have hb : (c :: b).dropWhile isBlank = c :: b := List.dropWhile_cons_of_neg (by simp [hc])
  rw [skipBlanks, List.dropWhile_append, hb, skipBlanks]
  split
  · rename_i he
    rw [List.isEmpty_iff.1 he, List.nil_append]
  · rfl

theorem rdropWhile_append_cons {c : Char} (hc : isBlank c = false) (a b : List Char) :
    (a ++ c :: b).rdropWhile isBlank = a ++ c :: b.rdropWhile isBlank := by
  have h := skipBlanks_append_cons hc b.reverse a.reverse
  rw [List.rdropWhile, List.reverse_append, List.reverse_cons, List.append_assoc,
    List.singleton_append, ← skipBlanks, h]
  simp [List.rdropWhile, skipBlanks]

theorem trim_append_cons {c : Char} (hc : isBlank c = false) (a b : List Char) :
    trim (a ++ c :: b) = skipBlanks a ++ c :: b.rdropWhile isBlank := by
  rw [trim_eq, skipBlanks_append_cons hc, rdropWhile_append_cons hc]

theorem trim_rdropWhile (s : List Char) : trim (s.rdropWhile isBlank) = trim s := by
  by_cases h : ∀ c ∈ s, isBlank c = true
  · rw [List.rdropWhile_eq_nil_iff.2 h, trim_eq, trim_eq, skipBlanks, skipBlanks,
      List.dropWhile_eq_nil_iff.2 h]
    rfl
  · obtain ⟨c, hm, hc⟩ : ∃ c ∈ s, isBlank c = false := by simpa using h
    obtain ⟨a, b, rfl⟩ := List.append_of_mem hm
    rw [rdropWhile_append_cons hc, trim_append_cons hc, trim_append_cons hc,
      List.rdropWhile_idempotent]

theorem skipBlanks_append {blanks : List Char} (h : AllBlank blanks) (s : List Char) :
    skipBlanks (blanks ++ s) = skipBlanks s :=
  List.dropWhile_append_of_pos h

private theorem rdropWhile_append {blanks : List Char} (h : AllBlank blanks) (s : List Char) :
    (s ++ blanks).rdropWhile isBlank = s.rdropWhile isBlank := by
  have hreverse : AllBlank blanks.reverse := fun c hc => h c (List.mem_reverse.1 hc)
  rw [List.rdropWhile, List.reverse_append, List.dropWhile_append_of_pos hreverse, List.rdropWhile]

theorem skipBlanks_eq_self {s : List Char} (h : s.head?.any isBlank = false) : skipBlanks s = s := by
  cases s with
  | nil => rfl
  | cons c s => exact List.dropWhile_cons_of_neg (by simpa using h)

theorem trim_surrounded {before s after : List Char} (hb : AllBlank before) (ha : AllBlank after)
    (h : ∀ c ∈ s, isBlank c = false) : trim (before ++ s ++ after) = s := by
  rw [trim_eq, List.append_assoc, skipBlanks_append hb]
  cases s with
  | nil =>
    rw [List.nil_append, skipBlanks, List.dropWhile_eq_nil_iff.2 ha]
    rfl
  | cons c s =>
    have hc : ¬isBlank c = true := by simp [h c List.mem_cons_self]
    rw [List.cons_append, skipBlanks, List.dropWhile_cons_of_neg hc, ← List.cons_append,
      rdropWhile_append ha, List.rdropWhile_eq_self_iff]
    intro hl
    rw [h _ (List.getLast_mem hl)]
    exact Bool.false_ne_true

theorem exists_surrounded (s : List Char) :
    ∃ before after, AllBlank before ∧ AllBlank after ∧ s = before ++ trim s ++ after := by
  refine ⟨s.takeWhile isBlank, (skipBlanks s).rtakeWhile isBlank, allBlank_takeWhile s,
    fun c => List.mem_rtakeWhile_imp, ?_⟩
  rw [trim_eq, List.append_assoc, List.rdropWhile_append_rtakeWhile, skipBlanks,
    List.takeWhile_append_dropWhile]

end Millwork.Text
