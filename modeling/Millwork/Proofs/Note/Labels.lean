import Millwork.Calculation.Options
import Millwork.Proofs.Note.Lines
import Millwork.Proofs.Text.Lower.Letters
/-!
# Keys of labels

The key of a label has small letters of ASCII, digits and underscores, and is its own key. The case of the
label's letters is lost in it, and so is what the label's words are separated with. A field of an order that
is looked up by a label is the one that a note has behind that label.
-/
namespace Millwork
namespace Label
open Text

private def keyAfter (inRun : Bool) (s : List Char) : List Char :=
  (underscored inRun s).filter isKeyChar

private theorem keyAfter_of_sameLetter {s t : List Char} (h : List.Forall₂ SameLetter s t)
    (inRun : Bool) :
    keyAfter inRun s = keyAfter inRun t := by
  have hfinal : isSeparator 'ς' = false ∧ isKeyChar 'ς' = false := by decide
  have hsigma : isSeparator 'σ' = false ∧ isKeyChar 'σ' = false := by decide
  unfold keyAfter
  induction h generalizing inRun with
  | nil => rfl
  | @cons c d s t hcd hst ih =>
    rcases hcd with rfl | ⟨rfl, rfl⟩
    · simp only [underscored]
      split
      · split
        · exact ih true
        · simp [List.filter_cons, ih true]
      · simp [List.filter_cons, ih false]
    · simp [underscored, hfinal, hsigma, ih false]

private theorem key_eq (s : List Char) : key s = keyAfter false (s.flatMap lowerChar) :=
  keyAfter_of_sameLetter (forall₂_lower s) false

private theorem key_congr_case {s t : List Char} (h : s.map Char.toLower = t.map Char.toLower) :
    key s = key t := by
  rw [key_eq, key_eq, flatMap_lowerChar_congr h]

private theorem isSeparator_iff (c : Char) :
    isSeparator c = true ↔ isBlank c = true ∨ c = '/' ∨ c = '-' := by
  simp [isSeparator, or_assoc]

/-- One or more blanks, slashes or hyphens. -/
def IsRun (run : List Char) : Prop :=
  run ≠ [] ∧ ∀ c ∈ run, isBlank c = true ∨ c = '/' ∨ c = '-'

instance (run : List Char) : Decidable (IsRun run) :=
  decidable_of_iff (run ≠ [] ∧ run.all isSeparator = true) (by
    simp only [IsRun, List.all_eq_true, isSeparator_iff])

private theorem isSmall_of_isSeparator {c : Char} (h : isSeparator c = true) : IsSmall c.toNat := by
  rcases (isSeparator_iff c).1 h with hblank | rfl | rfl
  · exact isSmall_of_isBlank hblank
  · exact isSmall_of_lt (by decide) (by decide)
  · exact isSmall_of_lt (by decide) (by decide)

private theorem underscored_separators {run : List Char} (h : ∀ c ∈ run, isSeparator c = true)
    (s : List Char) : underscored true (run ++ s) = underscored true s := by
  induction run with
  | nil => rfl
  | cons c run ih =>
    rw [List.cons_append, underscored, if_pos (h c List.mem_cons_self), if_pos rfl]
    exact ih fun d hd => h d (List.mem_cons_of_mem c hd)

private theorem underscored_run {run : List Char} (h : IsRun run) (inRun : Bool) (s : List Char) :
    underscored inRun (run ++ s) = (if inRun then [] else ['_']) ++ underscored true s := by
  obtain ⟨hne, hrun⟩ := h
  simp only [← isSeparator_iff] at hrun
  obtain ⟨c, run, rfl⟩ := List.exists_cons_of_ne_nil hne
  obtain ⟨hc, hmore⟩ := List.forall_mem_cons.1 hrun
  rw [List.cons_append, underscored, if_pos hc, underscored_separators hmore]
  cases inRun with
  | true => rfl
  | false => rfl

private theorem underscored_append_congr {s t : List Char}
    (h : ∀ inRun, underscored inRun s = underscored inRun t)
    (before : List Char) (inRun : Bool) :
    underscored inRun (before ++ s) = underscored inRun (before ++ t) := by
  induction before generalizing inRun with
  | nil => exact h inRun
  | cons c before ih => simp only [List.cons_append, underscored, ih]

private theorem flatMap_lowerChar_run {run : List Char} (h : IsRun run) :
    run.flatMap lowerChar = run := by
  have hsmall : ∀ c ∈ run, lowerChar c = [c] := fun c hc =>
    lowerChar_of_isSmall (isSmall_of_isSeparator ((isSeparator_iff c).2 (h.2 c hc)))
  rw [List.flatMap_congr hsmall]
  simp

private theorem key_congr_run {run other : List Char} (h : IsRun run) (ho : IsRun other)
    (before after : List Char) : key (before ++ run ++ after) = key (before ++ other ++ after) := by
  have hcongr (s : List Char) (inRun : Bool) :
      underscored inRun (run ++ s) = underscored inRun (other ++ s) := by
    rw [underscored_run h, underscored_run ho]
  simp only [key_eq, keyAfter, List.append_assoc, List.flatMap_append, flatMap_lowerChar_run h,
    flatMap_lowerChar_run ho]
  rw [underscored_append_congr (hcongr _)]

private theorem isKeyChar_iff (c : Char) :
    isKeyChar c = true ↔ ('a' ≤ c ∧ c ≤ 'z') ∨ ('0' ≤ c ∧ c ≤ '9') ∨ c = '_' := by
  simp [isKeyChar, Char.isDigit, Char.le_def, or_assoc]

private theorem toNat_of_isKeyChar {c : Char} (h : isKeyChar c = true) :
    (0x61 ≤ c.toNat ∧ c.toNat ≤ 0x7a) ∨ (0x30 ≤ c.toNat ∧ c.toNat ≤ 0x39) ∨ c.toNat = 0x5f := by
  rcases (isKeyChar_iff c).1 h with hletter | hdigit | rfl
  · exact .inl hletter
  · exact .inr (.inl hdigit)
  · exact .inr (.inr rfl)

private theorem isKeyChar_of_mem_key {s : List Char} {c : Char} (h : c ∈ key s) : isKeyChar c = true :=
  (List.mem_filter.1 h).2

private theorem isSeparator_of_isKeyChar {c : Char} (h : isKeyChar c = true) :
    isSeparator c = false := by
  have hc := toNat_of_isKeyChar h
  rw [← Bool.not_eq_true, isSeparator_iff]
  intro hs
  rcases hs with hblank | rfl | rfl
  · rw [isBlank_of_visible (by omega)] at hblank
    cases hblank
  · exact absurd h (by decide)
  · exact absurd h (by decide)

private theorem underscored_of_isKeyChar {s : List Char} (h : ∀ c ∈ s, isKeyChar c = true) :
    underscored false s = s := by
  induction s with
  | nil => rfl
  | cons c s ih =>
    obtain ⟨hc, hs⟩ := List.forall_mem_cons.1 h
    rw [underscored, isSeparator_of_isKeyChar hc, if_neg Bool.false_ne_true, ih hs]

private theorem key_of_isKeyChar {s : List Char} (h : ∀ c ∈ s, isKeyChar c = true) : key s = s := by
  have hsmall : ∀ c ∈ s, IsSmall c.toNat := by
    intro c hc
    have := toNat_of_isKeyChar (h c hc)
    exact isSmall_of_lt (by omega) (by omega)
  rw [key, lower_of_isSmall hsmall, underscored_of_isKeyChar h, List.filter_eq_self.2 h]

private theorem key_key (s : List Char) : key (key s) = key s :=
  key_of_isKeyChar fun _ => isKeyChar_of_mem_key

private theorem labelled?_read_line {label value : String} (hc : ':' ∉ label.toList)
    (hl : IsOneLine label.toList) (ht : trimString label = label) (hv : IsOneLine value.toList) :
    (Note.read (label ++ ": " ++ value)).labelled? label = some (Note.valueOf (trim value.toList)) := by
  have hnote : label ++ ": " ++ value = Note.ofFields [(label, value)] := by
    rw [← String.toList_inj]
    simp [Note.ofFields]
  have hfields := Note.fields_ofFields (List.cons_ne_nil (label, value) [])
    (List.forall_mem_singleton.2 hc) (List.forall_mem_singleton.2 ⟨hl, hv⟩)
  rw [List.map_singleton, toList_trimmed ht, ← keyString] at hfields
  rw [hnote]
  simp only [Order.labelled?, Note.read, hfields]
  by_cases hkey : keyString label = label
  · simp [Order.ofList, Order.get?_insert, hkey]
  · simp [Order.ofList, Order.get?_insert, hkey]

/-- The key of a label does not depend on the case of its letters, nor on which separators stand between
its words, and is its own key. So a label finds the value that a note has behind it. -/
theorem keyString_canonical (label : String) :
    (∀ c ∈ (keyString label).toList, ('a' ≤ c ∧ c ≤ 'z') ∨ ('0' ≤ c ∧ c ≤ '9') ∨ c = '_') ∧
      keyString (keyString label) = keyString label ∧
      (∀ other : String, other.toList.map Char.toLower = label.toList.map Char.toLower →
        keyString other = keyString label) ∧
      (∀ before run other after, label.toList = before ++ run ++ after → IsRun run → IsRun other →
        keyString (String.ofList (before ++ other ++ after)) = keyString label) ∧
      (':' ∉ label.toList → IsOneLine label.toList → trimString label = label →
        ∀ value : String, IsOneLine value.toList →
          (Note.read (label ++ ": " ++ value)).labelled? label =
            some (Note.valueOf (trim value.toList))) := by
  refine ⟨?chars, ?idempotent, ?case, ?run, ?lookup⟩
  case chars =>
    intro c hc
    rw [keyString, String.toList_ofList] at hc
    exact (isKeyChar_iff c).1 (isKeyChar_of_mem_key hc)
  case idempotent =>
    rw [keyString, keyString, String.toList_ofList, key_key]
  case case =>
    intro other h
    rw [keyString, keyString, key_congr_case h]
  case run =>
    intro before run other after hlabel hrun hother
    rw [keyString, keyString, String.toList_ofList, hlabel, key_congr_run hother hrun]
  case lookup =>
    intro hc hl ht value hv
    exact labelled?_read_line hc hl ht hv

/-- A slash stands for the hyphen and its blanks, and a Kelvin sign for a `k`. -/
theorem keyString_canonical_kick :
    (∀ c ∈ (keyString "Door - \u212aick").toList,
        ('a' ≤ c ∧ c ≤ 'z') ∨ ('0' ≤ c ∧ c ≤ '9') ∨ c = '_') ∧
      keyString "door_kick" = "door_kick" ∧
      keyString "DOOR - \u212aicK" = "door_kick" ∧
      keyString "Door/\u212aick" = "door_kick" ∧
      (Note.read ("Door - \u212aick" ++ ": " ++ " 10 in")).labelled? "Door - \u212aick" =
        some (.number 10) := by
  obtain ⟨hchars, hsame, hcase, hrun, hlookup⟩ := keyString_canonical "Door - \u212aick"
  have hkey : keyString "Door - \u212aick" = "door_kick" := by decide +kernel
  have hvalue : Note.valueOf (trim " 10 in".toList) = .number 10 := by decide +kernel
  rw [hkey] at hsame hcase hrun
  refine ⟨hchars, hsame, hcase _ (by decide +kernel), ?_, ?_⟩
  · exact hrun "Door".toList " - ".toList "/".toList "\u212aick".toList (by decide +kernel)
      (by decide +kernel) (by decide +kernel)
  · rw [← hvalue]
    exact hlookup (by decide +kernel) (by decide +kernel) (by decide +kernel) _ (by decide +kernel)

end Label
end Millwork
