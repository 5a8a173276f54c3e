import Millwork.Note
import Millwork.Proofs.Text.Blank
/-!
# Labelled lines

A note that has a label, a colon and a value on each line is read as one field for each line, under the
key of the label and with what the value reads as once it is trimmed.
-/
namespace Millwork
namespace Text
def IsOneLine (s : List Char) : Prop :=
  '\n' ∉ s ∧ '\r' ∉ s

instance (s : List Char) : Decidable (IsOneLine s) :=
  inferInstanceAs (Decidable ('\n' ∉ s ∧ '\r' ∉ s))

private theorem IsOneLine.of_cons {c : Char} {s : List Char} (h : IsOneLine (c :: s)) :
    c ≠ '\n' ∧ c ≠ '\r' ∧ IsOneLine s := by
  obtain ⟨hn, hr⟩ := h
  rw [List.mem_cons, not_or] at hn hr
  exact ⟨Ne.symm hn.1, Ne.symm hr.1, hn.2, hr.2⟩

private theorem lines_cons {c : Char} (hn : c ≠ '\n') (hr : c ≠ '\r') {s line : List Char}
    {more : List (List Char)} (h : lines s = line :: more) :
    lines (c :: s) = (c :: line) :: more := by
  rw [lines]
  · simp only [hn, hr, decide_false, Bool.or_self, Bool.false_eq_true, if_false, h]
  · exact fun _ hc => absurd hc hr

private theorem lines_of_isOneLine {s : List Char} (h : IsOneLine s) : lines s = [s] := by
  induction s with
  | nil => rfl
  | cons c s ih =>
    obtain ⟨hn, hr, hs⟩ := h.of_cons
    exact lines_cons hn hr (ih hs)

private theorem lines_append_break {s : List Char} (h : IsOneLine s) (rest : List Char) :
    lines (s ++ '\n' :: rest) = s :: lines rest := by
  induction s with
  | nil => simp [lines]
  | cons c s ih =>
    obtain ⟨hn, hr, hs⟩ := h.of_cons
    exact lines_cons hn hr (ih hs)

private theorem lines_intercalate {text : List (List Char)} (hne : text ≠ [])
    (h : ∀ line ∈ text, IsOneLine line) : lines (['\n'].intercalate text) = text := by
  induction text with
  | nil => exact absurd rfl hne
  | cons line text ih =>
    have hline : IsOneLine line := h line List.mem_cons_self
    cases text with
    | nil => rw [List.intercalate_singleton, lines_of_isOneLine hline]
    | cons next text =>
      have hrest := ih (List.cons_ne_nil next text) fun other hm =>
        h other (List.mem_cons_of_mem line hm)
      rw [List.intercalate_cons_cons, List.append_assoc, List.singleton_append,
        lines_append_break hline, hrest]

end Text

namespace Note
open Text

private theorem field?_trim {label : List Char} (h : ':' ∉ label) (value : List Char) :
    field? (trim (label ++ ':' :: value)) =
      some (String.ofList (Label.key (trim label)), valueOf (trim value)) := by
  have hskipped : ∀ c ∈ skipBlanks label, (c != ':') = true := by
    intro c hm
    have hne : c ≠ ':' := fun hc => h (hc ▸ (List.dropWhile_suffix isBlank).subset hm)
    simpa using hne
  rw [trim_append_cons (by decide), field?, List.takeWhile_append_of_pos hskipped,
    List.dropWhile_append_of_pos hskipped]
  simp [trim_skipBlanks, trim_rdropWhile]

def ofFields (fields : List (String × String)) : String :=
  "\n".intercalate (fields.map fun field => field.1 ++ ": " ++ field.2)

example : ofFields [("Height", "7 ft"), ("Width", "30 in")] = "Height: 7 ft\nWidth: 30 in" := by
  decide

/-- Such a note is read as these fields, under the keys of their labels. -/
theorem fields_ofFields {fields : List (String × String)} (hne : fields ≠ [])
    (hc : ∀ field ∈ fields, ':' ∉ field.1.toList)
    (hl : ∀ field ∈ fields, IsOneLine field.1.toList ∧ IsOneLine field.2.toList) :
    (trimmedLines (ofFields fields).toList).filterMap field? = fields.map fun field =>
      (String.ofList (Label.key (trim field.1.toList)), valueOf (trim field.2.toList)) := by
  have hlines : ∀ line ∈ (fields.map fun field => field.1 ++ ": " ++ field.2).map String.toList,
      IsOneLine line := by
    intro line hm
    rw [List.map_map] at hm
    obtain ⟨field, hf, rfl⟩ := List.mem_map.1 hm
    obtain ⟨hlabel, hvalue⟩ := hl field hf
    unfold IsOneLine
    simp [hlabel.1, hlabel.2, hvalue.1, hvalue.2]
  have hbreak : "\n".toList = ['\n'] := rfl
  rw [trimmedLines, ofFields, String.toList_intercalate, hbreak,
    lines_intercalate (by simpa using hne) hlines, List.map_map, List.map_map, List.filterMap_map,
    List.filterMap_eq_map_iff_forall_eq_some]
  intro field hf
  have hline : (field.1 ++ ": " ++ field.2).toList = field.1.toList ++ ':' :: ' ' :: field.2.toList := by
    simp
  show field? (trim (field.1 ++ ": " ++ field.2).toList) = _
  rw [hline, field?_trim (hc field hf), trim_cons_blank (by decide)]

end Note
end Millwork
