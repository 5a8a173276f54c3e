import Millwork.Proofs.Decimal.Spelling
import Millwork.Proofs.Note.Lines
import Millwork.Proofs.Note.Typing
import Millwork.Proofs.StyleKey
/-!
# Rule sets of notes

The style and the flag of an order call for a rule set, and in a note they are typed before that: a
style that reads as a measurement is written out again in inches, and a style that is a yes or a no is
written as a truth value. So a note calls for the rule set of the labelled order only if the letters and
digits of the style survive this.
-/
namespace Millwork

namespace Note
open Text

private theorem isWord_of_map_toLower {word : String} {s : List Char} (hw : 'ſ' ∉ word.toList)
    (h : s.map Char.toLower = word.toList) : isWord word s = true := by
  have hcaseless : s.map caseless = s.map Char.toLower := by
    refine List.map_congr_left fun c hc => if_neg ?_
    rintro rfl
    exact hw (h ▸ List.mem_map_of_mem hc)
  rw [isWord, hcaseless, h, beq_self_eq_true]

private theorem isSet_valueOf_of_isSet_text {flag : String} (h : (Value.text flag).isSet = true) :
    (valueOf flag.toList).isSet = true := by
  have hword : (isWord "yes" flag.toList || isWord "y" flag.toList) = true := by
    rw [Value.isSet, Bool.or_eq_true, beq_iff_eq, beq_iff_eq] at h
    rcases h with h | h
    · rw [isWord_of_map_toLower (by decide) h, Bool.true_or]
    · rw [isWord_of_map_toLower (by decide) h, Bool.or_true]
  rw [valueOf, if_pos hword]
  rfl

end Note

namespace Options
open Text Note

private theorem styleChars_cons {c d : Char} (h : c.toLower = d) (hd : 0x61 ≤ d.toNat ∧ d.toNat ≤ 0x7a)
    (rest : List Char) : styleChars (c :: rest) = d :: styleChars rest := by
  have hascii : c.toNat < 0x80 := by
    have hl := toNat_toLower c
    rw [h] at hl
    split at hl <;> omega
  have hstyle : isStyleChar d = true := (isStyleChar_iff d).2 (.inl hd)
  simp [styleChars_eq_flatMap, lowerChar, hascii, h, hstyle]

private theorem exists_isDigit_styleChars {style : List Char} (h : ∃ c ∈ style, c.isDigit = true) :
    ∃ c ∈ styleChars style, c.isDigit = true := by
  obtain ⟨c, hc, hd⟩ := h
  have hkept : (lower style).filter Char.isDigit = style.filter Char.isDigit :=
    filter_lower (fun d h => by rw [isDigit_iff] at h; omega) style
  have hm : c ∈ (lower style).filter Char.isDigit := by
    rw [hkept]
    exact List.mem_filter.2 ⟨hc, hd⟩
  exact ⟨c, List.mem_filter.2 ⟨(List.mem_filter.1 hm).1, by simp [isStyleChar, hd]⟩, hd⟩

private theorem styleChars_text {x : Float} (hi : x.isInf = false) (hn : x.isNaN = false) :
    styleChars (Decimal.text x).toList = (Decimal.text x).toList.filter Char.isDigit := by
  have hplain : ∀ c ∈ (Decimal.text x).toList, Decimal.IsPlainChar c :=
    fun _ => Decimal.isPlainChar_of_mem_text hi hn
  have hsmall : ∀ c ∈ (Decimal.text x).toList, IsSmall c.toNat := by
    intro c hc
    rcases hplain c hc with hd | rfl | rfl
    · exact isSmall_of_isStyleChar (by simp [isStyleChar, hd])
    · exact isSmall_of_lt (by decide) (by decide)
    · exact isSmall_of_lt (by decide) (by decide)
  rw [styleChars, lower_of_isSmall hsmall]
  refine List.filter_congr fun c hc => ?_
  rcases hplain c hc with hd | rfl | rfl
  · simp [isStyleChar, hd]
  · rfl
  · rfl

private theorem styleChars_text_of_isInf {x : Float} (hi : x.isInf = true) :
    styleChars (Decimal.text x).toList = "infinity".toList ∧
      (Decimal.text x).toList.filter Char.isDigit = [] := by
  rw [Decimal.text, if_pos hi]
  split <;> decide

private theorem styleOf_number {x : Float} {style : List Char} (hs : ∃ c ∈ style, c.isDigit = true) :
    styleOf (some (.number x)) = styleChars style ↔ (Value.number x).isBlank = false ∧
      (Decimal.text x).toList.filter Char.isDigit = styleChars style := by
  obtain ⟨d, hd, hdigit⟩ := exists_isDigit_styleChars hs
  cases hb : (Value.number x).isBlank with
  | true =>
    have hnone : styleOf (some (.number x)) = [] := by simp [styleOf, hb]
    rw [hnone]
    refine iff_of_false (fun h => ?_) (fun h => by cases h.1)
    rw [← h] at hd
    cases hd
  | false =>
    have hsome : styleOf (some (.number x)) = styleChars (Decimal.text x).toList := by
      simp [styleOf, hb, styleChars, Value.toText]
    obtain ⟨-, hn⟩ : (x == 0.0) = false ∧ x.isNaN = false := by
      simpa [Value.isBlank] using hb
    rw [hsome]
    cases hi : x.isInf with
    | false => rw [styleChars_text hi hn, eq_self_iff_true, true_and]
    | true =>
      obtain ⟨hword, hnone⟩ := styleChars_text_of_isInf hi
      rw [hword, hnone]
      refine iff_of_false (fun h => ?_) (fun h => ?_)
      · have hletters : "infinity".toList.any Char.isDigit = false := by decide
        exact absurd hdigit (List.any_eq_false.1 hletters d (h ▸ hd))
      · rw [← h.2] at hd
        cases hd

/-- Typing a style in a note keeps its letters and digits: it is not typed as a flag, and if it is typed
as a number, that is not blank and its digits are the letters and digits of the style. -/
def KeptByTyping (style : String) : Prop :=
  (∀ on, Note.valueOf style.toList ≠ .bool on) ∧
    ∀ x, Note.valueOf style.toList = .number x → (Value.number x).isBlank = false ∧
      (Decimal.text x).toList.filter Char.isDigit = styleChars style.toList

private theorem styleOf_valueOf_eq_iff (style : String) :
    styleOf (some (Note.valueOf style.toList)) = styleChars style.toList ↔ KeptByTyping style := by
  unfold KeptByTyping
  rcases valueOf_cases style.toList with ⟨hv, c, rest, hs, hc⟩ | ⟨hv, c, rest, hs, hc⟩ |
    ⟨hm, x, hv⟩ | hv
  · have htrue : styleOf (some (.bool true)) = "true".toList := by decide
    rw [hv, hs, styleChars_cons hc (by decide), htrue]
    simp
  · have hfalse : styleOf (some (.bool false)) = [] := rfl
    rw [hv, hs, styleChars_cons hc (by decide), hfalse]
    simp
  · rw [hv, styleOf_number (exists_isDigit_of_looksMeasured hm)]
    simp
  · rw [hv, String.ofList_toList, styleOf_text]
    simp

private theorem keyFor_of_isSet {order : Order} {flag : Value}
    (hf : order.labelled? "Metal Framed Hinged Door?" = some flag) (h : flag.isSet = true) :
    ({} : Options).keyFor order = "hingedmetaldoors" := by
  rw [keyFor, hf, if_pos (by simpa using h)]
  decide

private theorem keyFor_of_not_isSet {order : Order} {flag : Value}
    (hf : order.labelled? "Metal Framed Hinged Door?" = some flag) (h : flag.isSet = false) :
    ({} : Options).keyFor order =
      String.ofList (styleOf (order.labelled? "Select Door Style")) ++ "doors" := by
  rw [keyFor, hf, if_neg (by simp [h])]
  apply RuleSet.keyOf_of_isSmall
  intro c hc
  rw [String.toList_append, String.toList_ofList] at hc
  rcases List.mem_append.1 hc with hstyle | hsuffix
  · exact isSmall_of_isStyleChar (isStyleChar_of_mem_styleOf hstyle)
  · have hdoors : "doors".toList.all isStyleChar = true := by decide
    exact isSmall_of_isStyleChar (List.all_eq_true.1 hdoors c hsuffix)

private theorem labelled?_read {style flag : String} (hs : IsOneLine style.toList)
    (hf : IsOneLine flag.toList) :
    let order := Note.read (ofFields [("Select Door Style", style), ("Metal Framed Hinged Door?", flag)])
    order.labelled? "Select Door Style" = some (Note.valueOf (trim style.toList)) ∧
      order.labelled? "Metal Framed Hinged Door?" = some (Note.valueOf (trim flag.toList)) := by
  have hlabels : (∀ label ∈ ["Select Door Style", "Metal Framed Hinged Door?"],
      ':' ∉ label.toList ∧ IsOneLine label.toList) := by
    decide
  have hstyle : Label.keyString "Select Door Style" = "select_door_style" ∧
      String.ofList (Label.key (trim "Select Door Style".toList)) = "select_door_style" := by
    decide
  have hflag : Label.keyString "Metal Framed Hinged Door?" = "metal_framed_hinged_door" ∧
      String.ofList (Label.key (trim "Metal Framed Hinged Door?".toList)) =
        "metal_framed_hinged_door" := by
    decide
  obtain ⟨hlabel, hother⟩ := (List.forall_mem_cons.1 hlabels).imp_right List.forall_mem_singleton.1
  have hread := fields_ofFields (List.cons_ne_nil ("Select Door Style", style)
    [("Metal Framed Hinged Door?", flag)])
    (List.forall_mem_cons.2 ⟨hlabel.1, List.forall_mem_singleton.2 hother.1⟩)
    (List.forall_mem_cons.2 ⟨⟨hlabel.2, hs⟩, List.forall_mem_singleton.2 ⟨hother.2, hf⟩⟩)
  rw [List.map_cons, List.map_cons, List.map_nil, hstyle.2, hflag.2] at hread
  simp only [Order.labelled?, hstyle.1, hflag.1, Note.read, hread]
  simp [Order.ofList, Order.get?_insert]

private theorem ofFields_two (label style other flag : String) :
    ofFields [(label, style), (other, flag)] =
      label ++ ": " ++ style ++ ("\n" ++ other ++ ": ") ++ flag := by
  rw [← String.toList_inj]
  simp [ofFields]

private theorem keyOfStyle_inj (a b : List Char) :
    String.ofList a ++ "doors" = String.ofList b ++ "doors" ↔ a = b := by
  rw [← String.toList_inj]
  simp

private theorem keyFor_eq_iff {typed plain : Order} {style flag : String}
    (hts : typed.labelled? "Select Door Style" = some (Note.valueOf style.toList))
    (htf : typed.labelled? "Metal Framed Hinged Door?" = some (Note.valueOf flag.toList))
    (hps : plain.labelled? "Select Door Style" = some (.text style))
    (hpf : plain.labelled? "Metal Framed Hinged Door?" = some (.text flag)) :
    ({} : Options).keyFor typed = ({} : Options).keyFor plain ↔
      (Value.text flag).isSet = true ∨
      ((Note.valueOf flag.toList).isSet = true ∧ styleChars style.toList = "hingedmetal".toList) ∨
      ((Note.valueOf flag.toList).isSet = false ∧ KeptByTyping style) := by
  cases hset : (Value.text flag).isSet with
  | true =>
    rw [keyFor_of_isSet htf (isSet_valueOf_of_isSet_text hset), keyFor_of_isSet hpf hset]
    simp
  | false =>
    rw [keyFor_of_not_isSet hpf hset, hps, styleOf_text]
    cases hon : (Note.valueOf flag.toList).isSet with
    | true =>
      have hkey : "hingedmetaldoors" = String.ofList "hingedmetal".toList ++ "doors" := by
        decide
      rw [keyFor_of_isSet htf hon, hkey, keyOfStyle_inj, eq_comm]
      simp
    | false =>
      rw [keyFor_of_not_isSet htf hon, hts, keyOfStyle_inj, styleOf_valueOf_eq_iff]
      simp

/-- A note calls for the rule set of the labelled order with the same style and flag exactly if the flag
is set in both, or it is set in neither and typing keeps the style, or it is set in the note alone and
the style spells the key of the flag all the same. -/
theorem keyFor_note_eq_iff {style flag : String} (hs : trimString style = style)
    (hf : trimString flag = flag) (hsl : IsOneLine style.toList) (hfl : IsOneLine flag.toList) :
    ({} : Options).keyFor
          (Note.read ("Select Door Style: " ++ style ++ "\nMetal Framed Hinged Door?: " ++ flag)) =
        ({} : Options).keyFor ((Order.empty.insert "Select Door Style" (.text style)).insert
          "Metal Framed Hinged Door?" (.text flag)) ↔
      (Value.text flag).isSet = true ∨
      ((Note.valueOf flag.toList).isSet = true ∧ styleChars style.toList = "hingedmetal".toList) ∨
      ((Note.valueOf flag.toList).isSet = false ∧ KeptByTyping style) := by
  have hnote : "Select Door Style: " ++ style ++ "\nMetal Framed Hinged Door?: " ++ flag =
      ofFields [("Select Door Style", style), ("Metal Framed Hinged Door?", flag)] := by
    have hstyle : "Select Door Style: " = "Select Door Style" ++ ": " := by decide +kernel
    have hflag : "\nMetal Framed Hinged Door?: " = "\n" ++ "Metal Framed Hinged Door?" ++ ": " := by
      decide +kernel
    rw [ofFields_two, hstyle, hflag]
  obtain ⟨hnoteStyle, hnoteFlag⟩ := labelled?_read hsl hfl
  rw [toList_trimmed hs] at hnoteStyle
  rw [toList_trimmed hf] at hnoteFlag
  rw [hnote]
  apply keyFor_eq_iff hnoteStyle hnoteFlag
  · simp [Order.labelled?, Order.get?_insert]
  · simp [Order.labelled?, Order.get?_insert]

/-- Of sixty inches the digits are kept. -/
theorem keyFor_note_sixty :
    trimString "60\"" = "60\"" ∧ trimString "No" = "No" ∧ IsOneLine "60\"".toList ∧
      IsOneLine "No".toList ∧
      ({} : Options).keyFor
          (Note.read ("Select Door Style: " ++ "60\"" ++ "\nMetal Framed Hinged Door?: " ++ "No")) =
        ({} : Options).keyFor ((Order.empty.insert "Select Door Style" (.text "60\"")).insert
          "Metal Framed Hinged Door?" (.text "No")) := by
  have hs : trimString "60\"" = "60\"" := by decide +kernel
  have hf : trimString "No" = "No" := by decide +kernel
  have hsl : IsOneLine "60\"".toList := by decide +kernel
  have hfl : IsOneLine "No".toList := by decide +kernel
  have hvalue : Note.valueOf "60\"".toList = .number 60 := by decide +kernel
  refine ⟨hs, hf, hsl, hfl, (keyFor_note_eq_iff hs hf hsl hfl).2 (.inr (.inr ⟨?_, ?_, ?_⟩))⟩
  · decide +kernel
  · intro on hon
    rw [hvalue] at hon
    cases hon
  · intro x hx
    rw [hvalue] at hx
    cases hx
    decide +kernel

/-- Of twelve inches the unit is lost, which is a part of the style in the labelled order. -/
theorem keyFor_note_twelve_inches :
    trimString "12 in" = "12 in" ∧ trimString "No" = "No" ∧ IsOneLine "12 in".toList ∧
      IsOneLine "No".toList ∧
      ({} : Options).keyFor
          (Note.read ("Select Door Style: " ++ "12 in" ++ "\nMetal Framed Hinged Door?: " ++ "No")) =
        "12doors" ∧
      ({} : Options).keyFor ((Order.empty.insert "Select Door Style" (.text "12 in")).insert
          "Metal Framed Hinged Door?" (.text "No")) = "12indoors" := by
  decide +kernel

end Options
end Millwork
