import Millwork.Calculation.Options
import Millwork.Proofs.Repository.Documents
import Millwork.Proofs.Repository.Key
import Millwork.Proofs.Text.Lower.Letters
/-!
# Keys of styles

Whatever text an order has for a style, the key that comes of it is safe in the name of a file: small letters
of ASCII and digits are all that is left of it. The case of its letters is lost, and so is what ASCII has
besides letters and digits. Only where the flag is read from the field of the style can such a change call for
another rule set, that of the flag.
-/
namespace Millwork

namespace Order

/-- The field that an order has for a label: the one of that name, or the one of its key. -/
def fieldFor (order : Order) (label : String) : String :=
  if order.contains label then label else Label.keyString label

private theorem contains_eq_isSome (order : Order) (name : String) :
    order.contains name = (order.get? name).isSome :=
  Std.ExtTreeMap.contains_eq_isSome_getElem?

private theorem labelled?_eq (order : Order) (label : String) :
    order.labelled? label = order.get? (order.fieldFor label) := by
  rw [labelled?, fieldFor, contains_eq_isSome]
  cases h : order.get? label with
  | none => rfl
  | some value => exact h.symm

section
variable {order : Order} {label : String} {old : Value} (h : order.labelled? label = some old)
include h

private theorem fieldFor_insert (value : Value) (other : String) :
    (order.insert (order.fieldFor label) value).fieldFor other = order.fieldFor other := by
  have hsome : order.contains (order.fieldFor label) = true := by
    rw [contains_eq_isSome, ← labelled?_eq, h]
    rfl
  have hcontains : (order.insert (order.fieldFor label) value).contains other = order.contains other := by
    rw [contains_eq_isSome, get?_insert]
    split
    · rename_i heq
      rw [← heq, hsome]
      rfl
    · rw [contains_eq_isSome]
  rw [fieldFor, hcontains, fieldFor]

private theorem labelled?_insert (value : Value) (other : String) :
    (order.insert (order.fieldFor label) value).labelled? other =
      if order.fieldFor label = order.fieldFor other then some value else order.labelled? other := by
  rw [labelled?_eq, fieldFor_insert h, get?_insert, ← labelled?_eq]

end

end Order

namespace Options
open Text

theorem isStyleChar_iff (c : Char) :
    isStyleChar c = true ↔ (0x61 ≤ c.toNat ∧ c.toNat ≤ 0x7a) ∨ (0x30 ≤ c.toNat ∧ c.toNat ≤ 0x39) := by
  simp [isStyleChar, isDigit_iff, Char.le_def, UInt32.le_iff_toNat_le]

private theorem isAlphanum_iff (c : Char) :
    c.isAlphanum = true ↔ (0x41 ≤ c.toNat ∧ c.toNat ≤ 0x5a) ∨ (0x61 ≤ c.toNat ∧ c.toNat ≤ 0x7a) ∨
      (0x30 ≤ c.toNat ∧ c.toNat ≤ 0x39) := by
  have hletters : c.isAlphanum = (decide ('A'.val ≤ c.val ∧ c.val ≤ 'Z'.val) ||
      (decide ('a'.val ≤ c.val) && decide (c.val ≤ 'z'.val)) || c.isDigit) := rfl
  simp [hletters, isDigit_iff, UInt32.le_iff_toNat_le, or_assoc]

theorem isSmall_of_isStyleChar {c : Char} (h : isStyleChar c = true) : IsSmall c.toNat := by
  rw [isStyleChar_iff] at h
  exact isSmall_of_lt (by omega) (by omega)

private theorem isAlphanum_of_isStyleChar {c : Char} (h : isStyleChar c = true) : c.isAlphanum = true :=
  (isAlphanum_iff c).2 (.inr ((isStyleChar_iff c).1 h))

private theorem isStyleChar_toLower (c : Char) : isStyleChar c.toLower = c.isAlphanum := by
  rw [Bool.eq_iff_iff, isStyleChar_iff, isAlphanum_iff, toNat_toLower]
  split <;> omega

private theorem isStyleChar_of_mem_keyOf {name : String}
    (h : ∀ c ∈ name.toList, c.isAlphanum = true) {c : Char}
    (hc : c ∈ (RuleSet.keyOf name).toList) : isStyleChar c = true := by
  have hascii : ∀ d ∈ name.toList, d.toNat < 0x80 ∨ isBlank d = true := by
    intro d hd
    have := (isAlphanum_iff d).1 (h d hd)
    omega
  rw [RuleSet.keyOf, lowerString, String.toList_ofList, lower_eq_map hascii] at hc
  obtain ⟨d, hd, rfl⟩ := List.mem_map.1 hc
  rw [isStyleChar_toLower, h d hd]

/-- The letters and digits of a style, as they stand in a key. -/
def styleChars (style : List Char) : List Char :=
  (lower style).filter isStyleChar

theorem styleOf_text (style : String) :
    styleOf (some (.text style)) = styleChars style.toList := by
  cases he : style.isEmpty with
  | true =>
    rw [String.isEmpty_iff.1 he]
    rfl
  | false => simp only [styleOf, Value.isBlank, he, Bool.false_eq_true, if_false, Value.toText, styleChars]

theorem isStyleChar_of_mem_styleOf {style : Option Value} {c : Char} (h : c ∈ styleOf style) :
    isStyleChar c = true := by
  cases style with
  | none => cases h
  | some value =>
    rw [styleOf] at h
    split at h
    · cases h
    · exact (List.mem_filter.1 h).2

private theorem isStyleChar_of_mem_keyFor {options : Options}
    (ho : ∀ c ∈ options.overrideKey.toList, c.isAlphanum = true)
    (hs : ∀ c ∈ options.familySuffix.toList, c.isAlphanum = true) {order : Order} {c : Char}
    (hc : c ∈ (options.keyFor order).toList) : isStyleChar c = true := by
  rw [keyFor] at hc
  split at hc
  · exact isStyleChar_of_mem_keyOf ho hc
  · refine isStyleChar_of_mem_keyOf (fun d hd => ?_) hc
    rw [String.toList_append, String.toList_ofList, List.mem_append] at hd
    rcases hd with hstyle | hsuffix
    · exact isAlphanum_of_isStyleChar (isStyleChar_of_mem_styleOf hstyle)
    · exact hs d hsuffix

/-- Whether a character is one of ASCII that is neither a letter nor a digit. -/
def isSpare (c : Char) : Bool :=
  c.toNat < 0x80 && !c.isAlphanum

/-- The second style is the first one with the case of letters of ASCII changed, and with spare characters
put in or left out, anywhere. -/
inductive Restyled : List Char → List Char → Prop
  | nil : Restyled [] []
  | recase {c d : Char} {s t : List Char} :
    c.toLower = d.toLower → Restyled s t → Restyled (c :: s) (d :: t)
  | insert {c : Char} {s t : List Char} : isSpare c = true → Restyled s t → Restyled s (c :: t)
  | delete {c : Char} {s t : List Char} : isSpare c = true → Restyled s t → Restyled (c :: s) t

/-- A style without its spare characters and in small letters. -/
def bare (style : List Char) : List Char :=
  (style.filter (!isSpare ·)).map Char.toLower

private theorem bare_cons_of_isSpare {c : Char} (h : isSpare c = true) (s : List Char) :
    bare (c :: s) = bare s := by
  simp [bare, h]

private theorem bare_cons {c : Char} (h : isSpare c = false) (s : List Char) :
    bare (c :: s) = c.toLower :: bare s := by
  simp [bare, h]

private theorem isSpare_toLower (c : Char) : isSpare c.toLower = isSpare c := by
  have hiff (d : Char) : isSpare d = true ↔ d.toNat < 0x80 ∧ ¬d.isAlphanum = true := by
    simp [isSpare]
  rw [Bool.eq_iff_iff, hiff, hiff, isAlphanum_iff, isAlphanum_iff, toNat_toLower]
  split <;> omega

private theorem bare_eq_of_restyled {s t : List Char} (h : Restyled s t) : bare s = bare t := by
  induction h with
  | nil => rfl
  | @recase c d s t hcase _ ih =>
    have hspare : isSpare c = isSpare d := by
      rw [← isSpare_toLower, hcase, isSpare_toLower]
    cases hd : isSpare d with
    | true => rw [bare_cons_of_isSpare (hspare.trans hd), bare_cons_of_isSpare hd, ih]
    | false => rw [bare_cons (hspare.trans hd), bare_cons hd, hcase, ih]
  | insert hspare _ ih => rw [bare_cons_of_isSpare hspare, ih]
  | delete hspare _ ih => rw [bare_cons_of_isSpare hspare, ih]

private theorem restyled_of_bare_eq {s t : List Char} (h : bare s = bare t) : Restyled s t := by
  induction s generalizing t with
  | nil =>
    induction t with
    | nil => exact .nil
    | cons d t iht =>
      cases hd : isSpare d with
      | true => exact .insert hd (iht (by rw [h, bare_cons_of_isSpare hd]))
      | false =>
        rw [bare_cons hd] at h
        cases h
  | cons c s ih =>
    cases hc : isSpare c with
    | true => exact .delete hc (ih (by rw [← h, bare_cons_of_isSpare hc]))
    | false =>
      -- the spare characters in front of the one that stands for `c` are put in first
      rw [bare_cons hc] at h
      induction t with
      | nil => cases h
      | cons d t iht =>
        cases hd : isSpare d with
        | true => exact .insert hd (iht (by rw [h, bare_cons_of_isSpare hd]))
        | false =>
          rw [bare_cons hd, List.cons.injEq] at h
          exact .recase h.1 (ih h.2)

instance (s t : List Char) : Decidable (Restyled s t) :=
  decidable_of_iff (bare s = bare t) ⟨restyled_of_bare_eq, bare_eq_of_restyled⟩

theorem styleChars_eq_flatMap (s : List Char) :
    styleChars s = s.flatMap fun c => (lowerChar c).filter isStyleChar := by
  rw [styleChars, filter_of_sameLetter (forall₂_lower s) (by decide) (by decide), List.filter_flatMap]

private theorem styleChars_cons_of_isSpare {c : Char} (h : isSpare c = true) (s : List Char) :
    styleChars (c :: s) = styleChars s := by
  obtain ⟨hascii, hother⟩ : c.toNat < 0x80 ∧ c.isAlphanum = false := by simpa [isSpare] using h
  have hnone : (lowerChar c).filter isStyleChar = [] := by
    simp [lowerChar, hascii, isStyleChar_toLower, hother]
  simp [styleChars_eq_flatMap, hnone]

private theorem styleChars_of_restyled {s t : List Char} (h : Restyled s t) :
    styleChars s = styleChars t := by
  induction h with
  | nil => rfl
  | @recase c d s t hcase _ ih =>
    have hchar : lowerChar c = lowerChar d := by
      rw [← lowerChar_toLower c, hcase, lowerChar_toLower]
    simp only [styleChars_eq_flatMap] at ih ⊢
    rw [List.flatMap_cons, List.flatMap_cons, ih, hchar]
  | insert hspare _ ih => rw [styleChars_cons_of_isSpare hspare, ih]
  | delete hspare _ ih => rw [styleChars_cons_of_isSpare hspare, ih]

private theorem keyFor_restyled (options : Options) {order : Order} {style other : String}
    (hs : order.labelled? options.styleField = some (.text style))
    (hf : (order.labelled? options.flagField).any Value.isSet = false)
    (hr : Restyled style.toList other.toList) :
    options.keyFor (order.insert (order.fieldFor options.styleField) (.text other)) =
      if order.fieldFor options.styleField = order.fieldFor options.flagField ∧ (Value.text other).isSet then
        RuleSet.keyOf options.overrideKey
      else options.keyFor order := by
  have hstyle : styleOf (some (.text other)) = styleOf (some (.text style)) := by
    rw [styleOf_text, styleOf_text, styleChars_of_restyled hr]
  rw [keyFor, keyFor, Order.labelled?_insert hs, Order.labelled?_insert hs, if_pos rfl, hstyle, hs, hf]
  by_cases hfield : order.fieldFor options.styleField = order.fieldFor options.flagField
  · simp [hfield]
  · simp [hfield, hf]

/-- The key that an order calls for is a plain name of a file with letters and digits, and it stays as it is
when the style is restyled while the flag is not set. If the flag is in the field of the style, a style that
reads as a yes then calls for the key of the flag. -/
theorem keyFor_canonical (options : Options) (order : Order) :
    ((∀ c ∈ options.overrideKey.toList, c.isAlphanum = true) →
      (∀ c ∈ options.familySuffix.toList, c.isAlphanum = true) →
        let file := RuleSet.fileName (options.keyFor order)
        (∀ c ∈ (options.keyFor order).toList, ('a' ≤ c ∧ c ≤ 'z') ∨ ('0' ≤ c ∧ c ≤ '9')) ∧
          Folder.names file = [file] ∧ Folder.IsPlain file) ∧
      ∀ style other : String, order.labelled? options.styleField = some (.text style) →
        (order.labelled? options.flagField).any Value.isSet = false →
        Restyled style.toList other.toList →
        options.keyFor (order.insert (order.fieldFor options.styleField) (.text other)) =
          if order.fieldFor options.styleField = order.fieldFor options.flagField ∧
              (Value.text other).isSet then
            RuleSet.keyOf options.overrideKey
          else options.keyFor order := by
  refine ⟨fun ho hs => ?_, fun style other hs hf hr => keyFor_restyled options hs hf hr⟩
  have hchars : ∀ c ∈ (options.keyFor order).toList, isStyleChar c = true :=
    fun _ => isStyleChar_of_mem_keyFor ho hs
  have hslash : '/' ∉ (options.keyFor order).toList :=
    fun h => absurd (hchars '/' h) (by decide)
  have hplain := DirectoryRepository.isPlain_fileName hslash
  refine ⟨fun c hc => ?_, Folder.names_of_not_mem hplain.2.2.2, hplain⟩
  simpa [isStyleChar_iff, Char.le_def, UInt32.le_iff_toNat_le] using hchars c hc

/-- A style of two words is written in one, in capital letters. -/
theorem keyFor_canonical_arch :
    let order := Order.empty.insert "Select Door Style" (.text "Old-World Arch #2")
    let file := RuleSet.fileName (({} : Options).keyFor order)
    Folder.names file = [file] ∧ Folder.IsPlain file ∧
      ({} : Options).keyFor (order.insert "Select Door Style" (.text "OLDWORLD (arch) 2")) =
        ({} : Options).keyFor order := by
  intro order file
  obtain ⟨hsafe, hrestyled⟩ := keyFor_canonical {} order
  obtain ⟨-, hnames, hplain⟩ := hsafe (List.all_eq_true.1 (by decide)) (List.all_eq_true.1 (by decide))
  have hfields : order.fieldFor "Select Door Style" = "Select Door Style" ∧
      order.fieldFor "Metal Framed Hinged Door?" = "metal_framed_hinged_door" := by
    decide +kernel
  have hkey := hrestyled "Old-World Arch #2" "OLDWORLD (arch) 2" (by decide +kernel) (by decide +kernel)
    (by decide +kernel)
  rw [hfields.1, hfields.2, if_neg (by decide +kernel)] at hkey
  exact ⟨hnames, hplain, hkey⟩

/-- With the style and the flag in one field, leaving out the hyphen sets the flag. -/
theorem keyFor_hyphen :
    let options : Options := { styleField := "F", flagField := "F" }
    let order := Order.empty.insert "F" (.text "y-es")
    order.labelled? options.styleField = some (.text "y-es") ∧
      (order.labelled? options.flagField).any Value.isSet = false ∧
      Restyled "y-es".toList "yes".toList ∧
      options.keyFor order = "yesdoors" ∧
      options.keyFor (order.insert (order.fieldFor options.styleField) (.text "yes")) =
        "hingedmetaldoors" := by
  decide +kernel

end Options
end Millwork
