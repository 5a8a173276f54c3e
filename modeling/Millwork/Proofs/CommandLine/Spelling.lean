import Millwork.Proofs.CommandLine.Joined
import Millwork.Proofs.Text.Blank
/-!
# How options are spelled

What an argument stands for by its spelling, and the items that the arguments of a command line are cut
into, whether or not they are in order. Every command line is cut in one way.
-/
namespace Millwork.CommandLine
def Setting.spellings : Setting → List String
  | .rules => ["-r", "--rules"]
  | .input => ["-i", "--input"]
  | .order => ["--order"]

def Setting.sign : Setting → List Char
  | .rules => "--rules=".toList
  | .input => "--input=".toList
  | .order => "--order=".toList

def Gives (setting : Setting) (text value : String) : Prop :=
  ∃ more : Nat, text.toList = (List.replicate (more + 1) setting.sign).flatten ++ value.toList ∧
    ¬setting.sign <+: value.toList

def flags : List String :=
  ["-h", "--help", "-V", "--version", "--color", "--no-color", "--parse-only", "--json", "--"]

def Known (text : String) : Prop :=
  text ∈ flags ∨ ∃ setting : Setting, text ∈ setting.spellings ∨ setting.sign <+: text.toList

inductive Spelled : String → Argument → Prop
  | help {text : String} (h : text ∈ ["-h", "--help"]) : Spelled text .help
  | version {text : String} (h : text ∈ ["-V", "--version"]) : Spelled text .version
  | color : Spelled "--color" (.color true)
  | noColor : Spelled "--no-color" (.color false)
  | parseOnly : Spelled "--parse-only" .parseOnly
  | json : Spelled "--json" .json
  | setting {text : String} {setting : Setting} (h : text ∈ setting.spellings) :
    Spelled text (.setting setting)
  | settingTo {text value : String} {setting : Setting} (h : Gives setting text value) :
    Spelled text (.settingTo setting value)
  | textFollows : Spelled "--" .textFollows
  | unknown {text : String} (h : text.toList.head? = some '-') (hn : ¬Known text) :
    Spelled text (.unknown text)
  | word {text : String} (h : text.toList.head? ≠ some '-') : Spelled text (.word text)

namespace Argument
private theorem sign_eq_lead (setting : Setting) : setting.sign = lead setting := by
  cases setting <;> rfl

private theorem exists_replicate_dropLeads (lead s : List Char) :
    ∃ times : Nat, s = (List.replicate times lead).flatten ++ dropLeads lead s := by
  induction s using dropLeads.induct lead with
  | case1 s hp ih =>
    obtain ⟨times, ht⟩ := ih
    obtain ⟨rest, rfl⟩ := List.isPrefixOf_iff_prefix.1 hp.1
    rw [List.drop_left] at ht
    refine ⟨times + 1, ?_⟩
    rw [dropLeads_append hp.2, List.replicate_succ, List.flatten_cons, List.append_assoc, ← ht]
  | case2 s hp =>
    rw [dropLeads, dif_neg hp]
    exact ⟨0, rfl⟩

private theorem dropLeads_replicate {lead rest : List Char} (h : lead ≠ []) (hr : ¬lead <+: rest)
    (times : Nat) : dropLeads lead ((List.replicate times lead).flatten ++ rest) = rest := by
  induction times with
  | zero => exact dropLeads_of_not_prefix hr
  | succ times ih =>
    rw [List.replicate_succ, List.flatten_cons, List.append_assoc, dropLeads_append h, ih]

private theorem gives_dropLeads {setting : Setting} {text : String}
    (h : setting.sign <+: text.toList) :
    Gives setting text (String.ofList (dropLeads (lead setting) text.toList)) := by
  have hne := lead_ne_nil setting
  rw [sign_eq_lead] at h
  obtain ⟨rest, hrest⟩ := h
  obtain ⟨times, ht⟩ := exists_replicate_dropLeads (lead setting) rest
  refine ⟨times, ?_, ?_⟩
  · rw [String.toList_ofList, sign_eq_lead, ← hrest, dropLeads_append hne, List.replicate_succ,
      List.flatten_cons, List.append_assoc, ← ht]
  · rw [String.toList_ofList, sign_eq_lead]
    exact not_prefix_dropLeads hne text.toList

private theorem ofText_of_gives {setting : Setting} {text value : String}
    (h : Gives setting text value) : ofText text = .settingTo setting value := by
  obtain ⟨more, ht, hv⟩ := h
  have htext : text =
      setting.joined (String.ofList ((List.replicate more (lead setting)).flatten ++ value.toList)) := by
    rw [← String.toList_inj, toList_joined, String.toList_ofList, ht, sign_eq_lead, List.replicate_succ,
      List.flatten_cons, List.append_assoc]
  rw [sign_eq_lead] at hv
  rw [htext, ofText_joined, String.toList_ofList, dropLeads_replicate (lead_ne_nil setting) hv,
    String.ofList_toList]

private theorem ofText_of_not_known {text : String}
    (h : text ∉ flags)
    (hs : ∀ setting : Setting, text ∉ setting.spellings) : ofText text = other text := by
  have hrules := hs .rules
  have hinput := hs .input
  have horder := hs .order
  simp only [flags, Setting.spellings, List.mem_cons, List.not_mem_nil, or_false, not_or]
    at h hrules hinput horder
  unfold ofText
  split
  all_goals first
    | rfl
    | simp_all

private theorem joined?_eq_none {text : String}
    (h : ∀ setting : Setting, ¬setting.sign <+: text.toList) :
    joined? text = none := by
  rw [joined?, Option.map_eq_none_iff, List.find?_eq_none]
  intro setting _ hp
  exact h setting (sign_eq_lead setting ▸ List.isPrefixOf_iff_prefix.1 hp)

private theorem spelled_other {text : String}
    (h : text ∉ flags)
    (hs : ∀ setting : Setting, text ∉ setting.spellings) : Spelled text (other text) := by
  rw [other, joined?]
  cases hfind : Setting.all.find? fun setting => (lead setting).isPrefixOf text.toList with
  | some setting =>
    have hp : lead setting <+: text.toList := by
      have hfound := List.find?_some hfind
      exact List.isPrefixOf_iff_prefix.1 hfound
    exact .settingTo (gives_dropLeads (sign_eq_lead setting ▸ hp))
  | none =>
    have hnone (setting : Setting) : ¬setting.sign <+: text.toList := by
      intro hp
      have hall : setting ∈ Setting.all := by cases setting <;> decide
      have hnot := List.find?_eq_none.1 hfind setting hall
      rw [← sign_eq_lead] at hnot
      exact hnot (List.isPrefixOf_iff_prefix.2 hp)
    simp only [Option.map_none, Option.getD_none]
    split
    · rename_i hd
      refine .unknown hd ?_
      rintro (hk | ⟨setting, hk | hk⟩)
      · exact h hk
      · exact hs setting hk
      · exact hnone setting hk
    · rename_i hd
      exact .word hd

private theorem head?_of_mem_flags {text : String} (h : text ∈ flags) :
    text.toList.head? = some '-' := by
  have hall : ∀ flag ∈ flags, flag.toList.head? = some '-' := by decide
  exact hall text h

private theorem head?_of_mem_spellings {setting : Setting} {text : String}
    (h : text ∈ setting.spellings) : text.toList.head? = some '-' := by
  have hall : ∀ spelling ∈ setting.spellings, spelling.toList.head? = some '-' := by
    cases setting <;> decide
  exact hall text h

/-- An argument stands for what it is spelled as, and for nothing else. -/
theorem ofText_eq_iff (text : String) (argument : Argument) :
    ofText text = argument ↔ Spelled text argument := by
  constructor
  · rintro rfl
    unfold ofText
    split
    case h_1 | h_2 => exact .help (by decide)
    case h_3 | h_4 => exact .version (by decide)
    case h_5 => exact .color
    case h_6 => exact .noColor
    case h_7 => exact .parseOnly
    case h_8 => exact .json
    case h_9 | h_10 | h_11 | h_12 | h_13 => exact .setting (by decide)
    case h_14 => exact .textFollows
    case h_15 =>
      apply spelled_other
      · simp_all [flags]
      · intro setting
        cases setting <;> simp_all [Setting.spellings]
  · intro h
    cases h with
    | help h | version h =>
      simp only [List.mem_cons, List.not_mem_nil, or_false] at h
      rcases h with rfl | rfl <;> rfl
    | color | noColor | parseOnly | json | textFollows => rfl
    | @setting _ setting h =>
      cases setting <;> simp only [Setting.spellings, List.mem_cons, List.not_mem_nil, or_false] at h
      · rcases h with rfl | rfl <;> rfl
      · rcases h with rfl | rfl <;> rfl
      · subst h
        rfl
    | settingTo h => exact ofText_of_gives h
    | unknown h hn =>
      rw [ofText_of_not_known (fun hm => hn (.inl hm)) fun setting hm => hn (.inr ⟨setting, .inl hm⟩),
        other, joined?_eq_none fun setting hp => hn (.inr ⟨setting, .inr hp⟩), Option.getD_none, if_pos h]
    | word h =>
      have hflag : text ∉ flags := fun hm => h (head?_of_mem_flags hm)
      have hspelling (setting : Setting) : text ∉ setting.spellings := fun hm =>
        h (head?_of_mem_spellings hm)
      have hsign (setting : Setting) : ¬setting.sign <+: text.toList := by
        rintro ⟨rest, hrest⟩
        rw [← hrest] at h
        cases setting <;> exact h rfl
      rw [ofText_of_not_known hflag hspelling, other, joined?_eq_none hsign, Option.getD_none,
        if_neg h]

end Argument

/-- What some of the arguments bring. -/
inductive Item
  /-- The wish for help or for the version. -/
  | information
  | input (given : Input)
  | rules (path : String)
  | parseOnly
  | unknownOption
  /-- An option that is the last argument and needs a value. -/
  | missingValue
  /-- What has no part in how the tool ends. -/
  | other
deriving DecidableEq

def Setting.item (value : String) : Setting → Item
  | .rules => .rules value
  | .input => .input (.note value)
  | .order => .input (.order value)

def Blank (text : String) : Prop :=
  Text.AllBlank text.toList

theorem isBlankText_iff (text : String) : isBlankText text = true ↔ Blank text := by
  rw [isBlankText, List.isEmpty_iff, Text.trim_eq, List.rdropWhile_eq_nil_iff, Blank]
  constructor
  · intro h
    have hnil := List.dropWhile_eq_nil_iff.2 h
    have hskip := Text.skipBlanks_skipBlanks text.toList
    rw [Text.skipBlanks, hnil] at hskip
    exact List.dropWhile_eq_nil_iff.1 hskip.symm
  · intro h c hc
    exact h c ((List.dropWhile_suffix Text.isBlank).mem hc)

theorem isBlankText_eq_false_iff (text : String) : isBlankText text = false ↔ ¬Blank text := by
  rw [← isBlankText_iff, Bool.not_eq_true]

/-- The items of a command line, one after the other. -/
inductive Cut : List String → List Item → Prop
  | nil : Cut [] []
  | help {text : String} {more : List String} {is : List Item} (h : Spelled text .help)
    (hm : Cut more is) : Cut (text :: more) (.information :: is)
  | version {text : String} {more : List String} {is : List Item} (h : Spelled text .version)
    (hm : Cut more is) : Cut (text :: more) (.information :: is)
  | color {text : String} {on : Bool} {more : List String} {is : List Item}
    (h : Spelled text (.color on)) (hm : Cut more is) : Cut (text :: more) (.other :: is)
  | json {text : String} {more : List String} {is : List Item} (h : Spelled text .json)
    (hm : Cut more is) : Cut (text :: more) (.other :: is)
  | parseOnly {text : String} {more : List String} {is : List Item} (h : Spelled text .parseOnly)
    (hm : Cut more is) : Cut (text :: more) (.parseOnly :: is)
  | missingValue {text : String} {setting : Setting} (h : Spelled text (.setting setting)) :
    Cut [text] [.missingValue]
  | setting {text : String} {setting : Setting} (value : String) {more : List String}
    {is : List Item} (h : Spelled text (.setting setting)) (hm : Cut more is) :
    Cut (text :: value :: more) (setting.item value :: is)
  | settingTo {text value : String} {setting : Setting} {more : List String} {is : List Item}
    (h : Spelled text (.settingTo setting value)) (hm : Cut more is) :
    Cut (text :: more) (setting.item value :: is)
  | nothingFollows {text : String} {more : List String} (h : Spelled text .textFollows)
    (hb : Blank (String.intercalate " " more)) : Cut (text :: more) []
  | textFollows {text : String} {more : List String} (h : Spelled text .textFollows)
    (hb : ¬Blank (String.intercalate " " more)) :
    Cut (text :: more) [.input (.note (String.intercalate " " more))]
  | unknown {text : String} {more : List String} {is : List Item} (h : Spelled text (.unknown text))
    (hm : Cut more is) : Cut (text :: more) (.unknownOption :: is)
  | word {text : String} {more : List String} (h : Spelled text (.word text)) :
    Cut (text :: more) [.input (.note (String.intercalate " " (text :: more)))]

private def items : List String → List Item
  | [] => []
  | text :: more =>
    match Argument.ofText text with
    | .help | .version => .information :: items more
    | .color _ | .json => .other :: items more
    | .parseOnly => .parseOnly :: items more
    | .setting setting =>
      match more with
      | [] => [.missingValue]
      | value :: rest => setting.item value :: items rest
    | .settingTo setting value => setting.item value :: items more
    | .textFollows =>
      if isBlankText (String.intercalate " " more) then []
      else [.input (.note (String.intercalate " " more))]
    | .unknown _ => .unknownOption :: items more
    | .word word => [.input (.note (String.intercalate " " (word :: more)))]

private theorem Cut.eq_items {arguments : List String} {is : List Item} (h : Cut arguments is) :
    is = items arguments := by
  induction h with
  | nil => rfl
  | help h hm ih | version h hm ih | color h hm ih | json h hm ih | parseOnly h hm ih
  | setting value h hm ih | settingTo h hm ih | unknown h hm ih =>
    rw [items, (Argument.ofText_eq_iff _ _).2 h, ih]
  | missingValue h | word h => rw [items, (Argument.ofText_eq_iff _ _).2 h]
  | nothingFollows h hb =>
    simp only [items, (Argument.ofText_eq_iff _ _).2 h, (isBlankText_iff _).2 hb, if_true]
  | textFollows h hb =>
    simp only [items, (Argument.ofText_eq_iff _ _).2 h, (isBlankText_eq_false_iff _).2 hb,
      Bool.false_eq_true, if_false]

private theorem cut_items (arguments : List String) : Cut arguments (items arguments) := by
  have hspelled {text : String} {argument : Argument} (h : Argument.ofText text = argument) :
      Spelled text argument := (Argument.ofText_eq_iff text argument).1 h
  induction arguments using items.induct with
  | case1 => exact .nil
  | case2 text more ht ih =>
    rw [items, ht]
    exact .help (hspelled ht) ih
  | case3 text more ht ih =>
    rw [items, ht]
    exact .version (hspelled ht) ih
  | case4 text more on ht ih =>
    rw [items, ht]
    exact .color (hspelled ht) ih
  | case5 text more ht ih =>
    rw [items, ht]
    exact .json (hspelled ht) ih
  | case6 text more ht ih =>
    rw [items, ht]
    exact .parseOnly (hspelled ht) ih
  | case7 text setting ht =>
    rw [items, ht]
    exact .missingValue (hspelled ht)
  | case8 text setting ht value rest ih =>
    rw [items, ht]
    exact .setting value (hspelled ht) ih
  | case9 text more setting value ht ih =>
    rw [items, ht]
    exact .settingTo (hspelled ht) ih
  | case10 text more ht hb =>
    simp only [items, ht, hb, if_true]
    exact .nothingFollows (hspelled ht) ((isBlankText_iff _).1 hb)
  | case11 text more ht hb =>
    simp only [items, ht, hb]
    exact .textFollows (hspelled ht) (mt (isBlankText_iff _).2 hb)
  | case12 text more option ht ih =>
    rw [items, ht]
    have h := hspelled ht
    cases h
    exact .unknown (hspelled ht) ih
  | case13 text more word ht =>
    rw [items, ht]
    have h := hspelled ht
    cases h
    exact .word (hspelled ht)

theorem exists_cut (arguments : List String) : ∃ is, Cut arguments is :=
  ⟨_, cut_items arguments⟩

theorem Cut.unique {arguments : List String} {is others : List Item} (h : Cut arguments is)
    (ho : Cut arguments others) : others = is :=
  ho.eq_items.trans h.eq_items.symm

end Millwork.CommandLine
