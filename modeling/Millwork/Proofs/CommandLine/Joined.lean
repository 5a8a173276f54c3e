import Millwork.CommandLine
/-!
# Settings in one argument

A setting is given by two arguments, its name and its value, or by one with an equals sign in between.
Both are read alike unless the value itself begins with the name and the sign: in one argument they are
then taken off the value as often as they stand there.
-/
namespace Millwork.CommandLine

section
variable {lead s : List Char}

theorem dropLeads_append (h : lead ≠ []) (s : List Char) :
    dropLeads lead (lead ++ s) = dropLeads lead s := by
  rw [dropLeads, dif_pos ⟨by simp, h⟩, List.drop_left]

theorem dropLeads_of_not_prefix (h : ¬lead <+: s) : dropLeads lead s = s := by
  rw [dropLeads, dif_neg]
  simp [h]

theorem not_prefix_dropLeads (h : lead ≠ []) (s : List Char) : ¬lead <+: dropLeads lead s := by
  induction s using dropLeads.induct lead with
  | case1 s hp ih =>
    rw [dropLeads, dif_pos hp]
    exact ih
  | case2 s hp =>
    rw [dropLeads, dif_neg hp]
    intro hl
    exact hp ⟨List.isPrefixOf_iff_prefix.2 hl, h⟩

private theorem dropLeads_eq_self_iff (h : lead ≠ []) : dropLeads lead s = s ↔ ¬lead <+: s := by
  constructor
  · intro he
    rw [← he]
    exact not_prefix_dropLeads h s
  · exact dropLeads_of_not_prefix

end

/-- A setting and its value in one argument. -/
def Setting.joined (setting : Setting) (value : String) : String :=
  setting.name ++ "=" ++ value

namespace Argument

theorem lead_ne_nil (setting : Setting) : lead setting ≠ [] := by
  cases setting <;> decide

theorem toList_joined (setting : Setting) (value : String) :
    (setting.joined value).toList = lead setting ++ value.toList := by
  rw [Setting.joined, lead, String.toList_append]

private theorem joined?_joined (setting : Setting) (value : String) :
    joined? (setting.joined value) =
      some (.settingTo setting (String.ofList (dropLeads (lead setting) value.toList))) := by
  have hfind : (Setting.all.find? fun other => (lead other).isPrefixOf (setting.joined value).toList) =
      some setting := by
    rw [toList_joined]
    cases setting <;> simp [Setting.all, lead, Setting.name, List.isPrefixOf]
  rw [joined?, hfind, Option.map_some, toList_joined, dropLeads_append (lead_ne_nil setting)]

theorem ofText_joined (setting : Setting) (value : String) :
    ofText (setting.joined value) =
      .settingTo setting (String.ofList (dropLeads (lead setting) value.toList)) := by
  have hsign : '=' ∈ (setting.joined value).toList := by
    rw [toList_joined, lead]
    simp
  have hother : ofText (setting.joined value) = other (setting.joined value) := by
    unfold ofText
    split
    case h_15 => rfl
    all_goals
      rename_i he
      rw [he] at hsign
      exact absurd hsign (by decide)
  rw [hother, other, joined?_joined, Option.getD_some]

private theorem ofText_name (setting : Setting) : ofText setting.name = .setting setting := by
  cases setting <;> rfl

/-- Whether an argument is an option that takes no value, known or not. -/
def isPlainOption : Argument → Bool
  | .setting _ | .textFollows | .word _ => false
  | _ => true

end Argument

/-- Arguments that are options, each with its value behind it if it takes one. -/
inductive OptionsOnly : List String → Prop
  | nil : OptionsOnly []
  | plain {text : String} {more : List String} (h : (Argument.ofText text).isPlainOption = true)
    (hm : OptionsOnly more) : OptionsOnly (text :: more)
  | setting {text : String} {setting : Setting} (value : String) {more : List String}
    (h : Argument.ofText text = .setting setting) (hm : OptionsOnly more) :
    OptionsOnly (text :: value :: more)

private theorem readFrom_append_congr {before a b : List String} (hb : OptionsOnly before)
    (h : ∀ settings, readFrom settings a = readFrom settings b) (settings : Settings) :
    readFrom settings (before ++ a) = readFrom settings (before ++ b) := by
  induction hb generalizing settings with
  | nil => exact h settings
  | @plain text more ht hm ih =>
    simp only [List.cons_append, readFrom]
    cases he : Argument.ofText text with
    | setting setting | textFollows | word word =>
      rw [he] at ht
      cases ht
    | settingTo setting value =>
      simp only
      cases settings.give setting value with
      | ok settings' => exact ih settings'
      | error e => rfl
    | help | version | unknown option => rfl
    | color on | parseOnly | json => exact ih _
  | @setting text setting value more ht hm ih =>
    simp only [List.cons_append, readFrom, ht]
    cases settings.give setting value with
    | ok settings' => exact ih settings'
    | error e => rfl

section
variable (setting : Setting) (value : String) (after : List String)

private theorem readFrom_joined_joined (settings : Settings) :
    readFrom settings (setting.joined (setting.joined value) :: after) =
      readFrom settings (setting.joined value :: after) := by
  simp only [readFrom, Argument.ofText_joined, Argument.toList_joined,
    dropLeads_append (Argument.lead_ne_nil setting)]

private theorem lead_prefix_iff :
    Argument.lead setting <+: value.toList ↔ ∃ more, value = setting.joined more := by
  constructor
  · rintro ⟨more, hm⟩
    refine ⟨String.ofList more, ?_⟩
    rw [← String.toList_inj, Argument.toList_joined, String.toList_ofList, hm]
  · rintro ⟨more, rfl⟩
    rw [Argument.toList_joined]
    exact List.prefix_append _ _

private theorem readFrom_joined (h : ∀ more, value ≠ setting.joined more) (settings : Settings) :
    readFrom settings (setting.joined value :: after) =
      readFrom settings (setting.name :: value :: after) := by
  have hlead : ¬Argument.lead setting <+: value.toList := by
    rw [lead_prefix_iff]
    exact fun ⟨more, hm⟩ => h more hm
  simp only [readFrom, Argument.ofText_joined, Argument.ofText_name, dropLeads_of_not_prefix hlead,
    String.ofList_toList]

private theorem ofList_dropLeads_of_read
    (h : read [setting.joined value] = read [setting.name, value]) :
    String.ofList (dropLeads (Argument.lead setting) value.toList) = value := by
  simp only [read, readFrom, Argument.ofText_joined, Argument.ofText_name] at h
  cases setting <;> simpa [Settings.give, Settings.setInput] using h

end

/-- In one argument it makes no difference how often the name of a setting stands in front of its value, and
the value is read as it is in two arguments. So the tool does the same with both spellings, wherever they
stand behind other options, if the value does not begin with the name and the sign; if it does, they are
two different requests. -/
theorem run_joined (setting : Setting) (value : String) :
    (∀ before after, OptionsOnly before → ∀ surroundings,
      run (before ++ setting.joined (setting.joined value) :: after) surroundings =
        run (before ++ setting.joined value :: after) surroundings) ∧
    ((∀ more, value ≠ setting.joined more) → ∀ before after, OptionsOnly before → ∀ surroundings,
      run (before ++ setting.joined value :: after) surroundings =
        run (before ++ setting.name :: value :: after) surroundings) ∧
    ((∀ before after, OptionsOnly before →
      read (before ++ setting.joined value :: after) =
        read (before ++ setting.name :: value :: after)) ↔ ∀ more, value ≠ setting.joined more) := by
  have hread (h : ∀ more, value ≠ setting.joined more) (before after : List String)
      (hb : OptionsOnly before) : read (before ++ setting.joined value :: after) =
        read (before ++ setting.name :: value :: after) :=
    readFrom_append_congr hb (readFrom_joined setting value after h) {}
  refine ⟨?_, ?_, ?_, hread⟩
  · intro before after hb surroundings
    have hr := readFrom_append_congr hb (readFrom_joined_joined setting value after) {}
    rw [run, run, read, read, hr]
  · intro h before after hb surroundings
    rw [run, run, hread h before after hb]
  · intro h more hm
    have hv := ofList_dropLeads_of_read setting value (h [] [] .nil)
    have hlead := (lead_prefix_iff setting value).2 ⟨more, hm⟩
    rw [← String.toList_inj, String.toList_ofList] at hv
    exact (dropLeads_eq_self_iff (Argument.lead_ne_nil setting)).1 hv hlead

/-- A note about a label that looks like the option. -/
theorem run_joined_ne_label :
    let surroundings : Surroundings := ⟨.empty, none, fun _ => .ok [], ⟨"", "", ""⟩⟩
    run ["--parse-only", "--input=--input=a: b"] surroundings ≠
      run ["--parse-only", "--input", "--input=a: b"] surroundings := by
  decide +kernel

end Millwork.CommandLine
