import Millwork.Proofs.CommandLine.Spelling
/-!
# How the tool ends

The items up to the first request for help or for the version tell how the tool ends: with 2 if they are
wrong or lack an input, with 1 if the input is no order or the directory of the rules cannot be listed,
and else with 0.
-/
namespace Millwork.CommandLine
def Item.input? : Item → Option Input
  | .input given => some given
  | _ => none

def Item.rules? : Item → Option String
  | .rules path => some path
  | _ => none

def reached (is : List Item) : List Item :=
  is.takeWhile (· ≠ .information)

def inputs (is : List Item) : List Input :=
  (reached is).filterMap Item.input?

/-- The directory that is given last. -/
def givenRules? (is : List Item) : Option String :=
  ((reached is).filterMap Item.rules?).getLast?

/-- Whether an option that does not exist or lacks its value is reached, or a second input. -/
def Misread (is : List Item) : Prop :=
  .unknownOption ∈ reached is ∨ .missingValue ∈ reached is ∨ 1 < (inputs is).length

/-- The first input that is given, else the standard input, which has to be UTF-8. -/
def chosen? (is : List Item) (standardInput : ByteArray) : Option Input :=
  (inputs is).head?.or ((String.fromUTF8? standardInput).map .note)

/-- Whether the arguments are wrong, or what has to be worked out has no input or a blank one. -/
def Misused (is : List Item) (standardInput : ByteArray) : Prop :=
  Misread is ∨ .information ∉ is ∧
    (chosen? is standardInput = none ∨
      ∃ input, chosen? is standardInput = some input ∧ Blank input.text)

/-- Whether the arguments are right and give an order that is no JSON, or the JSON of no order. -/
def Rejected (is : List Item) : Prop :=
  ¬Misread is ∧ .information ∉ is ∧
    ∃ json, (inputs is).head? = some (.order json) ∧ ¬Blank json ∧
      (Json.read? json = none ∨
        ∃ value mismatch, Json.read? json = some value ∧ Order.ofJson value = .error mismatch)

/-- The directory of the rules is given, or the environment has it, or it is the default. -/
def rulesDirectory (is : List Item) (rulesVariable : Option String) : String :=
  match givenRules? is, rulesVariable with
  | some path, _ => path
  | none, some path => path
  | none, none => "rules"

/-- The directory of the rules is there, but the system has this reason for not listing it. -/
def Unlisted (is : List Item) (surroundings : Surroundings) (reason : String) : Prop :=
  surroundings.listing (rulesDirectory is surroundings.rulesVariable) = .error reason

/-- Whether an order is to be worked out and its rules cannot be listed. -/
def Unruled (is : List Item) (surroundings : Surroundings) : Prop :=
  ¬Misused is surroundings.standardInput ∧ ¬Rejected is ∧ .information ∉ is ∧ .parseOnly ∉ is ∧
    ∃ reason, Unlisted is surroundings reason

section
variable {is : List Item}

@[simp] theorem reached_nil : reached [] = [] := rfl

@[simp] theorem reached_information : reached (.information :: is) = [] :=
  List.takeWhile_cons_of_neg (by simp)

private theorem reached_cons {item : Item} (h : item ≠ .information) :
    reached (item :: is) = item :: reached is :=
  List.takeWhile_cons_of_pos (by simpa using h)

private theorem inputs_cons {item : Item} (h : item ≠ .information) :
    inputs (item :: is) = item.input?.toList ++ inputs is := by
  rw [inputs, reached_cons h, inputs]
  cases item <;> rfl

private theorem givenRules?_cons {item : Item} (h : item ≠ .information) :
    givenRules? (item :: is) = (givenRules? is).or item.rules? := by
  rw [givenRules?, reached_cons h, givenRules?]
  cases item with
  | rules path =>
    simp only [List.filterMap_cons, Item.rules?, List.getLast?_cons]
    cases ((reached is).filterMap Item.rules?).getLast? <;> rfl
  | _ => simp [Item.rules?]

private theorem mem_reached_cons {wanted item : Item} (h : item ≠ .information) (hw : wanted ≠ item) :
    wanted ∈ reached (item :: is) ↔ wanted ∈ reached is := by
  rw [reached_cons h, List.mem_cons, or_iff_right hw]

def MisreadAfter (settings : Settings) (is : List Item) : Prop :=
  .unknownOption ∈ reached is ∨ .missingValue ∈ reached is ∨
    1 < settings.input.toList.length + (inputs is).length

/-- All that can come of reading the arguments that the items are of, behind those that led to the
settings. -/
inductive Settles (settings : Settings) (is : List Item) : Except UsageError Request → Prop
  | misread (e : UsageError) (h : MisreadAfter settings is) : Settles settings is (.error e)
  | help (h : ¬MisreadAfter settings is) (hi : .information ∈ is) : Settles settings is (.ok .help)
  | version (h : ¬MisreadAfter settings is) (hi : .information ∈ is) :
    Settles settings is (.ok .version)
  | process (later : Settings) (h : ¬MisreadAfter settings is) (hi : .information ∉ is)
    (hinput : later.input = settings.input.or (inputs is).head?)
    (hrules : later.rules = (givenRules? is).or settings.rules)
    (hparse : later.parseOnly = true ↔ settings.parseOnly = true ∨ .parseOnly ∈ reached is) :
    Settles settings is (.ok (.process later))

variable {settings later : Settings} {request : Except UsageError Request} {e : UsageError}

/-- An item that is no part of an error is taken over into the settings. -/
private theorem Settles.cons {item : Item} (h : item ≠ .information) (hu : item ≠ .unknownOption)
    (hv : item ≠ .missingValue)
    (hlength : later.input.toList.length = settings.input.toList.length + item.input?.toList.length)
    (hinput : later.input = settings.input.or item.input?)
    (hrules : later.rules = item.rules?.or settings.rules)
    (hparse : later.parseOnly = true ↔ settings.parseOnly = true ∨ item = .parseOnly)
    (hs : Settles later is request) : Settles settings (item :: is) request := by
  have hmisread : MisreadAfter settings (item :: is) ↔ MisreadAfter later is := by
    rw [MisreadAfter, MisreadAfter, mem_reached_cons h hu.symm, mem_reached_cons h hv.symm,
      inputs_cons h, hlength, List.length_append, Nat.add_assoc]
  have hinformation : .information ∈ item :: is ↔ .information ∈ is := by
    rw [List.mem_cons, or_iff_right h.symm]
  cases hs with
  | misread e hm => exact .misread e (hmisread.2 hm)
  | help hm hi => exact .help (mt hmisread.1 hm) (hinformation.2 hi)
  | version hm hi => exact .version (mt hmisread.1 hm) (hinformation.2 hi)
  | process last hm hi hli hlr hlp =>
    refine .process last (mt hmisread.1 hm) (mt hinformation.1 hi) ?_ ?_ ?_
    · rw [hli, hinput, inputs_cons h, Option.or_assoc]
      cases item.input? <;> rfl
    · rw [hlr, hrules, givenRules?_cons h, Option.or_assoc]
    · rw [hlp, hparse, reached_cons h, List.mem_cons, or_assoc, eq_comm (a := item)]

private theorem Settles.other (hs : Settles later is request) (hinput : later.input = settings.input)
    (hrules : later.rules = settings.rules) (hparse : later.parseOnly = settings.parseOnly) :
    Settles settings (.other :: is) request := by
  apply hs.cons
  · simp
  · simp
  · simp
  · simp [Item.input?, hinput]
  · simp [Item.input?, hinput]
  · simp [Item.rules?, hrules]
  · simp [hparse]

private theorem setInput_ok {input : Input} (h : settings.setInput input = .ok later) :
    settings.input = none ∧ later = { settings with input := some input } := by
  unfold Settings.setInput at h
  split at h
  · cases h
  · rename_i hn
    cases h
    exact ⟨by simpa using hn, rfl⟩

private theorem setInput_error {input : Input} (h : settings.setInput input = .error e) :
    ∃ first, settings.input = some first := by
  unfold Settings.setInput at h
  split at h
  · rename_i hs
    exact Option.isSome_iff_exists.1 hs
  · cases h

private theorem Settles.input {input : Input} (h : settings.setInput input = .ok later)
    (hs : Settles later is request) : Settles settings (.input input :: is) request := by
  obtain ⟨hn, rfl⟩ := setInput_ok h
  apply hs.cons
  · simp
  · simp
  · simp
  · simp [Item.input?, hn]
  · simp [Item.input?, hn]
  · simp [Item.rules?]
  · simp

private theorem misreadAfter_input {input : Input} (h : settings.setInput input = .error e) :
    MisreadAfter settings (.input input :: is) := by
  obtain ⟨first, hf⟩ := setInput_error h
  refine .inr (.inr ?_)
  rw [inputs_cons (by simp), hf]
  simp [Item.input?]

private theorem Settles.give {setting : Setting} {value : String}
    (h : settings.give setting value = .ok later) (hs : Settles later is request) :
    Settles settings (setting.item value :: is) request := by
  cases setting with
  | rules =>
    cases h
    apply hs.cons
    · simp [Setting.item]
    · simp [Setting.item]
    · simp [Setting.item]
    · simp [Setting.item, Item.input?]
    · simp [Setting.item, Item.input?]
    · simp [Setting.item, Item.rules?]
    · simp [Setting.item]
  | input => exact hs.input h
  | order => exact hs.input h

private theorem misreadAfter_give {setting : Setting} {value : String}
    (h : settings.give setting value = .error e) :
    MisreadAfter settings (setting.item value :: is) := by
  cases setting with
  | rules => cases h
  | input => exact misreadAfter_input h
  | order => exact misreadAfter_input h

private theorem settles_process (settings : Settings) :
    Settles settings [] (.ok (.process settings)) := by
  refine .process settings ?_ List.not_mem_nil ?_ ?_ ?_
  · cases hi : settings.input <;> simp [MisreadAfter, inputs, hi]
  · simp [inputs]
  · simp [givenRules?]
  · simp

private theorem not_misreadAfter_information (settings : Settings) :
    ¬MisreadAfter settings (.information :: is) := by
  cases hi : settings.input <;> simp [MisreadAfter, inputs, hi]

private theorem settles_giveWords (settings : Settings) (words : List String) :
    Settles settings [.input (.note (String.intercalate " " words))]
      ((settings.giveWords words).map .process) := by
  unfold Settings.giveWords
  cases h : settings.setInput (.note (String.intercalate " " words)) with
  | error e => exact .misread e (misreadAfter_input h)
  | ok later => exact (settles_process later).input h

end

private theorem readFrom_settles {arguments : List String} {is : List Item} (hc : Cut arguments is)
    (settings : Settings) : Settles settings is (readFrom settings arguments) := by
  have hargument {text : String} {argument : Argument} (h : Spelled text argument) :
      Argument.ofText text = argument := (Argument.ofText_eq_iff text argument).2 h
  induction hc generalizing settings with
  | nil => exact settles_process settings
  | help h hm ih =>
    simp only [readFrom, hargument h]
    exact .help (not_misreadAfter_information settings) List.mem_cons_self
  | version h hm ih =>
    simp only [readFrom, hargument h]
    exact .version (not_misreadAfter_information settings) List.mem_cons_self
  | color h hm ih | json h hm ih =>
    simp only [readFrom, hargument h]
    exact (ih _).other rfl rfl rfl
  | parseOnly h hm ih =>
    simp only [readFrom, hargument h]
    apply (ih _).cons
    · simp
    · simp
    · simp
    · simp [Item.input?]
    · simp [Item.input?]
    · simp [Item.rules?]
    · simp
  | missingValue h =>
    simp only [readFrom, hargument h]
    exact .misread _ (.inr (.inl (by simp [reached])))
  | @setting text setting value more is h hm ih =>
    simp only [readFrom, hargument h]
    cases hg : settings.give setting value with
    | ok later => exact (ih later).give hg
    | error e => exact .misread e (misreadAfter_give hg)
  | @settingTo text value setting more is h hm ih =>
    simp only [readFrom, hargument h]
    cases hg : settings.give setting value with
    | ok later => exact (ih later).give hg
    | error e => exact .misread e (misreadAfter_give hg)
  | nothingFollows h hb =>
    simp only [readFrom, hargument h, (isBlankText_iff _).2 hb, if_true]
    exact settles_process settings
  | @textFollows text more h hb =>
    simp only [readFrom, hargument h, (isBlankText_eq_false_iff _).2 hb, Bool.false_eq_true, if_false]
    exact settles_giveWords settings more
  | unknown h hm ih =>
    simp only [readFrom, hargument h]
    exact .misread _ (.inl (by rw [reached_cons (by simp)]; exact List.mem_cons_self))
  | @word text more h =>
    simp only [readFrom, hargument h]
    exact settles_giveWords settings (text :: more)

private theorem orderOf_eq_error_iff (input : Input) : (∃ e, orderOf input = .error e) ↔
    ∃ json, input = .order json ∧ (Json.read? json = none ∨
      ∃ value mismatch, Json.read? json = some value ∧ Order.ofJson value = .error mismatch) := by
  cases input with
  | note text => simp [orderOf]
  | order json =>
    cases hr : Json.read? json with
    | none => simp [orderOf, hr]
    | some value => cases ho : Order.ofJson value <;> simp [orderOf, hr, ho]

section
variable {is : List Item} {standardInput : ByteArray}

private theorem chosen?_eq_order_iff (json : String) :
    chosen? is standardInput = some (.order json) ↔ (inputs is).head? = some (.order json) := by
  rw [chosen?]
  cases (inputs is).head? with
  | some input => rfl
  | none => simp

private theorem rejected_iff (standardInput : ByteArray) (h : ¬Misread is) (hi : .information ∉ is) :
    Rejected is ↔ ∃ input, chosen? is standardInput = some input ∧ ¬Blank input.text ∧
      ∃ e, orderOf input = .error e := by
  simp only [orderOf_eq_error_iff]
  constructor
  · rintro ⟨-, -, json, hj, hb, hr⟩
    exact ⟨.order json, (chosen?_eq_order_iff json).2 hj, hb, json, rfl, hr⟩
  · rintro ⟨_, hj, hb, json, rfl, hr⟩
    exact ⟨h, hi, json, (chosen?_eq_order_iff json).1 hj, hb, hr⟩

private theorem misused_iff (standardInput : ByteArray) (h : ¬Misread is) (hi : .information ∉ is) :
    Misused is standardInput ↔ chosen? is standardInput = none ∨
      ∃ input, chosen? is standardInput = some input ∧ Blank input.text :=
  ⟨fun hm => (hm.resolve_left h).2, fun hm => .inr ⟨hi, hm⟩⟩

private theorem inputOr_eq {settings : Settings} (hs : settings.input = (inputs is).head?) :
    settings.inputOr standardInput =
      match chosen? is standardInput with
      | none => .error .undecodableInput
      | some input => refuseBlank input := by
  rw [Settings.inputOr, chosen?, ← hs, decodeInput]
  cases settings.input with
  | some input => rfl
  | none => cases String.fromUTF8? standardInput <;> rfl

end

/-- The ways in which the tool may end. -/
inductive Ends (is : List Item) (surroundings : Surroundings) : Output → Prop
  | success (stdout : String) (hm : ¬Misused is surroundings.standardInput) (hr : ¬Rejected is)
    (hu : ¬Unruled is surroundings) : Ends is surroundings (.success stdout)
  | rejected (message : String) (hm : ¬Misused is surroundings.standardInput) (hr : Rejected is) :
    Ends is surroundings (.inputError message)
  | unruled (reason : String) (hu : Unruled is surroundings) (hl : Unlisted is surroundings reason) :
    Ends is surroundings (.inputError ("failed to read rule set " ++
      rulesDirectory is surroundings.rulesVariable ++ ": " ++ reason))
  | misused (e : UsageError) (hm : Misused is surroundings.standardInput) (hr : ¬Rejected is) :
    Ends is surroundings (.usageError e)

section
variable {is : List Item} {surroundings : Surroundings}

private theorem ends_informed (h : ¬Misread is) (hi : .information ∈ is) (stdout : String) :
    Ends is surroundings (.success stdout) :=
  .success stdout (fun hm => hm.elim h fun hn => hn.1 hi) (fun hr => hr.2.1 hi) fun hu => hu.2.2.1 hi

private theorem rulesPath_eq {settings : Settings} (hrules : settings.rules = givenRules? is)
    (rulesVariable : Option String) :
    settings.rulesPath rulesVariable = rulesDirectory is rulesVariable := by
  rw [Settings.rulesPath, hrules]
  unfold rulesDirectory
  cases givenRules? is <;> cases rulesVariable <;> rfl

private theorem reached_eq_self (hi : .information ∉ is) : reached is = is := by
  rw [reached, List.takeWhile_eq_self_iff]
  intro item hm
  refine decide_eq_true ?_
  rintro rfl
  exact hi hm

private theorem answer_ends {settings : Settings} (hm : ¬Misused is surroundings.standardInput)
    (hr : ¬Rejected is) (hi : .information ∉ is) (hrules : settings.rules = givenRules? is)
    (hparse : settings.parseOnly = true ↔ .parseOnly ∈ is) (order : Order) :
    Ends is surroundings
      (match answer settings order surroundings with
        | .ok text => .success text
        | .error failure => .inputError failure.message) := by
  by_cases hp : settings.parseOnly = true
  · simp only [answer, if_pos hp]
    exact .success _ hm hr fun hu => hu.2.2.2.1 (hparse.1 hp)
  · simp only [answer, if_neg hp, rulesPath_eq hrules]
    cases hl : surroundings.listing (rulesDirectory is surroundings.rulesVariable) with
    | ok folder =>
      refine .success _ hm hr fun hu => ?_
      obtain ⟨reason, hreason⟩ := hu.2.2.2.2
      rw [Unlisted, hl] at hreason
      cases hreason
    | error reason => exact .unruled reason ⟨hm, hr, hi, mt hparse.2 hp, reason, hl⟩ hl

private theorem process_ends {settings : Settings} (h : ¬Misread is) (hi : .information ∉ is)
    (hinput : settings.input = (inputs is).head?) (hrules : settings.rules = givenRules? is)
    (hparse : settings.parseOnly = true ↔ .parseOnly ∈ is) :
    Ends is surroundings (process settings surroundings) := by
  have hm := misused_iff surroundings.standardInput h hi
  have hr := rejected_iff surroundings.standardInput h hi
  rw [process, inputOr_eq hinput]
  cases hc : chosen? is surroundings.standardInput with
  | none =>
    simp only [hc, reduceCtorEq, false_and, exists_false] at hr
    exact .misused _ (hm.2 (.inl hc)) hr.1
  | some input =>
    simp only [hc, Option.some.injEq, reduceCtorEq, false_or, exists_eq_left'] at hm hr
    by_cases hb : Blank input.text
    · simp only [refuseBlank, (isBlankText_iff _).2 hb, if_true]
      exact .misused _ (hm.2 hb) fun hrej => (hr.1 hrej).1 hb
    · simp only [refuseBlank, (isBlankText_eq_false_iff _).2 hb, Bool.false_eq_true, if_false]
      have hmisused : ¬Misused is surroundings.standardInput := mt hm.1 hb
      cases ho : orderOf input with
      | error e => exact .rejected e.message hmisused (hr.2 ⟨hb, e, ho⟩)
      | ok order =>
        have hrejected : ¬Rejected is := by
          intro hrej
          obtain ⟨-, e, he⟩ := hr.1 hrej
          rw [ho] at he
          cases he
        exact answer_ends hmisused hrejected hi hrules hparse order

private theorem run_ends {arguments : List String} (hc : Cut arguments is)
    (surroundings : Surroundings) :
    Ends is surroundings (run arguments surroundings) := by
  have hs := readFrom_settles hc {}
  have hmisread : MisreadAfter {} is ↔ Misread is := by simp [MisreadAfter, Misread]
  rw [run, read]
  generalize readFrom {} arguments = request at hs
  cases hs with
  | misread e h => exact .misused e (.inl (hmisread.1 h)) fun hr => hr.1 (hmisread.1 h)
  | help h hi => exact ends_informed (mt hmisread.2 h) hi _
  | version h hi => exact ends_informed (mt hmisread.2 h) hi _
  | process settings h hi hinput hrules hparse =>
    rw [reached_eq_self hi] at hparse
    exact process_ends (mt hmisread.2 h) hi (by simpa using hinput) (by simpa using hrules)
      (by simpa using hparse)

private theorem Ends.exitCode_eq_one_iff {output : Output} (h : Ends is surroundings output) :
    output.exitCode = 1 ↔ Rejected is ∨ Unruled is surroundings := by
  cases h with
  | success stdout hm hr hu => simp [Output.success, hr, hu]
  | rejected message hm hr => simp [Output.inputError, hr]
  | unruled reason hu => simp [Output.inputError, hu]
  | misused e hm hr =>
    have hu : ¬Unruled is surroundings := fun hu => hu.1 hm
    simp [Output.usageError, hr, hu]

private theorem Ends.exitCode_eq_two_iff {output : Output} (h : Ends is surroundings output) :
    output.exitCode = 2 ↔ Misused is surroundings.standardInput := by
  cases h with
  | success stdout hm hr => simp [Output.success, hm]
  | rejected message hm hr => simp [Output.inputError, hm]
  | unruled reason hu => simp [Output.inputError, hu.1]
  | misused e hm hr => simp [Output.usageError, hm]

private theorem inputError_stderr (message : String) :
    "error: ".toList <+: (Output.inputError message).stderr.toList := by
  rw [Output.inputError, String.append_assoc, String.toList_append]
  exact List.prefix_append ..

private theorem Ends.streams {output : Output} (h : Ends is surroundings output) :
    output.exitCode = 0 ∧ output.stderr = "" ∨
      output.exitCode = 1 ∧ output.stdout = "" ∧ "error: ".toList <+: output.stderr.toList ∨
      output.exitCode = 2 ∧ output.stdout = "" := by
  cases h with
  | success stdout => exact .inl ⟨rfl, rfl⟩
  | rejected message => exact .inr (.inl ⟨rfl, rfl, inputError_stderr _⟩)
  | unruled reason => exact .inr (.inl ⟨rfl, rfl, inputError_stderr _⟩)
  | misused e => exact .inr (.inr ⟨rfl, rfl⟩)

private theorem Ends.stderr_of_unruled {output : Output} (h : Ends is surroundings output)
    (hu : Unruled is surroundings) {reason : String} (hl : Unlisted is surroundings reason) :
    output.stderr = "error: failed to read rule set " ++
      rulesDirectory is surroundings.rulesVariable ++ ": " ++ reason ++ "\n" := by
  cases h with
  | success stdout hm hr hn => exact absurd hu hn
  | rejected message hm hr => exact absurd hr hu.2.1
  | unruled other _ ho =>
    have he : other = reason := Except.error.inj (ho.symm.trans hl)
    rw [he, Output.inputError, ← String.append_assoc, ← String.append_assoc, ← String.append_assoc]
    rfl
  | misused e hm => exact absurd hm hu.1

end

private theorem run_exitCode_congr {arguments : List String} {is : List Item} (hc : Cut arguments is)
    {surroundings others : Surroundings} (hi : others.standardInput = surroundings.standardInput)
    (hl : (∃ reason, Unlisted is others reason) ↔ ∃ reason, Unlisted is surroundings reason) :
    (run arguments others).exitCode = (run arguments surroundings).exitCode := by
  have hunruled : Unruled is others ↔ Unruled is surroundings := by rw [Unruled, Unruled, hi, hl]
  have h := run_ends hc surroundings
  have ho := run_ends hc others
  have hone : (run arguments others).exitCode = 1 ↔ (run arguments surroundings).exitCode = 1 := by
    rw [ho.exitCode_eq_one_iff, h.exitCode_eq_one_iff, hunruled]
  have htwo : (run arguments others).exitCode = 2 ↔ (run arguments surroundings).exitCode = 2 := by
    rw [ho.exitCode_eq_two_iff, h.exitCode_eq_two_iff, hi]
  have hcode := h.streams.imp And.left (Or.imp And.left And.left)
  have hcodeOther := ho.streams.imp And.left (Or.imp And.left And.left)
  omega

/-- The arguments are cut into items in one way, and the items decide how the tool ends. It succeeds and
writes no error, or it writes an error only: with 1 exactly if the arguments are right and give an order
that is none, or an order is to be worked out and its rules cannot be listed; with 2 exactly if the
arguments are wrong or lack an input. A note ends with 1 only if the rules cannot be listed, and what is
found among the rules has no part in how the tool ends. -/
theorem run_outcome (arguments : List String) :
    ∃ is, Cut arguments is ∧ (∀ others, Cut arguments others → others = is) ∧
      ∀ surroundings : Surroundings,
        let output := run arguments surroundings
        (output.exitCode = 0 ∧ output.stderr = "" ∨
          output.exitCode = 1 ∧ output.stdout = "" ∧ "error: ".toList <+: output.stderr.toList ∨
          output.exitCode = 2 ∧ output.stdout = "") ∧
        (output.exitCode = 1 ↔ Rejected is ∨ Unruled is surroundings) ∧
        (output.exitCode = 2 ↔ Misused is surroundings.standardInput) ∧
        (∀ text, chosen? is surroundings.standardInput = some (.note text) →
          output.exitCode = 1 → Unruled is surroundings) ∧
        (∀ reason, Unruled is surroundings → Unlisted is surroundings reason →
          output.stderr = "error: failed to read rule set " ++
            rulesDirectory is surroundings.rulesVariable ++ ": " ++ reason ++ "\n") ∧
        ∀ others : Surroundings, others.standardInput = surroundings.standardInput →
          ((∃ reason, Unlisted is others reason) ↔ ∃ reason, Unlisted is surroundings reason) →
          (run arguments others).exitCode = output.exitCode := by
  obtain ⟨is, hc⟩ := exists_cut arguments
  refine ⟨is, hc, fun others => hc.unique, fun surroundings => ?_⟩
  have h := run_ends hc surroundings
  refine ⟨h.streams, h.exitCode_eq_one_iff, h.exitCode_eq_two_iff, ?_, ?_, ?_⟩
  · intro text hn he
    refine (h.exitCode_eq_one_iff.1 he).resolve_left fun hr => ?_
    obtain ⟨-, -, json, hj, -⟩ := hr
    rw [(chosen?_eq_order_iff json).2 hj] at hn
    cases hn
  · intro reason hu hl
    exact h.stderr_of_unruled hu hl
  · intro others hi hl
    exact run_exitCode_congr hc hi hl

/-- A note ends with 1 if the directory of the rules refuses to be listed, and a blank order, which is no
JSON, ends with 2. -/
theorem run_unlisted_or_blank :
    let refusing : Surroundings :=
      ⟨.empty, none, fun _ => .error "Permission denied (os error 13)", ⟨"", "", ""⟩⟩
    run ["--input", "a: b"] refusing =
      ⟨1, "", "error: failed to read rule set rules: Permission denied (os error 13)\n"⟩ ∧
    Json.read? " " = none ∧ (run ["--order", " "] refusing).exitCode = 2 := by
  refine ⟨?_, ?_, ?_⟩
  · rfl
  · cbv
  · rfl

end Millwork.CommandLine
