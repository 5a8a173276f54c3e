import Millwork.Proofs.Measurement.Magnitude
/-!
# Numbers with a unit

A number alone may have a point and digits behind it. With a unit behind it only the last run of its digits
is read: the searches pass over what stands in front of that run.
-/
namespace Millwork.Measurement
open Text Decimal

/-- The feet and the fractions of a text. -/
def feetAndFractions (s : List Char) : List Float :=
  ((feet.tokens s).head?.map fun n => amount n * 12).toList ++
    (fraction.tokens s).map fun f => amount f.1 / amount f.2

/-- The text without them. -/
def remainder (s : List Char) : List Char :=
  fraction.without (feet.without s)

/-- What is read of the remainder of a text: its first inches, and a number if nothing else is left. -/
def leftOver (s : List Char) : List Float :=
  match inches.cutFirst? s with
  | some (n, rest) => amount n :: (plainNumber? rest).toList
  | none => (plainNumber? s).toList

theorem parts_eq (s : List Char) :
    parts s = feetAndFractions s ++ leftOver (remainder s) := by
  rw [parts, feetAndFractions, leftOver, remainder]
  cases inches.cutFirst? (fraction.without (feet.without s)) with
  | none => simp
  | some found => simp

private theorem parts_of_tokens_eq_nil {s : List Char} (hfeet : feet.tokens s = [])
    (hfraction : fraction.tokens s = []) : parts s = leftOver s := by
  rw [parts_eq, feetAndFractions, remainder, Pattern.without_of_tokens_eq_nil hfeet, hfeet,
    Pattern.without_of_tokens_eq_nil hfraction, hfraction]
  rfl

def IsLead (lead : List Char) : Prop :=
  lead = [] ∨ ∃ whole, IsRun whole ∧ lead = whole ++ ['.']

section Lead
variable {lead : List Char}

theorem IsLead.passes {α : Type} {p : Pattern α} (hp : StartsWithDigit p) {s : List Char}
    (h : IsLead lead) (hn : ∀ r, IsRun r → p.read (r ++ ('.' :: s)) = none) : p.Passes lead s := by
  rcases h with rfl | ⟨whole, hw, rfl⟩
  · intro t ht hne
    exact absurd (List.suffix_nil.1 ht) hne
  · exact passes_token hp hw (by simp [NoDigit]) hn

private theorem endsRun_point (s : List Char) : EndsRun ('.' :: s) := rfl

private theorem skipBlanks_point (s : List Char) : skipBlanks ('.' :: s) = '.' :: s :=
  skipBlanks_eq_self rfl

private theorem IsLead.passes_feet (h : IsLead lead) (s : List Char) : feet.Passes lead s := by
  refine h.passes feet_startsWithDigit fun r hr => ?_
  rw [feet_read_run hr (endsRun_point s)]
  simp [feetMark, skipBlanks_point]

private theorem IsLead.passes_fraction (h : IsLead lead) (s : List Char) : fraction.Passes lead s := by
  refine h.passes fraction_startsWithDigit fun r hr => ?_
  rw [fraction_read_run hr (endsRun_point s)]
  simp [slash, skipBlanks_point]

private theorem IsLead.passes_inches (h : IsLead lead) (s : List Char) : inches.Passes lead s := by
  refine h.passes inches_startsWithDigit fun r hr => ?_
  rw [inches_read_run hr (endsRun_point s)]
  simp [inchMark, skipBlanks_point]

theorem IsPlainNumber.getLast? {s : List Char} (h : IsPlainNumber s) :
    ∃ c, s.getLast? = some c ∧ c.isDigit = true := by
  have hrun : ∀ (front : List Char) {run : List Char}, IsRun run →
      ∃ c, (front ++ run).getLast? = some c ∧ c.isDigit = true := by
    intro front run hr
    obtain ⟨init, c, rfl⟩ := (List.eq_nil_or_concat run).resolve_left hr.nonempty
    exact ⟨c, by simp, hr.digits c (by simp)⟩
  obtain ⟨whole, hw, rfl | ⟨fraction, hf, rfl⟩⟩ := h
  · exact hrun [] hw
  · simpa using hrun (whole ++ ['.']) hf

private theorem IsLead.plainNumber?_eq_none (h : IsLead lead) {extra : List Char} (he : NoDigit extra) :
    plainNumber? (lead ++ extra) = none := by
  rcases h with rfl | ⟨whole, hw, rfl⟩
  · exact plainNumber?_of_noDigit he
  · rw [← Option.isNone_iff_eq_none, ← Option.isSome_eq_false_iff, ← Bool.not_eq_true,
      isPlainNumber_iff, List.append_assoc, List.singleton_append, trim_append_cons rfl]
    intro hplain
    obtain ⟨c, hlast, hc⟩ := hplain.getLast?
    rw [List.getLast?_append_of_ne_nil _ (List.cons_ne_nil _ _)] at hlast
    rcases List.mem_cons.1 (List.mem_of_getLast? hlast) with rfl | hmem
    · cases hc
    · rw [he c ((List.rdropWhile_prefix isBlank (l := extra)).subset hmem)] at hc
      cases hc

variable {run mark : List Char}

private theorem IsLead.parts_inches (h : IsLead lead) (hr : IsRun run) (hm : IsMark inchMarks mark)
    {extra : List Char} (he : NoDigit extra) :
    parts (lead ++ (run ++ mark ++ extra)) = [amount (ofDigits run)] ∧
      fraction.tokens (lead ++ (run ++ mark ++ extra)) = [] := by
  have hrow : Row NoDigit Component.Spelled [.inches run] (run ++ mark ++ extra) := by
    have hcons := Row.cons (List.forall_mem_nil _) (Component.Spelled.inches hr hm) (.nil he)
    rwa [List.nil_append] at hcons
  have hfeet : feet.tokens (lead ++ (run ++ mark ++ extra)) = [] := by
    rw [(h.passes_feet _).tokens, (hrow.search feet_startsWithDigit feet_meets).1]
    rfl
  have hfraction : fraction.tokens (lead ++ (run ++ mark ++ extra)) = [] := by
    rw [(h.passes_fraction _).tokens, (hrow.search fraction_startsWithDigit fraction_meets).1]
    rfl
  have hread : inches.read (run ++ mark ++ extra) = some (ofDigits run, extra) :=
    inches_read_eq_some_iff.2 ⟨run, mark, hr, hm, List.append_assoc _ _ _, rfl⟩
  have hcut : inches.cutFirst? (lead ++ (run ++ mark ++ extra)) =
      some (ofDigits run, lead ++ extra) := by
    rw [(h.passes_inches _).cutFirst?, Pattern.cutFirst?_of_read hread]
    rfl
  refine ⟨?_, hfraction⟩
  rw [parts_of_tokens_eq_nil hfeet hfraction, leftOver, hcut]
  simp [h.plainNumber?_eq_none he]

private theorem IsLead.parts_feet (h : IsLead lead) (hr : IsRun run) (hm : IsMark feetUnits mark) :
    parts (lead ++ (run ++ mark)) = [amount (ofDigits run) * 12] ∧
      fraction.tokens (lead ++ (run ++ mark)) = [] := by
  have hread : feet.read (run ++ mark) = some (ofDigits run, []) :=
    feet_read_eq_some_iff.2 ⟨run, mark, hr, hm, by rw [List.append_nil], rfl⟩
  have hrow : Row NoDigit Component.Spelled [.feet run] (run ++ mark) := by
    have hnone : NoDigit [] := List.forall_mem_nil _
    have hcons := Row.cons hnone (Component.Spelled.feet hr hm) (.nil hnone)
    rwa [List.nil_append, List.append_nil] at hcons
  have hfeet : feet.tokens (lead ++ (run ++ mark)) = [ofDigits run] := by
    rw [(h.passes_feet _).tokens, Pattern.tokens_of_read hread, Pattern.tokens_nil]
  have hfraction : fraction.tokens (lead ++ (run ++ mark)) = [] := by
    rw [(h.passes_fraction _).tokens, (hrow.search fraction_startsWithDigit fraction_meets).1]
    rfl
  have hwithout : feet.without (lead ++ (run ++ mark)) = lead := by
    rw [(h.passes_feet _).without, Pattern.without_of_read hread, Pattern.without_nil, List.append_nil]
  have hplain := h.plainNumber?_eq_none (List.forall_mem_nil _)
  rw [List.append_nil] at hplain
  refine ⟨?_, hfraction⟩
  rw [parts_eq, feetAndFractions, remainder, hfeet, hfraction, hwithout,
    (h.passes_fraction []).without_eq_self, leftOver,
    (h.passes_inches []).cutFirst?_eq_none]
  simp [hplain]

private theorem IsLead.parts_alone (h : IsLead lead) (hr : IsRun run) :
    parts (lead ++ run) = (plainNumber? (lead ++ run)).toList ∧ fraction.tokens (lead ++ run) = [] := by
  have hpass : ∀ {α : Type} {p : Pattern α}, p.Passes lead run →
      (∀ r, IsRun r → p.read (r ++ []) = none) → p.Passes (lead ++ run) [] := by
    intro α p hlead hnone
    exact Pattern.Passes.append (by rwa [List.append_nil]) (passes_run hnone hr)
  have hends : EndsRun [] := rfl
  have hfeet : feet.Passes (lead ++ run) [] := by
    refine hpass (h.passes_feet run) fun r hrun => ?_
    rw [feet_read_run hrun hends]
    rfl
  have hfraction : fraction.Passes (lead ++ run) [] := by
    refine hpass (h.passes_fraction run) fun r hrun => ?_
    rw [fraction_read_run hrun hends]
    rfl
  have hinches : inches.Passes (lead ++ run) [] := by
    refine hpass (h.passes_inches run) fun r hrun => ?_
    rw [inches_read_run hrun hends]
    rfl
  refine ⟨?_, hfraction.tokens_eq_nil⟩
  rw [parts_of_tokens_eq_nil hfeet.tokens_eq_nil hfraction.tokens_eq_nil, leftOver,
    hinches.cutFirst?_eq_none]

end Lead

private theorem IsPlainNumber.exists_lead {d : List Char} (h : IsPlainNumber d) :
    ∃ lead run, IsLead lead ∧ IsRun run ∧ d = lead ++ run ∧ d.rtakeWhile Char.isDigit = run ∧
      ('.' ∉ d → lead = []) := by
  have hreverse : ∀ {run : List Char}, IsRun run → ∀ c ∈ run.reverse, c.isDigit = true :=
    fun hr c hc => hr.digits c (List.mem_reverse.1 hc)
  obtain ⟨whole, hw, rfl | ⟨fraction, hf, rfl⟩⟩ := h
  · refine ⟨[], _, .inl rfl, hw, rfl, ?_, fun _ => rfl⟩
    rw [List.rtakeWhile, List.takeWhile_eq_self_iff.2 (hreverse hw), List.reverse_reverse]
  · refine ⟨whole ++ ['.'], fraction, .inr ⟨whole, hw, rfl⟩, hf, by simp, ?_, ?_⟩
    · rw [List.rtakeWhile, List.reverse_append, List.reverse_cons, List.append_assoc,
        List.takeWhile_append_of_pos (hreverse hf)]
      simp
    · intro hpoint
      exact absurd (by simp) hpoint

theorem IsPlainNumber.isSmall {d : List Char} (h : IsPlainNumber d) : ∀ c ∈ d, IsSmall c.toNat := by
  have hrun : ∀ {run : List Char}, IsRun run → ∀ c ∈ run, IsSmall c.toNat := by
    intro run hr c hc
    have hdigit := (isDigit_iff c).1 (hr.digits c hc)
    exact isSmall_of_lt (by omega) (by omega)
  obtain ⟨whole, hw, rfl | ⟨fraction, hf, rfl⟩⟩ := h
  · exact hrun hw
  · refine List.forall_mem_append.2 ⟨hrun hw, List.forall_mem_cons.2 ⟨?_, hrun hf⟩⟩
    exact isSmall_of_lt (by decide) (by decide)

theorem IsPlainNumber.head?_isBlank {d : List Char} (h : IsPlainNumber d) (rest : List Char) :
    (d ++ rest).head?.any isBlank = false := by
  obtain ⟨whole, hw, rfl | ⟨fraction, hf, rfl⟩⟩ := h
  · exact hw.head?_isBlank rest
  · rw [List.append_assoc]
    exact hw.head?_isBlank _

theorem IsPlainNumber.trim {d : List Char} (h : IsPlainNumber d) : Text.trim d = d := by
  have hhead := h.head?_isBlank []
  rw [List.append_nil] at hhead
  obtain ⟨c, hlast, hc⟩ := h.getLast?
  exact (trim_eq_self_iff d).2 ⟨hhead, by simp [hlast, isBlank_of_isDigit hc]⟩

theorem map_toLower_of_unit {unit : List Char} (h : unit ∈ feetUnits ++ inchUnits) :
    unit.map Char.toLower = unit := by
  have hunits : ∀ unit ∈ feetUnits ++ inchUnits, unit.map Char.toLower = unit := by decide
  exact hunits unit h

theorem isSmall_of_mem_unit {unit : List Char} (h : unit ∈ feetUnits ++ inchUnits) :
    ∀ c ∈ unit, IsSmall c.toNat := by
  have hmap := map_toLower_of_unit h
  intro c hc
  have hl := toNat_toLower c
  have hlower : c.toLower = c := List.map_inj_left.1 (hmap.trans (List.map_id unit).symm) c hc
  rw [hlower] at hl
  have hcode := (visible_of_unit (hmap.symm ▸ h)).2 c hc
  exact isSmall_of_lt (by omega) (by split at hl <;> omega)

private theorem IsPlainNumber.lower_trim_unit {d w unit : List Char} (h : IsPlainNumber d)
    (hw : AllBlank w) (hunit : unit ∈ feetUnits ++ inchUnits) :
    lower (Text.trim (d ++ (w ++ unit))) = d ++ (w ++ unit) := by
  refine lower_trim_eq_self ?_ (h.head?_isBlank _) ?_
  · exact List.forall_mem_append.2 ⟨h.isSmall, List.forall_mem_append.2
      ⟨fun c hc => isSmall_of_isBlank (hw c hc), isSmall_of_mem_unit hunit⟩⟩
  · obtain ⟨init, c, rfl, hc⟩ := exists_last_of_unit ((map_toLower_of_unit hunit).symm ▸ hunit)
    simp [hc]

private theorem plainNumber?_run {run : List Char} (hr : IsRun run) :
    plainNumber? run = some (amount (ofDigits run)) := by
  have hl : Literal.WellFormed ⟨run, false, [], none⟩ :=
    ⟨hr.digits, List.forall_mem_nil _, fun _ => rfl, .inl hr.nonempty, nofun⟩
  have hread := Literal.read?_spelling hl ends_nil
  simp only [Literal.spelling, Bool.false_eq_true, if_false, List.append_nil, Option.map_none,
    Option.getD_none] at hread
  have htrim : trim run = run := IsPlainNumber.trim ⟨run, hr, .inl rfl⟩
  simp [plainNumber?, htrim, hread, isPlain, hr.nonempty, Literal.toFloat, Literal.significand,
    Literal.scale, amount]

private theorem read_part {s : List Char} {x : Float} (hs : lower (trim s) = s) (hx : IsPositive x)
    (hparts : parts s = [x]) (hfraction : fraction.tokens s = []) :
    read (String.ofList s) = .ok x := by
  refine (read_eq_ok_iff _ x).2 ?_
  rw [String.toList_ofList, hs, hparts, hfraction]
  refine ⟨List.forall_mem_nil _, List.cons_ne_nil _ _, ?_⟩
  exact hx.zero_add.symm

/-- Of a number with a unit the last run of digits is counted, also where the number has a point and
means something else without the unit. -/
theorem read_unit {d w u v : List Char} (hd : IsPlainNumber d) (hw : AllBlank w)
    (hu : u ∈ inchUnits) (hv : v ∈ feetUnits) :
    ∃ x, read (String.ofList d) = .ok x ∧
      let counted := amount (ofDigits (d.rtakeWhile Char.isDigit))
      read (String.ofList (d ++ (w ++ u))) = .ok counted ∧
        read (String.ofList (d ++ (w ++ v))) = .ok (counted * 12) ∧ ('.' ∉ d → x = counted) := by
  have halone : lower (trim d) = d := by
    rw [hd.trim, lower_of_isSmall hd.isSmall]
  have hinches := hd.lower_trim_unit hw (List.mem_append_right _ hu)
  have hfeet := hd.lower_trim_unit hw (List.mem_append_left _ hv)
  obtain ⟨x, hx⟩ := Option.isSome_iff_exists.1 ((isPlainNumber_iff d).2 (hd.trim.symm ▸ hd))
  obtain ⟨l, rfl⟩ := exists_literal_of_plainNumber? hx
  obtain ⟨lead, run, hlead, hr, rfl, hrun, hpoint⟩ := hd.exists_lead
  obtain ⟨mark, extra, hm, hextra, rfl⟩ := exists_inchMark hu
  have hpositive := amount_positive (ofDigits run)
  rw [hrun]
  refine ⟨l.toFloat, ?_, ?_, ?_, ?_⟩
  · obtain ⟨hparts, hfraction⟩ := hlead.parts_alone hr
    rw [hx] at hparts
    exact read_part halone (isPositive_nearest _ _) hparts hfraction
  · have hshape : lead ++ run ++ (w ++ (mark ++ extra)) = lead ++ (run ++ (w ++ mark) ++ extra) := by
      simp
    obtain ⟨hparts, hfraction⟩ := hlead.parts_inches hr ⟨w, mark, hw, hm, rfl⟩ hextra
    rw [← hshape] at hparts hfraction
    exact read_part hinches hpositive hparts hfraction
  · obtain ⟨hparts, hfraction⟩ := hlead.parts_feet hr ⟨w, v, hw, hv, rfl⟩
    rw [← List.append_assoc] at hparts hfraction
    exact read_part hfeet (hpositive.mul digits_twelve.isPositive) hparts hfraction
  · intro hno
    obtain rfl := hpoint hno
    rw [List.nil_append, plainNumber?_run hr] at hx
    exact (Option.some.inj hx).symm

/-- A number without a point, with a word for the inches and for the feet. -/
theorem read_unit_twelve :
    let d := ['1', '2']
    IsPlainNumber d ∧ AllBlank [' '] ∧ ['i', 'n', 'c', 'h'] ∈ inchUnits ∧ ['f', 't'] ∈ feetUnits ∧
      ∃ x, read (String.ofList d) = .ok x ∧ read "12 inch" = .ok x ∧ read "12 ft" = .ok (x * 12) := by
  intro d
  have hd : IsPlainNumber d := ⟨d, by decide, .inl rfl⟩
  have hblank : AllBlank [' '] := by decide
  have hu : ['i', 'n', 'c', 'h'] ∈ inchUnits := by decide
  have hv : ['f', 't'] ∈ feetUnits := by decide
  obtain ⟨x, hx, hinches, hfeet, hsame⟩ := read_unit hd hblank hu hv
  obtain rfl := hsame (by decide)
  exact ⟨hd, hblank, hu, hv, _, hx, hinches, hfeet⟩

/-- Two and a half inches are read as five inches, and two and a half feet as five feet. -/
theorem read_unit_decimal :
    read "2.5" = .ok 2.5 ∧ read "2.5 in" = .ok 5 ∧ read "2.5 ft" = .ok 60 := by
  decide +kernel

end Millwork.Measurement
