import Millwork.Proofs.Measurement.Outcome
/-!
# Sums of components

A measurement that is a row of components, feet, inches and fractions of an inch in any order, is read as
their sum. Cutting out one kind of components leaves a row of the others, so each search finds exactly the
components of its kind.
-/
namespace Millwork.Measurement
open Text Decimal

/-- A part of a measurement, with the digits that stand for it. -/
inductive Component
  | feet (count : List Char)
  | inches (count : List Char)
  | fraction (numerator denominator : List Char)
deriving DecidableEq

namespace Component
def feet? : Component → Option Nat
  | feet count => some (ofDigits count)
  | inches _ | fraction _ _ => none

def inches? : Component → Option Nat
  | inches count => some (ofDigits count)
  | feet _ | fraction _ _ => none

def fraction? : Component → Option (Nat × Nat)
  | fraction numerator denominator => some (ofDigits numerator, ofDigits denominator)
  | feet _ | inches _ => none

/-- The summands in the order in which they are added: feet, every fraction as it comes, inches. -/
def summands (components : List Component) : List Float :=
  (components.filterMap feet?).map (fun n => amount n * 12) ++
    (components.filterMap fraction?).map (fun f => amount f.1 / amount f.2) ++
    (components.filterMap inches?).map amount

/-- The inches that components add up to. -/
def total (components : List Component) : Float :=
  (summands components).foldl (· + ·) 0.0

/-- A component as it is written: digits, blanks and a unit in capital or small letters. -/
inductive Written : Component → List Char → Prop
  | feet {count blanks unit : List Char} (hc : IsRun count) (hb : AllBlank blanks)
    (hu : unit.map Char.toLower ∈ feetUnits) : Written (.feet count) (count ++ (blanks ++ unit))
  | inches {count blanks unit : List Char} (hc : IsRun count) (hb : AllBlank blanks)
    (hu : unit.map Char.toLower ∈ inchUnits) : Written (.inches count) (count ++ (blanks ++ unit))
  | fraction {numerator bar denominator blanks unit : List Char} (hn : IsRun numerator)
    (hbar : IsSlash bar) (hd : IsRun denominator) (hb : AllBlank blanks)
    (hu : unit.map Char.toLower ∈ inchUnits) :
    Written (.fraction numerator denominator)
      (numerator ++ (bar ++ (denominator ++ (blanks ++ unit))))

/-- A component in small letters, as far as it is read. -/
inductive Spelled : Component → List Char → Prop
  | feet {count mark : List Char} (hc : IsRun count) (hm : IsMark feetUnits mark) :
    Spelled (.feet count) (count ++ mark)
  | inches {count mark : List Char} (hc : IsRun count) (hm : IsMark inchMarks mark) :
    Spelled (.inches count) (count ++ mark)
  | fraction {numerator bar denominator mark : List Char} (hn : IsRun numerator)
    (hbar : IsSlash bar) (hd : IsRun denominator) (hm : IsMark inchMarks mark) :
    Spelled (.fraction numerator denominator) (numerator ++ (bar ++ (denominator ++ mark)))

end Component

/-- Components one behind the other, with gaps between and around them. -/
inductive Row (IsGap : List Char → Prop) (Spelling : Component → List Char → Prop) :
    List Component → List Char → Prop
  | nil {gap : List Char} (hg : IsGap gap) : Row IsGap Spelling [] gap
  | cons {gap token rest : List Char} {c : Component} {cs : List Component} (hg : IsGap gap)
    (ht : Spelling c token) (hr : Row IsGap Spelling cs rest) :
    Row IsGap Spelling (c :: cs) (gap ++ (token ++ rest))

theorem passes_token {α : Type} {p : Pattern α} (hp : StartsWithDigit p) {run mark rest : List Char}
    (hr : IsRun run) (hm : NoDigit mark)
    (hn : ∀ r, IsRun r → p.read (r ++ (mark ++ rest)) = none) : p.Passes (run ++ mark) rest :=
  (passes_run hn hr).append (hp.passes_gap hm rest)

def Meets {α : Type} (p : Pattern α) (part? : Component → Option α) : Prop :=
  ∀ c token rest, c.Spelled token →
    (∃ a, part? c = some a ∧ p.read (token ++ rest) = some (a, rest)) ∨
      (part? c = none ∧ p.Passes token rest)

theorem feet_meets : Meets feet Component.feet? := by
  intro c token rest h
  have hrefused : ∀ mark behind, IsMark inchMarks mark ∨ IsSlash mark → EndsRun (mark ++ behind) →
      ∀ r, IsRun r → feet.read (r ++ (mark ++ behind)) = none := by
    intro mark behind hm he r hr
    rw [feet_read_run hr he, feetMark_eq_none hm]
    rfl
  cases h with
  | @feet count mark hc hm =>
    refine .inl ⟨_, rfl, feet_read_eq_some_iff.2 ⟨count, mark, hc, hm, ?_, rfl⟩⟩
    rw [List.append_assoc]
  | @inches count mark hc hm =>
    exact .inr ⟨rfl, passes_token feet_startsWithDigit hc (hm.noDigit (by decide))
      (hrefused mark rest (.inl hm) (hm.endsRun_inches rest))⟩
  | @fraction numerator bar denominator mark hn hbar hd hm =>
    have hback := passes_token feet_startsWithDigit hd (hm.noDigit (by decide))
      (hrefused mark rest (.inl hm) (hm.endsRun_inches rest))
    have hfront := passes_token feet_startsWithDigit hn hbar.noDigit
      (hrefused bar _ (.inr hbar) (hbar.endsRun (denominator ++ mark ++ rest)))
    refine .inr ⟨rfl, ?_⟩
    rw [← List.append_assoc]
    exact hfront.append hback

theorem fraction_meets : Meets fraction Component.fraction? := by
  intro c token rest h
  have hrefused : ∀ mark, IsMark inchMarks mark ∨ IsMark feetUnits mark → EndsRun (mark ++ rest) →
      ∀ r, IsRun r → fraction.read (r ++ (mark ++ rest)) = none := by
    intro mark hm he r hr
    rw [fraction_read_run hr he, slash_eq_none hm]
    rfl
  cases h with
  | @feet count mark hc hm =>
    exact .inr ⟨rfl, passes_token fraction_startsWithDigit hc (hm.noDigit (by decide))
      (hrefused mark (.inr hm) (hm.endsRun_feet rest))⟩
  | @inches count mark hc hm =>
    exact .inr ⟨rfl, passes_token fraction_startsWithDigit hc (hm.noDigit (by decide))
      (hrefused mark (.inl hm) (hm.endsRun_inches rest))⟩
  | @fraction numerator bar denominator mark hn hbar hd hm =>
    have hinches : inches.read (denominator ++ (mark ++ rest)) = some (ofDigits denominator, rest) :=
      inches_read_eq_some_iff.2 ⟨denominator, mark, hd, hm, rfl, rfl⟩
    refine .inl ⟨_, rfl, ?_⟩
    refine fraction_read_eq_some_iff.2 ⟨numerator, bar, _, hn, hbar, hinches, ?_, rfl⟩
    simp only [List.append_assoc]

variable {cs : List Component} {s : List Char}

private theorem Row.prepend {gap : List Char} (hg : NoDigit gap)
    (h : Row NoDigit Component.Spelled cs s) :
    Row NoDigit Component.Spelled cs (gap ++ s) := by
  cases h with
  | nil hs => exact .nil (noDigit_append.2 ⟨hg, hs⟩)
  | cons hs ht hr =>
    rw [← List.append_assoc]
    exact .cons (noDigit_append.2 ⟨hg, hs⟩) ht hr

/-- A search finds the components of its kind, and without them the row is one of the others. -/
theorem Row.search {α : Type} {p : Pattern α} {part? : Component → Option α}
    (hp : StartsWithDigit p) (hm : Meets p part?) (h : Row NoDigit Component.Spelled cs s) :
    p.tokens s = cs.filterMap part? ∧
      Row NoDigit Component.Spelled (cs.filter fun c => (part? c).isNone) (p.without s) := by
  induction h with
  | @nil gap hg =>
    have hpass := hp.passes_gap hg []
    rw [hpass.tokens_eq_nil, hpass.without_eq_self]
    exact ⟨rfl, .nil hg⟩
  | @cons gap token rest c cs hg ht hr ih =>
    obtain ⟨htokens, hrow⟩ := ih
    have hpass := hp.passes_gap hg (token ++ rest)
    rw [hpass.tokens, hpass.without]
    rcases hm c token rest ht with ⟨a, ha, hread⟩ | ⟨hnone, hover⟩
    · rw [Pattern.tokens_of_read hread, Pattern.without_of_read hread, htokens,
        List.filterMap_cons_some ha, List.filter_cons_of_neg (by simp [ha])]
      exact ⟨rfl, hrow.prepend hg⟩
    · rw [hover.tokens, hover.without, htokens, List.filterMap_cons_none hnone,
        List.filter_cons_of_pos (by simp [hnone])]
      exact ⟨rfl, .cons hg ht hrow⟩

theorem plainNumber?_of_noDigit (h : NoDigit s) : plainNumber? s = none := by
  rw [← Option.isNone_iff_eq_none, ← Option.isSome_eq_false_iff, ← Bool.not_eq_true,
    isPlainNumber_iff]
  rintro ⟨whole, hw, hs⟩
  have hfront : whole <+: trim s := by
    rcases hs with hs | ⟨fraction, -, hs⟩
    · exact ⟨[], by rw [hs, List.append_nil]⟩
    · exact ⟨_, hs.symm⟩
  obtain ⟨before, after, -, -, hsplit⟩ := exists_surrounded s
  obtain ⟨d, hd⟩ := List.exists_mem_of_ne_nil whole hw.nonempty
  have hmem : d ∈ s := by
    rw [hsplit]
    simp [hfront.subset hd]
  have hdigit := hw.digits d hd
  rw [h d hmem] at hdigit
  cases hdigit

/-- In a row of inches the first component is found, and if it is the only one, no number is left. -/
theorem Row.inches (h : Row NoDigit Component.Spelled cs s) (hlength : cs.length ≤ 1)
    (hc : ∀ c ∈ cs, c.feet? = none ∧ c.fraction? = none) :
    ((inches.cutFirst? s).map fun found => amount found.1).toList =
        (cs.filterMap Component.inches?).map amount ∧
      plainNumber? (((inches.cutFirst? s).map Prod.snd).getD s) = none := by
  cases h with
  | nil hg =>
    have hnone := (inches_startsWithDigit.passes_gap hg []).cutFirst?_eq_none
    simp [hnone, plainNumber?_of_noDigit hg]
  | @cons gap token rest c cs hg ht hr =>
    obtain rfl : cs = [] := by simpa using hlength
    obtain ⟨hfeet, hfraction⟩ := hc c List.mem_cons_self
    cases ht with
    | feet => cases hfeet
    | fraction => cases hfraction
    | @inches count mark hcount hm =>
      cases hr with
      | nil hrest =>
        have hread : inches.read (count ++ mark ++ rest) = some (ofDigits count, rest) :=
          inches_read_eq_some_iff.2 ⟨count, mark, hcount, hm, List.append_assoc _ _ _, rfl⟩
        have hgap := noDigit_append.2 ⟨hg, hrest⟩
        rw [(inches_startsWithDigit.passes_gap hg _).cutFirst?, Pattern.cutFirst?_of_read hread]
        simp [Component.inches?, plainNumber?_of_noDigit hgap]

private theorem Component.filterMap_inches? (cs : List Component) :
    let others := (cs.filter fun c => c.feet?.isNone).filter fun c => c.fraction?.isNone
    others.filterMap inches? = cs.filterMap inches? ∧
      others.length = (cs.filterMap inches?).length := by
  induction cs with
  | nil => exact ⟨rfl, rfl⟩
  | cons c cs ih =>
    cases c with
    | feet count | inches count | fraction n d =>
      simpa [feet?, fraction?, inches?, List.filterMap_cons] using ih

theorem parts_row (h : Row NoDigit Component.Spelled cs s)
    (hfeet : (cs.filterMap Component.feet?).length ≤ 1)
    (hinches : (cs.filterMap Component.inches?).length ≤ 1) :
    parts s = Component.summands cs := by
  obtain ⟨hfound, hwithoutFeet⟩ := h.search feet_startsWithDigit feet_meets
  obtain ⟨hfraction, -⟩ := h.search fraction_startsWithDigit fraction_meets
  obtain ⟨-, hwithout⟩ := hwithoutFeet.search fraction_startsWithDigit fraction_meets
  obtain ⟨hsame, hlength⟩ := Component.filterMap_inches? cs
  have hothers : ∀ c ∈ (cs.filter fun c => c.feet?.isNone).filter fun c => c.fraction?.isNone,
      c.feet? = none ∧ c.fraction? = none := by
    intro c hc
    obtain ⟨hc, hno⟩ := List.mem_filter.1 hc
    exact ⟨Option.isNone_iff_eq_none.1 (List.mem_filter.1 hc).2, Option.isNone_iff_eq_none.1 hno⟩
  obtain ⟨hwhole, hplain⟩ := hwithout.inches (hlength.trans_le hinches) hothers
  have hfirst : ((cs.filterMap Component.feet?).head?.map fun n => amount n * 12).toList =
      (cs.filterMap Component.feet?).map fun n => amount n * 12 := by
    cases hcs : cs.filterMap Component.feet? with
    | nil => rfl
    | cons n more =>
      rw [hcs] at hfeet
      obtain rfl : more = [] := by simpa using hfeet
      rfl
  rw [hsame] at hwhole
  simp only [parts, hfound, hfraction, hfirst, hwhole, hplain]
  simp [Component.summands]

private theorem Component.summands_ne_nil (h : cs ≠ []) : summands cs ≠ [] := by
  obtain ⟨c, cs, rfl⟩ := List.exists_cons_of_ne_nil h
  cases c with
  | feet count | inches count | fraction n d => simp [summands, feet?, inches?, fraction?]

theorem IsRun.map_toLower {t : List Char} (h : IsRun t) : t.map Char.toLower = t := by
  apply map_toLower_of
  intro c hc
  have hdigit := (isDigit_iff c).1 (h.digits c hc)
  omega

theorem AllBlank.map_toLower {t : List Char} (h : AllBlank t) : t.map Char.toLower = t := by
  apply map_toLower_of
  intro c hc
  exact ((isSmall_iff c.toNat).1 (isSmall_of_isBlank (h c hc))).1

theorem IsSlash.map_toLower {t : List Char} (h : IsSlash t) : t.map Char.toLower = t := by
  obtain ⟨before, after, hb, ha, rfl⟩ := h
  rw [List.map_append, List.map_cons, AllBlank.map_toLower hb, AllBlank.map_toLower ha]
  rfl

private def IsOrdinary (c : Char) : Prop :=
  c.toNat < 0x80 ∨ isBlank c = true

private theorem IsRun.isOrdinary {t : List Char} (h : IsRun t) : ∀ c ∈ t, IsOrdinary c := by
  intro c hc
  have hdigit := (isDigit_iff c).1 (h.digits c hc)
  exact .inl (by omega)

private theorem IsSlash.isOrdinary {t : List Char} (h : IsSlash t) : ∀ c ∈ t, IsOrdinary c := by
  obtain ⟨before, after, hb, ha, rfl⟩ := h
  intro c hc
  rcases List.mem_append.1 hc with hc | hc
  · exact .inr (hb c hc)
  · rcases List.mem_cons.1 hc with rfl | hc
    · exact .inl (by decide)
    · exact .inr (ha c hc)

theorem visible_of_unit {unit : List Char} (h : unit.map Char.toLower ∈ feetUnits ++ inchUnits) :
    unit ≠ [] ∧ ∀ c ∈ unit, 0x21 ≤ c.toNat ∧ c.toNat ≤ 0x7e := by
  have hunits : (feetUnits ++ inchUnits).all (fun u => !u.isEmpty &&
      u.all fun d => decide (0x21 ≤ d.toNat) && decide (d.toNat ≤ 0x7e)) = true := by
    decide
  have hunit := List.all_eq_true.1 hunits _ h
  rw [Bool.and_eq_true, Bool.not_eq_true', List.isEmpty_eq_false_iff, List.all_eq_true] at hunit
  refine ⟨by simpa using hunit.1, ?_⟩
  intro c hc
  have hl := toNat_toLower c
  have hd := hunit.2 _ (List.mem_map_of_mem hc)
  rw [Bool.and_eq_true, decide_eq_true_eq, decide_eq_true_eq] at hd
  split at hl <;> omega

theorem exists_last_of_unit {unit : List Char}
    (h : unit.map Char.toLower ∈ feetUnits ++ inchUnits) :
    ∃ init last, unit = init ++ [last] ∧ isBlank last = false := by
  obtain ⟨hne, hvisible⟩ := visible_of_unit h
  obtain ⟨init, last, rfl⟩ := (List.eq_nil_or_concat unit).resolve_left hne
  exact ⟨init, last, by simp, isBlank_of_visible (hvisible last (by simp))⟩

theorem exists_inchMark {unit : List Char} (h : unit ∈ inchUnits) :
    ∃ mark extra, mark ∈ inchMarks ∧ NoDigit extra ∧ unit = mark ++ extra := by
  simp only [inchUnits, List.mem_cons, List.not_mem_nil, or_false] at h
  rcases h with rfl | rfl | rfl
  · exact ⟨['i', 'n'], [], by decide, by simp [NoDigit], rfl⟩
  · exact ⟨['i', 'n'], ['c', 'h'], by decide, by simp [NoDigit], rfl⟩
  · exact ⟨['"'], [], by decide, by simp [NoDigit], rfl⟩

namespace Component
variable {c : Component} {token : List Char}

/-- In small letters a component is one as it is read, with what is left of the word `inch`. -/
theorem Written.small (h : c.Written token) :
    ∃ core extra, c.Spelled core ∧ NoDigit extra ∧ token.map Char.toLower = core ++ extra := by
  cases h with
  | @feet count blanks unit hc hb hu =>
    refine ⟨_, [], .feet hc ⟨blanks, _, hb, hu, rfl⟩, by simp [NoDigit], ?_⟩
    simp [hc.map_toLower, AllBlank.map_toLower hb]
  | @inches count blanks unit hc hb hu =>
    obtain ⟨mark, extra, hm, he, hunit⟩ := exists_inchMark hu
    refine ⟨_, extra, .inches hc ⟨blanks, mark, hb, hm, rfl⟩, he, ?_⟩
    simp [hc.map_toLower, AllBlank.map_toLower hb, hunit]
  | @fraction numerator bar denominator blanks unit hn hbar hd hb hu =>
    obtain ⟨mark, extra, hm, he, hunit⟩ := exists_inchMark hu
    refine ⟨_, extra, .fraction hn hbar hd ⟨blanks, mark, hb, hm, rfl⟩, he, ?_⟩
    simp [hn.map_toLower, hbar.map_toLower, hd.map_toLower, AllBlank.map_toLower hb, hunit]

private theorem isOrdinary_of_unit {unit : List Char}
    (h : unit.map Char.toLower ∈ feetUnits ++ inchUnits) :
    ∀ c ∈ unit, IsOrdinary c := by
  intro c hc
  have hvisible := (visible_of_unit h).2 c hc
  exact .inl (by omega)

private theorem Written.isOrdinary (h : c.Written token) : ∀ ch ∈ token, IsOrdinary ch := by
  have hblank : ∀ {blanks : List Char}, AllBlank blanks → ∀ ch ∈ blanks, IsOrdinary ch :=
    fun hb ch hc => .inr (hb ch hc)
  cases h with
  | feet hc hb hu =>
    have hunit := isOrdinary_of_unit (List.mem_append_left _ hu)
    exact List.forall_mem_append.2 ⟨hc.isOrdinary, List.forall_mem_append.2 ⟨hblank hb, hunit⟩⟩
  | inches hc hb hu =>
    have hunit := isOrdinary_of_unit (List.mem_append_right _ hu)
    exact List.forall_mem_append.2 ⟨hc.isOrdinary, List.forall_mem_append.2 ⟨hblank hb, hunit⟩⟩
  | fraction hn hbar hd hb hu =>
    have hunit := isOrdinary_of_unit (List.mem_append_right _ hu)
    exact List.forall_mem_append.2 ⟨hn.isOrdinary, List.forall_mem_append.2 ⟨hbar.isOrdinary,
      List.forall_mem_append.2 ⟨hd.isOrdinary, List.forall_mem_append.2 ⟨hblank hb, hunit⟩⟩⟩⟩

private theorem Written.ends (h : c.Written token) (rest : List Char) :
    (token ++ rest).head?.any isBlank = false ∧
      ∃ init last, token = init ++ [last] ∧ isBlank last = false := by
  cases h with
  | @feet count blanks unit hc hb hu =>
    obtain ⟨init, last, rfl, hl⟩ := exists_last_of_unit (List.mem_append_left _ hu)
    refine ⟨?_, count ++ (blanks ++ init), last, by simp, hl⟩
    rw [List.append_assoc]
    exact hc.head?_isBlank _
  | @inches count blanks unit hc hb hu =>
    obtain ⟨init, last, rfl, hl⟩ := exists_last_of_unit (List.mem_append_right _ hu)
    refine ⟨?_, count ++ (blanks ++ init), last, by simp, hl⟩
    rw [List.append_assoc]
    exact hc.head?_isBlank _
  | @fraction numerator bar denominator blanks unit hn hbar hd hb hu =>
    obtain ⟨init, last, rfl, hl⟩ := exists_last_of_unit (List.mem_append_right _ hu)
    refine ⟨?_, numerator ++ (bar ++ (denominator ++ (blanks ++ init))), last, by simp, hl⟩
    rw [List.append_assoc]
    exact hn.head?_isBlank _

end Component

theorem Row.small (h : Row AllBlank Component.Written cs s) :
    Row NoDigit Component.Spelled cs (s.map Char.toLower) := by
  induction h with
  | nil hg =>
    rw [AllBlank.map_toLower hg]
    exact .nil (AllBlank.noDigit hg)
  | @cons gap token rest c cs hg ht hr ih =>
    obtain ⟨core, extra, hcore, hextra, htoken⟩ := ht.small
    rw [List.map_append, List.map_append, AllBlank.map_toLower hg, htoken, List.append_assoc]
    exact .cons (AllBlank.noDigit hg) hcore (ih.prepend hextra)

private theorem Row.isOrdinary (h : Row AllBlank Component.Written cs s) : ∀ c ∈ s, IsOrdinary c := by
  induction h with
  | nil hg => exact fun c hc => .inr (hg c hc)
  | cons hg ht hr ih =>
    exact List.forall_mem_append.2
      ⟨fun c hc => .inr (hg c hc), List.forall_mem_append.2 ⟨ht.isOrdinary, ih⟩⟩

theorem Row.rdropWhile (h : Row AllBlank Component.Written cs s) :
    Row AllBlank Component.Written cs (s.rdropWhile isBlank) := by
  induction h with
  | nil hg =>
    rw [List.rdropWhile_eq_nil_iff.2 hg]
    exact .nil (List.forall_mem_nil _)
  | @cons gap token rest c cs hg ht hr ih =>
    obtain ⟨-, init, last, rfl, hl⟩ := ht.ends rest
    have hdrop := rdropWhile_append_cons hl (gap ++ init) rest
    have hassoc : ∀ t, gap ++ (init ++ [last] ++ t) = gap ++ init ++ last :: t := by
      intro t
      simp
    rw [hassoc, hdrop, ← hassoc]
    exact .cons hg ht ih

/-- Trimming takes blanks off the gaps around the row. -/
theorem Row.trim (h : Row AllBlank Component.Written cs s) :
    Row AllBlank Component.Written cs (Text.trim s) := by
  rw [trim_eq]
  apply Row.rdropWhile
  cases h with
  | nil hg =>
    rw [skipBlanks, List.dropWhile_eq_nil_iff.2 hg]
    exact .nil (List.forall_mem_nil _)
  | @cons gap token rest c cs hg ht hr =>
    rw [skipBlanks_append hg, skipBlanks_eq_self (ht.ends rest).1]
    exact @Row.cons _ _ [] _ _ _ _ (List.forall_mem_nil _) ht hr

theorem Row.lower_trim (h : Row AllBlank Component.Written cs s) :
    Row NoDigit Component.Spelled cs (lower (Text.trim s)) := by
  rw [lower_eq_map h.trim.isOrdinary]
  exact h.trim.small

theorem Row.ne_nil (h : Row NoDigit Component.Spelled cs s) (hcs : cs ≠ []) : s ≠ [] := by
  cases h with
  | nil hg => exact absurd rfl hcs
  | cons hg ht hr =>
    cases ht with
    | feet hc | inches hc | fraction hc =>
      obtain ⟨c, more, rfl⟩ := List.exists_cons_of_ne_nil hc.nonempty
      simp

private theorem Row.isRun_denominator (h : Row NoDigit Component.Spelled cs s) {n d : List Char}
    (hmem : .fraction n d ∈ cs) : IsRun d := by
  induction h with
  | nil hg => cases hmem
  | cons hg ht hr ih =>
    rcases List.mem_cons.1 hmem with rfl | hmem
    · cases ht with
      | fraction hn hbar hd hm => exact hd
    · exact ih hmem

/-- Feet, inches and fractions of an inch in any order, with blanks between them and around them and with
units in capital or small letters, are read as their sum. -/
theorem read_row {components : List Component} {text : String}
    (hrow : Row AllBlank Component.Written components text.toList) (hne : components ≠ [])
    (hfeet : (components.filterMap Component.feet?).length ≤ 1)
    (hinches : (components.filterMap Component.inches?).length ≤ 1)
    (hzero : ∀ n d, .fraction n d ∈ components → ∃ c ∈ d, c ≠ '0') :
    read text = .ok (Component.total components) := by
  have hsmall := hrow.lower_trim
  have hparts := parts_row hsmall hfeet hinches
  have hdenominators : ¬(fraction.tokens (lower (Text.trim text.toList))).any (·.2 == 0) = true := by
    rw [(hsmall.search fraction_startsWithDigit fraction_meets).1, List.any_eq_true]
    rintro ⟨f, hf, hd⟩
    obtain ⟨c, hc, hpart⟩ := List.mem_filterMap.1 hf
    cases c with
    | feet count | inches count => cases hpart
    | fraction n d =>
      cases hpart
      have hrun := hsmall.isRun_denominator hc
      obtain ⟨digit, hdigit, hnonzero⟩ := hzero n d hc
      exact hnonzero ((ofDigits_eq_zero_iff hrun.digits).1 (by simpa using hd) digit hdigit)
  have hsome := Component.summands_ne_nil hne
  simp only [read, hparts, List.isEmpty_iff, hsmall.ne_nil hne, hsome, hdenominators]
  rfl

/-- A fraction in front, capital letters, and no blank between two of the components. -/
theorem read_row_mixed :
    let text := " 5/8 Inch7 FT 10\" "
    let components : List Component := [.fraction ['5'] ['8'], .feet ['7'], .inches ['1', '0']]
    Row AllBlank Component.Written components text.toList ∧ components ≠ [] ∧
      (components.filterMap Component.feet?).length ≤ 1 ∧
      (components.filterMap Component.inches?).length ≤ 1 ∧
      (∀ n d, .fraction n d ∈ components → ∃ c ∈ d, c ≠ '0') ∧ read text = .ok 94.625 := by
  intro text components
  have hnone : AllBlank [] := by decide
  have hblank : AllBlank [' '] := by decide
  have hbar : IsSlash ['/'] := ⟨[], [], hnone, hnone, rfl⟩
  have hfraction : Component.Written (.fraction ['5'] ['8'])
      (['5'] ++ (['/'] ++ (['8'] ++ ([' '] ++ ['I', 'n', 'c', 'h'])))) :=
    .fraction (by decide) hbar (by decide) hblank (by decide)
  have hfeet : Component.Written (.feet ['7']) (['7'] ++ ([' '] ++ ['F', 'T'])) :=
    .feet (by decide) hblank (by decide)
  have hinches : Component.Written (.inches ['1', '0']) (['1', '0'] ++ ([] ++ ['"'])) :=
    .inches (by decide) hnone (by decide)
  have htext : text.toList = [' ', '5', '/', '8', ' ', 'I', 'n', 'c', 'h', '7', ' ', 'F', 'T', ' ',
      '1', '0', '"', ' '] := by
    decide
  have hrow : Row AllBlank Component.Written components text.toList := by
    rw [htext]
    exact .cons hblank hfraction (.cons hnone hfeet (.cons hblank hinches (.nil hblank)))
  have hne : components ≠ [] := by decide
  have hone : (components.filterMap Component.feet?).length ≤ 1 := by decide
  have hlast : (components.filterMap Component.inches?).length ≤ 1 := by decide
  have hnonzero : ∀ n d, .fraction n d ∈ components → ∃ c ∈ d, c ≠ '0' := by
    intro n d hmem
    have heq : n = ['5'] ∧ d = ['8'] := by simpa [components] using hmem
    rw [heq.2]
    exact ⟨'8', by decide, by decide⟩
  have htotal : Component.total components = 94.625 := by decide +kernel
  refine ⟨hrow, hne, hone, hlast, hnonzero, ?_⟩
  rw [read_row hrow hne hone hlast hnonzero, htotal]

end Millwork.Measurement
