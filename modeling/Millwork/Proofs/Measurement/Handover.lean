import Millwork.Proofs.Decimal.Handover
import Millwork.Proofs.Measurement.Magnitude
/-!
# Numbers of a measurement that are handed over

Every number of a measurement is a run of digits or a plain number before it is a double. Reading hands
these texts over one by one, in the order in which they are added, and none is refused.
-/
namespace Millwork.Measurement
open Text Decimal

def feetDigits : Pattern (List Char) :=
  digits.followedBy feetMark feetMark_le

def inchDigits : Pattern (List Char) :=
  digits.followedBy inchMark inchMark_le

def fractionDigits : Pattern (List Char × List Char) :=
  (digits.followedBy slash slash_le).pair inchDigits

def plainText? (s : List Char) : Option (List Char) :=
  match Literal.read? (trim s) with
  | some (l, []) => if isPlain l then some (trim s) else none
  | _ => none

private theorem feet_eq_map : feet = feetDigits.map ofDigits := rfl

private theorem fraction_eq_map : fraction = fractionDigits.map (Prod.map ofDigits ofDigits) :=
  Pattern.map_pair ofDigits ofDigits _ inchDigits

private theorem fraction_tokens_eq (s : List Char) :
    fraction.tokens s = (fractionDigits.tokens s).map (Prod.map ofDigits ofDigits) := by
  rw [fraction_eq_map, Pattern.tokens_map]

private theorem parts_eq_digits (s : List Char) :
    let rest := fractionDigits.without (feetDigits.without s)
    let whole? := inchDigits.cutFirst? rest
    parts s = ((feetDigits.tokens s).head?.map fun run => amount (ofDigits run) * 12).toList ++
      (fraction.tokens s).map (fun f => amount f.1 / amount f.2) ++
      ((whole?.map Prod.fst).map fun run => amount (ofDigits run)).toList ++
      (plainNumber? ((whole?.map Prod.snd).getD rest)).toList := by
  intro rest whole?
  have hfeet : feet.tokens s = (feetDigits.tokens s).map ofDigits := Pattern.tokens_map _ _ s
  have hrest : fraction.without (feet.without s) = rest := by
    rw [fraction_eq_map, Pattern.without_map, feet_eq_map, Pattern.without_map]
  have hwhole : inches.cutFirst? rest = whole?.map fun found => (ofDigits found.1, found.2) :=
    Pattern.cutFirst?_map _ _ rest
  rw [parts, hfeet, hrest, hwhole, List.head?_map, Option.map_map, Option.map_map, Option.map_map,
    Option.map_map]
  rfl

private theorem isRun_of_read {s run rest : List Char} (h : digits.read s = some (run, rest)) :
    IsRun run := by
  rcases exists_run_or_endsRun s with ⟨front, behind, hfront, hbehind, rfl⟩ | hs
  · rw [read_run hfront hbehind] at h
    cases h
    exact hfront
  · rw [read_endsRun hs] at h
    cases h

private theorem isRun_of_read_followedBy {mark : List Char → Option (List Char)}
    {mark_le : ∀ {s rest}, mark s = some rest → rest.length ≤ s.length} {s run rest : List Char}
    (h : (digits.followedBy mark mark_le).read s = some (run, rest)) : IsRun run := by
  obtain ⟨found, hfound, hmark⟩ := Option.bind_eq_some_iff.1 h
  obtain ⟨behind, -, he⟩ := Option.map_eq_some_iff.1 hmark
  cases he
  exact isRun_of_read hfound

private theorem isRun_of_read_fractionDigits {s rest : List Char} {f : List Char × List Char}
    (h : fractionDigits.read s = some (f, rest)) : IsRun f.1 ∧ IsRun f.2 := by
  obtain ⟨numerator, hn, hmap⟩ := Option.bind_eq_some_iff.1 h
  obtain ⟨denominator, hd, he⟩ := Option.map_eq_some_iff.1 hmap
  cases he
  exact ⟨isRun_of_read_followedBy hn, isRun_of_read_followedBy hd⟩

private theorem plainText?_cases (s : List Char) :
    (plainText? s = none ∧ plainNumber? s = none) ∨
      ∃ t x, plainText? s = some t ∧ plainNumber? s = some x ∧ Denotes t x := by
  rw [plainText?, plainNumber?]
  rcases hread : Literal.read? (trim s) with _ | ⟨l, _ | ⟨c, rest⟩⟩
  · exact .inl ⟨rfl, rfl⟩
  · have hspelling := (Literal.spelling_of_read? hread).1
    rw [List.append_nil] at hspelling
    have hd := denotes_literal (Literal.wellFormed_of_read? hread)
    rw [← hspelling] at hd
    cases hp : isPlain l with
    | true => exact .inr ⟨trim s, l.toFloat, by simp [hp], by simp [hp], hd⟩
    | false => exact .inl ⟨by simp [hp], by simp [hp]⟩
  · exact .inl ⟨rfl, rfl⟩

private theorem isNone_plainText? (s : List Char) :
    (plainText? s).isNone = (plainNumber? s).isNone := by
  rcases plainText?_cases s with ⟨ht, hx⟩ | ⟨t, x, ht, hx, -⟩
  · rw [ht, hx]
    rfl
  · rw [ht, hx]
    rfl

private theorem isEmpty_parts (s : List Char) :
    let rest := fractionDigits.without (feetDigits.without s)
    let whole? := inchDigits.cutFirst? rest
    (parts s).isEmpty = ((feetDigits.tokens s).head?.isNone && (fractionDigits.tokens s).isEmpty &&
      whole?.isNone && (plainText? ((whole?.map Prod.snd).getD rest)).isNone) := by
  intro rest whole?
  rw [parts_eq_digits, fraction_tokens_eq, isNone_plainText?, Bool.eq_iff_iff]
  simp only [Bool.and_eq_true, List.isEmpty_iff, List.append_eq_nil_iff, Option.toList_eq_nil_iff,
    Option.map_eq_none_iff, List.map_eq_nil_iff, Option.isNone_iff_eq_none]
  rfl

private theorem sum_parts (s : List Char) :
    let rest := fractionDigits.without (feetDigits.without s)
    let whole? := inchDigits.cutFirst? rest
    (parts s).foldl (· + ·) 0.0 =
      (plainNumber? ((whole?.map Prod.snd).getD rest)).toList.foldl (· + ·)
        (((whole?.map Prod.fst).map fun run => amount (ofDigits run)).toList.foldl (· + ·)
          (((fraction.tokens s).map fun f => amount f.1 / amount f.2).foldl (· + ·)
            (((feetDigits.tokens s).head?.map fun run => amount (ofDigits run) * 12).toList.foldl
              (· + ·) 0.0))) := by
  intro rest whole?
  rw [parts_eq_digits, List.foldl_append, List.foldl_append, List.foldl_append]

section
variable (double? : List Char → Option Float)

def addNumber (weigh : Float → Float) (total : Float) : Option (List Char) → Except Refusal Float
  | some s => (handOver double? s).map fun x => total + weigh x
  | none => .ok total

/-- Adds the fractions; the first one over zero ends the sum. -/
def addFractions (text : String) (total : Float) :
    List (List Char × List Char) → Except Refusal (Except Error Float)
  | [] => .ok (.ok total)
  | f :: more => do
    let numerator ← handOver double? f.1
    let denominator ← handOver double? f.2
    if denominator == 0.0 then
      return .error (.zeroDenominator text)
    else
      addFractions text (total + numerator / denominator) more

/-- The inches of a measurement; each number is handed over when it is added. -/
def readThrough (text : String) : Except Refusal (Except Error Float) :=
  let s := lower (trim text.toList)
  let feet? := (feetDigits.tokens s).head?
  let fractions := fractionDigits.tokens s
  let rest := fractionDigits.without (feetDigits.without s)
  let whole? := inchDigits.cutFirst? rest
  let plain? := plainText? ((whole?.map Prod.snd).getD rest)
  if s.isEmpty then
    .ok (.error .empty)
  else do
    let total ← addNumber double? (· * 12) 0.0 feet?
    match ← addFractions double? text total fractions with
    | .error cause => return .error cause
    | .ok total =>
      let total ← addNumber double? id total (whole?.map Prod.fst)
      let total ← addNumber double? id total plain?
      if feet?.isNone && fractions.isEmpty && whole?.isNone && plain?.isNone then
        return .error (.unreadable text)
      else
        return .ok total

end

section
variable {double? : List Char → Option Float}

private theorem handOver_run (h : Reads double?) {run : List Char} (hr : IsRun run) :
    handOver double? run = .ok (amount (ofDigits run)) :=
  h.handOver_eq (denotes_digits isSign_none hr.digits hr.nonempty)

private theorem addNumber_run (h : Reads double?) (weigh : Float → Float) (total : Float)
    {run? : Option (List Char)} (hr : ∀ run, run? = some run → IsRun run) :
    addNumber double? weigh total run? =
      .ok ((run?.map fun run => weigh (amount (ofDigits run))).toList.foldl (· + ·) total) := by
  cases run? with
  | none => rfl
  | some run =>
    rw [addNumber, handOver_run h (hr run rfl)]
    rfl

private theorem addNumber_plain (h : Reads double?) (total : Float) (s : List Char) :
    addNumber double? id total (plainText? s) =
      .ok ((plainNumber? s).toList.foldl (· + ·) total) := by
  rcases plainText?_cases s with ⟨ht, hx⟩ | ⟨t, x, ht, hx, hd⟩
  · rw [ht, hx]
    rfl
  · rw [ht, hx, addNumber, h.handOver_eq hd]
    rfl

private theorem amount_beq_zero (n : Nat) : (amount n == 0.0) = (n == 0) := by
  rw [Bool.eq_iff_iff, (amount_positive n).beq_zero_iff, beq_iff_eq]
  constructor
  · intro he
    by_contra hne
    exact nearest_ne_zero (Nat.pos_of_ne_zero hne) he
  · rintro rfl
    decide +kernel

private theorem addFractions_eq (h : Reads double?) (text : String) (total : Float)
    {fs : List (List Char × List Char)} (hr : ∀ f ∈ fs, IsRun f.1 ∧ IsRun f.2) :
    addFractions double? text total fs =
      .ok (if (fs.map (Prod.map ofDigits ofDigits)).any (·.2 == 0) then .error (.zeroDenominator text)
        else .ok (((fs.map (Prod.map ofDigits ofDigits)).map fun f => amount f.1 / amount f.2).foldl
          (· + ·) total)) := by
  induction fs generalizing total with
  | nil => rfl
  | cons f fs ih =>
    obtain ⟨⟨hn, hd⟩, hfs⟩ := List.forall_mem_cons.1 hr
    rw [addFractions, handOver_run h hn, handOver_run h hd, List.map_cons, List.any_cons]
    show (if amount (ofDigits f.2) == 0.0 then _ else addFractions double? text _ fs) = _
    -- the guard asks the double, `read` the digits
    rw [amount_beq_zero, ih _ hfs, Prod.map_snd]
    cases ofDigits f.2 == 0 with
    | true => rfl
    | false => rfl

theorem readThrough_eq (h : Reads double?) (text : String) :
    readThrough double? text = .ok (read text) := by
  have hread : read text =
      if (lower (trim text.toList)).isEmpty then .error .empty
      else if (fraction.tokens (lower (trim text.toList))).any (·.2 == 0) then
        .error (.zeroDenominator text)
      else if (parts (lower (trim text.toList))).isEmpty then .error (.unreadable text)
      else .ok ((parts (lower (trim text.toList))).foldl (· + ·) 0.0) := rfl
  rw [hread]
  simp only [readThrough]
  generalize lower (trim text.toList) = s
  have hempty := isEmpty_parts s
  have hsum := sum_parts s
  have hfractions := fraction_tokens_eq s
  have hfeet : ∀ run, (feetDigits.tokens s).head? = some run → IsRun run := fun run hr =>
    Pattern.forall_mem_tokens (fun _ _ _ => isRun_of_read_followedBy) s run
      (List.mem_of_head? hr)
  have hruns : ∀ f ∈ fractionDigits.tokens s, IsRun f.1 ∧ IsRun f.2 :=
    Pattern.forall_mem_tokens (fun _ _ _ => isRun_of_read_fractionDigits) s
  generalize fractionDigits.without (feetDigits.without s) = rest at hempty hsum ⊢
  have hwhole : ∀ run, (inchDigits.cutFirst? rest).map Prod.fst = some run → IsRun run := by
    intro run hr
    obtain ⟨found, hf, rfl⟩ := Option.map_eq_some_iff.1 hr
    exact Pattern.of_cutFirst? (fun _ _ _ => isRun_of_read_followedBy) hf
  by_cases hs : s.isEmpty = true
  · rw [if_pos hs, if_pos hs]
  · rw [if_neg hs, if_neg hs, addNumber_run h _ _ hfeet]
    show (addFractions double? text _ _ >>= _) = _
    rw [addFractions_eq h text _ hruns, ← hfractions]
    cases (fraction.tokens s).any (·.2 == 0) with
    | true => rfl
    | false =>
      show (addNumber double? id _ _ >>= _) = _
      rw [addNumber_run h _ _ hwhole]
      show (addNumber double? id _ _ >>= _) = _
      rw [addNumber_plain h]
      show (if _ then Except.ok _ else Except.ok _) = Except.ok (if _ then _ else _)
      rw [hempty, hsum]
      split
      · rfl
      · rfl

end
end Millwork.Measurement
