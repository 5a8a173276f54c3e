import Millwork.Proofs.Decimal.Spelling
import Millwork.Report
/-!
# The report without its colours

Without the sequences that set colours and weights, a coloured text that is nowhere filled up is the plain
one. The rows of the results are filled up with blanks, and there the sequences count as characters: the
coloured report without its sequences is the plain one but for fewer blanks in these rows.
-/
namespace Millwork
/-- Whether a text has no escape character. -/
def NoEscape (s : String) : Prop :=
  '\x1b' ∉ s.toList

instance (s : String) : Decidable (NoEscape s) :=
  inferInstanceAs (Decidable (¬_))

namespace Styled

def isCode (c : Char) : Bool :=
  c.isDigit || c = ';'

/-- What stands behind a sequence at the front of a text. -/
def behindEscape? : List Char → Option (List Char)
  | '\x1b' :: '[' :: s =>
    match s.dropWhile isCode with
    | 'm' :: rest => some rest
    | _ => none
  | _ => none

private theorem behindEscape?_shorter {s rest : List Char} (h : behindEscape? s = some rest) :
    rest.length < s.length := by
  unfold behindEscape? at h
  split at h
  · rename_i s
    split at h
    · rename_i found hd
      cases h
      have hl := (List.dropWhile_suffix isCode (l := s)).length_le
      rw [hd, List.length_cons] at hl
      simp only [List.length_cons]
      omega
    · cases h
  · cases h

/-- A text without its sequences for colours and weights. -/
def bare : List Char → List Char
  | [] => []
  | c :: s =>
    match _h : behindEscape? (c :: s) with
    | some rest => bare rest
    | none => c :: bare s
termination_by s => s.length
decreasing_by
  · exact behindEscape?_shorter _h
  · exact Nat.lt_succ_self _

private theorem bare_append {t : List Char} (h : '\x1b' ∉ t) (s : List Char) :
    bare (t ++ s) = t ++ bare s := by
  induction t with
  | nil => rfl
  | cons c t ih =>
    rw [List.mem_cons, not_or] at h
    have hn : behindEscape? (c :: (t ++ s)) = none := by
      unfold behindEscape?
      split
      · rename_i he
        exact absurd (List.cons.inj he).1.symm h.1
      · rfl
    rw [List.cons_append, bare]
    split
    · rename_i rest hr
      rw [hn] at hr
      cases hr
    · rw [ih h.2, List.cons_append]

private theorem bare_escape {code : String} (h : code.toList.all isCode = true) (s : List Char) :
    bare (escape code ++ s) = bare s := by
  have hb : behindEscape? (escape code ++ s) = some s := by
    have hd : (code.toList ++ 'm' :: s).dropWhile isCode = 'm' :: s := by
      rw [List.dropWhile_append_of_pos (List.all_eq_true.1 h)]
      rfl
    simp only [escape, List.cons_append, List.append_assoc, List.nil_append, behindEscape?, hd]
  have hc : escape code ++ s = '\x1b' :: ('[' :: code.toList ++ ['m'] ++ s) := rfl
  rw [hc] at hb ⊢
  rw [bare]
  split
  · rename_i rest hr
    rw [hb] at hr
    rw [Option.some.inj hr]
  · rename_i hn
    rw [hb] at hn
    cases hn

private theorem all_isCode (style : Style) : style.code.toList.all isCode = true := by
  cases style <;> decide

private theorem render_append (color : Bool) (first second : Styled) :
    (first ++ second).render color = first.render color ++ second.render color :=
  rfl

def Plain : Styled → Prop
  | text content => NoEscape content
  | styled _ inside => inside.Plain
  | padded .. => False
  | append first second => first.Plain ∧ second.Plain

@[simp] theorem plain_text (content : String) : (text content).Plain ↔ NoEscape content :=
  Iff.rfl

@[simp] theorem plain_paint (style : Style) (t : Styled) : (style.paint t).Plain ↔ t.Plain :=
  Iff.rfl

@[simp] theorem plain_append (first second : Styled) :
    (first ++ second).Plain ↔ first.Plain ∧ second.Plain :=
  Iff.rfl

private theorem bare_styled (style : Style) (inside s : List Char) :
    bare (escape style.code ++ inside ++ escape "0" ++ s) = bare (inside ++ (escape "0" ++ s)) := by
  rw [List.append_assoc, List.append_assoc, bare_escape (all_isCode style)]

private theorem bare_render {t : Styled} (h : t.Plain) (s : List Char) :
    bare (t.render true ++ s) = t.render false ++ bare s := by
  induction t generalizing s with
  | text content => exact bare_append h s
  | styled style inside ih =>
    rw [render, if_pos rfl, bare_styled, ih h, bare_escape (by decide)]
    rfl
  | padded width inside => exact h.elim
  | append first second ihf ihs =>
    rw [render, render, List.append_assoc, ihf h.1, ihs h.2, List.append_assoc]

private theorem bare_render_padded {width : Nat} {inside : Styled} (h : inside.Plain) (s : List Char) :
    bare ((padded width inside).render true ++ s) =
      inside.render false ++ List.replicate (width - (inside.render true).length) ' ' ++ bare s := by
  have hblanks : '\x1b' ∉ List.replicate (width - (inside.render true).length) ' ' := fun hm =>
    absurd (List.eq_of_mem_replicate hm) (by decide)
  rw [render, List.append_assoc, bare_render h, bare_append hblanks, List.append_assoc]

end Styled

@[simp] theorem noEscape_append (s s' : String) : NoEscape (s ++ s') ↔ NoEscape s ∧ NoEscape s' := by
  rw [NoEscape, String.toList_append, List.mem_append, not_or]
  rfl

private theorem mem_intercalate {α : Type} {sep : List α} {parts : List (List α)} {x : α}
    (h : x ∈ sep.intercalate parts) : x ∈ sep ∨ ∃ part ∈ parts, x ∈ part := by
  induction parts with
  | nil => cases h
  | cons part parts ih =>
    cases parts with
    | nil =>
      rw [List.intercalate_singleton] at h
      exact .inr ⟨part, List.mem_cons_self, h⟩
    | cons next parts =>
      rw [List.intercalate_cons_cons, List.append_assoc, List.mem_append, List.mem_append] at h
      rcases h with hp | hs | hm
      · exact .inr ⟨part, List.mem_cons_self, hp⟩
      · exact .inl hs
      · exact (ih hm).imp_right fun ⟨found, hf, hx⟩ => ⟨found, List.mem_cons_of_mem _ hf, hx⟩

theorem NoEscape.intercalate {sep : String} {parts : List String} (hs : NoEscape sep)
    (hp : ∀ part ∈ parts, NoEscape part) : NoEscape (sep.intercalate parts) := by
  intro h
  rw [String.toList_intercalate] at h
  rcases mem_intercalate h with h | ⟨_, hm, h⟩
  · exact hs h
  · obtain ⟨part, hpart, rfl⟩ := List.mem_map.1 hm
    exact hp part hpart h

namespace Decimal

private theorem noEscape_of_plain {s : String} (h : ∀ c ∈ s.toList, IsPlainChar c) : NoEscape s := by
  intro he
  rcases h _ he with hd | hp | hm
  · exact absurd hd (by decide)
  · exact absurd hp (by decide)
  · exact absurd hm (by decide)

@[simp] theorem noEscape_plainText (x : Float) : NoEscape (plainText x) := by
  unfold plainText
  split
  · decide
  · split
    · split <;> decide
    · refine noEscape_of_plain fun c hc => ?_
      rw [String.toList_ofList] at hc
      exact isPlainChar_of_mem_withSign (fun _ => Fixed.isPlainChar_of_mem_positional) hc

@[simp] theorem noEscape_text (x : Float) : NoEscape (text x) := by
  unfold text
  split
  · split <;> decide
  · split
    · refine noEscape_of_plain fun c hc => ?_
      rw [String.toList_ofList] at hc
      exact isPlainChar_of_mem_withSign (fun _ => (digitsOf_allDigits _).isPlainChar) hc
    · exact noEscape_plainText x

@[simp] theorem noEscape_repr (n : Nat) : NoEscape n.repr := by
  have hdigits : n.repr.toList = digitsOf n := String.toList_ofList
  refine noEscape_of_plain fun c hc => ?_
  rw [hdigits] at hc
  exact (digitsOf_allDigits n).isPlainChar hc

end Decimal

namespace Report
open Style Styled

/-- No text that the report shows has an escape character. -/
structure Unescaped (order : Order) (snapshot : Snapshot) (calculation : Calculation) (times : Times) :
    Prop where
  names : ∀ field ∈ order.toList, NoEscape field.1
  texts : ∀ field ∈ order.toList, ∀ s, field.2 = .text s → NoEscape s
  links : ∀ link ∈ order.links, NoEscape link
  key : NoEscape calculation.key
  keys : ∀ key ∈ snapshot.keys, NoEscape key
  formulas : ∀ trace ∈ calculation.traces, ∀ formula, trace.formula = some formula → NoEscape formula
  failures : ∀ trace ∈ calculation.traces, ∀ failure, trace.outcome = .failed failure →
    NoEscape failure.message
  loaded : NoEscape times.loaded
  total : NoEscape times.total
  evaluation : NoEscape times.evaluation

private theorem fieldLine_plain {name : String} {value : Value} (hn : NoEscape name)
    (hv : ∀ s, value = .text s → NoEscape s) : (fieldLine name value).Plain := by
  cases value with
  | number x => simp +decide [fieldLine, Value.toText, hn]
  | bool flag => cases flag <;> simp +decide [fieldLine, Value.toText, hn]
  | text s => simp +decide [fieldLine, hn, hv s rfl]

private theorem linkLine_plain {link : String} (h : NoEscape link) : (linkLine link).Plain := by
  simp +decide [linkLine, h]

private theorem outcomeText_plain {outcome : Outcome}
    (h : ∀ failure, outcome = .failed failure → NoEscape failure.message) :
    (outcomeText outcome).Plain := by
  cases outcome with
  | evaluated value => simp +decide [outcomeText]
  | noMatch => simp +decide [outcomeText]
  | failed failure => simp +decide [outcomeText, h failure rfl]
  | nonFinite value => simp +decide [outcomeText]

@[simp] theorem noEscape_placesText (places : List Nat) : NoEscape (placesText places) := by
  have hs : NoEscape (String.intercalate ", " (places.map toString)) := by
    refine NoEscape.intercalate (by decide) fun part hp => ?_
    obtain ⟨place, -, rfl⟩ := List.mem_map.1 hp
    exact Decimal.noEscape_repr place
  simp +decide [placesText, hs]

@[simp] theorem noEscape_propertyName (p : Property) : NoEscape p.name := by
  cases p <;> decide

private theorem traceLines_plain {trace : Trace}
    (hf : ∀ formula, trace.formula = some formula → NoEscape formula)
    (ho : ∀ failure, trace.outcome = .failed failure → NoEscape failure.message) :
    ∀ line ∈ traceLines trace, line.Plain := by
  intro line hl
  rcases List.mem_cons.1 hl with rfl | hl
  · simp +decide [outcomeText_plain ho]
  split at hl
  · cases hl
  rcases List.mem_cons.1 hl with rfl | hl
  · simp +decide
  split at hl
  · rename_i place formula _ he
    rw [List.mem_singleton.1 hl]
    simp +decide [hf formula he]
  · cases hl

private theorem rulesLines_plain {snapshot : Snapshot} {calculation : Calculation} {loaded : String}
    (hk : NoEscape calculation.key) (hs : ∀ key ∈ snapshot.keys, NoEscape key)
    (hl : NoEscape loaded) : ∀ line ∈ rulesLines snapshot calculation loaded, line.Plain := by
  have hkeys : NoEscape (String.intercalate ", " snapshot.keys) := .intercalate (by decide) hs
  intro line hm
  rcases List.mem_cons.1 hm with rfl | hm
  · simp +decide [hl]
  split at hm
  · rcases List.mem_cons.1 hm with rfl | hm
    · simp +decide [hk]
    split at hm
    · cases hm
    · rw [List.mem_singleton.1 hm]
      simp +decide [hkeys]
  · cases hm

private theorem orderLines_plain {order : Order} (hn : ∀ field ∈ order.toList, NoEscape field.1)
    (ht : ∀ field ∈ order.toList, ∀ s, field.2 = .text s → NoEscape s)
    (hl : ∀ link ∈ order.links, NoEscape link) : ∀ line ∈ orderLines order, line.Plain := by
  intro line hm
  rcases List.mem_append.1 hm with hm | hm
  · rcases List.mem_append.1 hm with hm | hm
    · split at hm
      · rw [List.mem_singleton.1 hm]
        simp +decide
      · cases hm
    · obtain ⟨field, hf, rfl⟩ := List.mem_map.1 hm
      exact fieldLine_plain (hn field hf) (ht field hf)
  · obtain ⟨link, hlink, rfl⟩ := List.mem_map.1 hm
    exact linkLine_plain (hl link hlink)

/-- The lines before the results. -/
def front (order : Order) (snapshot : Snapshot) (calculation : Calculation) (loaded : String) :
    List Styled :=
  [.text "", bold.paint (cyan.paint ("⚙  Rule set: \"" ++ calculation.key ++ "\"")),
    .text "", gray.paint "━━━ Order ━━━"] ++
  orderLines order ++
  [.text "", gray.paint "━━━ Rules ━━━"] ++
  rulesLines snapshot calculation loaded ++
  calculation.traces.flatMap traceLines ++
  [.text "", gray.paint "━━━ Result ━━━"]

/-- The lines behind the results. -/
def back (times : Times) : List Styled :=
  [.text "", gray.paint "━━━ Timing ━━━",
    .text "  Total: " ++ green.paint times.total ++ .text "  │  Evaluate: " ++
      cyan.paint times.evaluation,
    .text ""]

private theorem lines_eq (order : Order) (snapshot : Snapshot) (calculation : Calculation)
    (times : Times) :
    lines order snapshot calculation times =
      front order snapshot calculation times.loaded ++ resultLines calculation.quantities ++
        back times :=
  rfl

section
variable {order : Order} {snapshot : Snapshot} {calculation : Calculation} {times : Times}

private theorem front_plain (h : Unescaped order snapshot calculation times) :
    ∀ line ∈ front order snapshot calculation times.loaded, line.Plain := by
  have horder := orderLines_plain h.names h.texts h.links
  have hrules := rulesLines_plain h.key h.keys h.loaded
  have htraces : ∀ line ∈ calculation.traces.flatMap traceLines, line.Plain := by
    intro line hl
    obtain ⟨trace, ht, hl⟩ := List.mem_flatMap.1 hl
    exact traceLines_plain (h.formulas trace ht) (h.failures trace ht) line hl
  simp only [front, List.forall_mem_append]
  refine ⟨⟨⟨⟨⟨?_, horder⟩, ?_⟩, hrules⟩, htraces⟩, ?_⟩
  · simp +decide [h.key]
  · simp +decide
  · simp +decide

private theorem back_plain (h : Unescaped order snapshot calculation times) :
    ∀ line ∈ back times, line.Plain := by
  simp +decide [back, h.total, h.evaluation]

end

private def renderLines (color : Bool) (ls : List Styled) : List Char :=
  ls.flatMap fun line => line.render color ++ ['\n']

private theorem toList_text (color : Bool) (order : Order) (snapshot : Snapshot)
    (calculation : Calculation)
    (times : Times) : (text color order snapshot calculation times).toList =
      renderLines color (front order snapshot calculation times.loaded) ++
        (renderLines color (resultLines calculation.quantities) ++ renderLines color (back times)) := by
  rw [text, String.toList_ofList, lines_eq, List.append_assoc, List.flatMap_append, List.flatMap_append]
  rfl

private theorem bare_renderLines {ls : List Styled} (h : ∀ line ∈ ls, line.Plain) (s : List Char) :
    bare (renderLines true ls ++ s) = renderLines false ls ++ bare s := by
  induction ls with
  | nil => rfl
  | cons line ls ih =>
    have hend : '\x1b' ∉ ['\n'] := by decide
    have hmore := ih fun other ho => h other (List.mem_cons_of_mem _ ho)
    simp only [renderLines, List.flatMap_cons, List.append_assoc] at hmore ⊢
    rw [bare_render (h line List.mem_cons_self), bare_append hend, hmore]

def row (width : Nat) (p : Property) (x : Float) : List Char :=
  ' ' :: ' ' :: (p.name.toList ++ List.replicate (width - p.name.length) ' ' ++
    ' ' :: (Decimal.plainText x).toList ++ ['\n'])

def rows (width : Nat) (quantities : Quantities) : List Char :=
  Property.all.flatMap fun p => row width p (quantities.get p)

private def resultLine (p : Property) (x : Float) : Styled :=
  .text "  " ++ .padded 16 (blue.paint p.name) ++ .text " " ++
    bold.paint (green.paint (Decimal.plainText x))

private theorem resultLines_eq (quantities : Quantities) :
    resultLines quantities = Property.all.map fun p => resultLine p (quantities.get p) := by
  rw [resultLines, Property.Table.toList, List.map_map]
  rfl

private theorem render_resultLine (p : Property) (x : Float) :
    (resultLine p x).render false ++ ['\n'] = row 16 p x := by
  have hplain : (resultLine p x).render false =
      [' ', ' '] ++ (p.name.toList ++ List.replicate (16 - p.name.toList.length) ' ') ++ [' '] ++
        (Decimal.plainText x).toList := rfl
  rw [hplain, row, String.length_toList]
  simp

private theorem bare_resultLine (p : Property) (x : Float) (s : List Char) :
    bare ((resultLine p x).render true ++ '\n' :: s) = row 7 p x ++ bare s := by
  let last : Styled := .text " " ++ bold.paint (green.paint (Decimal.plainText x)) ++ .text "\n"
  have hfirst : Plain (.text "  ") := by
    show NoEscape "  "
    decide
  have hlast : last.Plain := by
    simp +decide [last]
  have hname : ((blue.paint (.text p.name)).render true).length = p.name.length + 9 := by
    rw [← String.length_toList]
    exact List.length_append
  have hwidth : 16 - (p.name.length + 9) = 7 - p.name.length := by
    omega
  have hline : (resultLine p x).render true ++ '\n' :: s = (Styled.text "  ").render true ++
      ((Styled.padded 16 (blue.paint p.name)).render true ++ (last.render true ++ s)) := by
    simp only [last, resultLine, render_append, List.append_assoc]
    rfl
  have hplain : last.render false = ' ' :: ((Decimal.plainText x).toList ++ ['\n']) := rfl
  rw [hline, bare_render hfirst, bare_render_padded (by simp), bare_render hlast, hname, hwidth, hplain,
    row]
  simp [render, paint]

private theorem bare_resultLines (quantities : Quantities) (s : List Char) :
    bare (renderLines true (resultLines quantities) ++ s) = rows 7 quantities ++ bare s := by
  rw [resultLines_eq, rows]
  induction Property.all with
  | nil => rfl
  | cons p ps ih =>
    simp only [renderLines, List.map_cons, List.flatMap_cons, List.append_assoc,
      List.singleton_append] at ih ⊢
    rw [List.cons_append, bare_resultLine, ih]

private theorem render_resultLines (quantities : Quantities) :
    renderLines false (resultLines quantities) = rows 16 quantities := by
  rw [resultLines_eq, renderLines, List.flatMap_map, rows]
  simp only [render_resultLine]

private theorem length_rows (quantities : Quantities) :
    (rows 16 quantities).length = (rows 7 quantities).length + 36 := by
  simp only [rows, row, Property.all, List.flatMap_cons, List.flatMap_nil]
  simp +arith only [Property.name, List.length_append, List.length_cons, List.length_nil,
    List.length_replicate]
  rfl

section
variable {order : Order} {snapshot : Snapshot} {calculation : Calculation} {times : Times}

private theorem toList_text_plain : (text false order snapshot calculation times).toList =
    renderLines false (front order snapshot calculation times.loaded) ++
      rows 16 calculation.quantities ++ renderLines false (back times) := by
  rw [toList_text, render_resultLines, List.append_assoc]

private theorem bare_text_colored (h : Unescaped order snapshot calculation times) :
    bare (text true order snapshot calculation times).toList =
      renderLines false (front order snapshot calculation times.loaded) ++
        rows 7 calculation.quantities ++ renderLines false (back times) := by
  have hback := bare_renderLines (back_plain h) []
  rw [bare, List.append_nil, List.append_nil] at hback
  rw [toList_text, bare_renderLines (front_plain h), bare_resultLines, hback, List.append_assoc]

private theorem bare_text_ne (h : Unescaped order snapshot calculation times) :
    bare (text true order snapshot calculation times).toList ≠
      (text false order snapshot calculation times).toList := by
  intro he
  have hl := congrArg List.length he
  rw [toList_text_plain, bare_text_colored h] at hl
  simp only [List.length_append, length_rows] at hl
  omega

/-- Without its sequences, the coloured report is the plain one up to the rows of the results, where each
name is filled up to 7 characters and not to 16. So it is never the plain one. -/
theorem bare_text (h : Unescaped order snapshot calculation times) :
    (∃ front back : List Char,
      (text false order snapshot calculation times).toList =
        front ++ rows 16 calculation.quantities ++ back ∧
      bare (text true order snapshot calculation times).toList =
        front ++ rows 7 calculation.quantities ++ back) ∧
    bare (text true order snapshot calculation times).toList ≠
      (text false order snapshot calculation times).toList :=
  ⟨⟨_, _, toList_text_plain, bare_text_colored h⟩, bare_text_ne h⟩

end

private theorem unescaped_shaker :
    let order := (Order.ofList [("framed", .bool true), ("height", .number 94.625),
      ("style", .text "Shaker")]).withLinks ["http://a/b"]
    let rules := (RuleSet.empty.set .length [Rule.always "1 +"]).set .width [Rule.always "height + 1"]
    Unescaped order (.ofList [("shakerdoors", rules)]) (.ofRules "shakerdoors" rules order)
      ⟨"12:00:00", "1.5ms", "900ns"⟩ := by
  intro order rules
  have hfields : order.toList = [("framed", .bool true), ("height", .number 94.625),
      ("style", .text "Shaker")] := by
    decide
  have hformulas : ∀ trace ∈ (Calculation.ofRules "shakerdoors" rules order).traces,
      trace.formula.all (fun formula => decide (NoEscape formula)) = true := by
    decide +kernel
  have hfailures : ∀ trace ∈ (Calculation.ofRules "shakerdoors" rules order).traces,
      (match trace.outcome with
        | .failed failure => decide (NoEscape failure.message)
        | _ => true) = true := by
    decide +kernel
  refine ⟨by decide, ?_, by decide, by decide, by decide, ?_, ?_, by decide, by decide, by decide⟩
  · intro field hf s hs
    simp only [hfields, List.mem_cons, List.not_mem_nil, or_false] at hf
    rcases hf with rfl | rfl | rfl
    · cases hs
    · cases hs
    · cases hs
      decide
  · intro trace ht formula hf
    have hall := hformulas trace ht
    rw [hf] at hall
    exact of_decide_eq_true hall
  · intro trace ht failure hf
    have hmessage := hfailures trace ht
    rw [hf] at hmessage
    exact of_decide_eq_true hmessage

theorem bare_text_shaker :
    let order := (Order.ofList [("framed", .bool true), ("height", .number 94.625),
      ("style", .text "Shaker")]).withLinks ["http://a/b"]
    let rules := (RuleSet.empty.set .length [Rule.always "1 +"]).set .width [Rule.always "height + 1"]
    let snapshot : Snapshot := .ofList [("shakerdoors", rules)]
    let calculation := Calculation.ofRules "shakerdoors" rules order
    let times : Times := ⟨"12:00:00", "1.5ms", "900ns"⟩
    Unescaped order snapshot calculation times ∧
    ∃ front back : List Char,
      (text false order snapshot calculation times).toList =
        front ++ rows 16 calculation.quantities ++ back ∧
      bare (text true order snapshot calculation times).toList =
        front ++ rows 7 calculation.quantities ++ back :=
  ⟨unescaped_shaker, (bare_text unescaped_shaker).1⟩

/-- The names of the results tell the two reports apart. -/
theorem bare_text_ne_shaker :
    let order := (Order.ofList [("framed", .bool true), ("height", .number 94.625),
      ("style", .text "Shaker")]).withLinks ["http://a/b"]
    let rules := (RuleSet.empty.set .length [Rule.always "1 +"]).set .width [Rule.always "height + 1"]
    let snapshot : Snapshot := .ofList [("shakerdoors", rules)]
    let calculation := Calculation.ofRules "shakerdoors" rules order
    let times : Times := ⟨"12:00:00", "1.5ms", "900ns"⟩
    Unescaped order snapshot calculation times ∧
    bare (text true order snapshot calculation times).toList ≠
      (text false order snapshot calculation times).toList :=
  ⟨unescaped_shaker, bare_text_ne unescaped_shaker⟩

end Report
end Millwork
