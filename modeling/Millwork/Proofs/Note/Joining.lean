import Millwork.Proofs.Note.Lines
/-!
# Notes joined together

A note that is put together from two texts, with a line break between them, is read as the one and then
the other: the fields of the second one replace those of the first one with the same key, and its links
come behind. A break may run into a line feed or a carriage return next to it, but what that changes is
the number of empty lines, and these say nothing.
-/
namespace Millwork
namespace Text

def endsLine (c : Char) : Bool :=
  c = '\n' || c = '\r'

/-- The lines that have something in them. -/
def filled (text : List (List Char)) : List (List Char) :=
  text.filter (!·.isEmpty)

@[simp] theorem filled_nil_cons (text : List (List Char)) : filled ([] :: text) = filled text := rfl

private theorem filled_cons_congr (line : List Char) {text other : List (List Char)}
    (h : filled text = filled other) : filled (line :: text) = filled (line :: other) := by
  rw [filled, filled, List.filter_cons, List.filter_cons, ← filled, ← filled, h]

private theorem lines_splitOnP (s : List Char) :
    ∃ line more pieces, lines s = line :: more ∧ s.splitOnP endsLine = line :: pieces ∧
      filled more = filled pieces := by
  fun_induction lines s with
  | case1 => exact ⟨[], [], [], rfl, rfl, rfl⟩
  | case2 rest ih =>
    obtain ⟨line, more, pieces, hl, hp, he⟩ := ih
    refine ⟨[], lines rest, [] :: line :: pieces, rfl, ?_, ?_⟩
    · simp [List.splitOnP_cons_eq_if_modifyHead, endsLine, hp]
    · rw [hl, filled_nil_cons, filled_cons_congr line he]
  | case3 c rest _ hc ih =>
    obtain ⟨line, more, pieces, hl, hp, he⟩ := ih
    refine ⟨[], lines rest, line :: pieces, rfl, ?_, ?_⟩
    · rw [List.splitOnP_cons_eq_if_modifyHead, if_pos (by simpa [endsLine] using hc), hp]
    · rw [hl, filled_cons_congr line he]
  | case4 c rest _ hc line more hl ih =>
    obtain ⟨first, others, pieces, hf, hp, he⟩ := ih
    obtain ⟨rfl, rfl⟩ := List.cons.inj (hl.symm.trans hf)
    refine ⟨c :: line, more, pieces, rfl, ?_, he⟩
    rw [List.splitOnP_cons_eq_if_modifyHead, if_neg (by simpa [endsLine] using hc), hp,
      List.modifyHead_cons]
  | case5 c rest _ hc hl ih =>
    obtain ⟨line, more, pieces, hf, -, -⟩ := ih
    rw [hl] at hf
    cases hf

theorem filled_lines (s : List Char) : filled (lines s) = filled (s.splitOnP endsLine) := by
  obtain ⟨line, more, pieces, hl, hp, he⟩ := lines_splitOnP s
  rw [hl, hp, filled_cons_congr line he]

theorem filled_splitOnP_append_cons {p : Char → Bool} {c : Char} (hc : p c = true) (a b : List Char) :
    filled ((a ++ c :: b).splitOnP p) = filled (a.splitOnP p) ++ filled (b.splitOnP p) := by
  rw [List.splitOnP_append_cons a b hc, filled, List.filter_append, filled, filled]

private theorem filled_lines_join {sep : List Char}
    (hs : sep = ['\n'] ∨ sep = ['\r'] ∨ sep = ['\r', '\n']) (a b : List Char) :
    filled (lines (a ++ sep ++ b)) = filled (lines a) ++ filled (lines b) := by
  rw [filled_lines, filled_lines, filled_lines, List.append_assoc]
  rcases hs with rfl | rfl | rfl
  · exact filled_splitOnP_append_cons rfl a b
  · exact filled_splitOnP_append_cons rfl a b
  · -- the line feed behind the carriage return begins one more empty line
    have hfeed : filled (('\n' :: b).splitOnP endsLine) = filled (b.splitOnP endsLine) :=
      filled_splitOnP_append_cons rfl [] b
    rw [← hfeed]
    exact filled_splitOnP_append_cons rfl a ('\n' :: b)

theorem filterMap_filled {α : Type} {f : List Char → Option α} (hf : f [] = none)
    (text : List (List Char)) : (filled text).filterMap f = text.filterMap f := by
  induction text with
  | nil => rfl
  | cons line text ih =>
    cases line with
    | nil => rw [filled_nil_cons, ih, List.filterMap_cons_none hf]
    | cons c line =>
      show List.filterMap f ((c :: line) :: filled text) = _
      rw [List.filterMap_cons, List.filterMap_cons, ih]

theorem flatMap_filled {α : Type} {f : List Char → List α} (hf : f [] = [])
    (text : List (List Char)) : (filled text).flatMap f = text.flatMap f := by
  induction text with
  | nil => rfl
  | cons line text ih =>
    cases line with
    | nil => rw [filled_nil_cons, ih, List.flatMap_cons, hf, List.nil_append]
    | cons c line =>
      show List.flatMap f ((c :: line) :: filled text) = _
      rw [List.flatMap_cons, List.flatMap_cons, ih]

end Text

namespace Order
private theorem get?_foldl_insert (fields : List (String × Value)) (order : Order) (name : String) :
    (fields.foldl (fun order field => order.insert field.1 field.2) order).get? name =
      (fields.reverse.lookup name).or (order.get? name) := by
  induction fields generalizing order with
  | nil => rfl
  | cons field fields ih =>
    obtain ⟨key, value⟩ := field
    have hlast : (List.lookup name [(key, value)]).or (order.get? name) =
        if key = name then some value else order.get? name := by
      by_cases hk : key = name
      · simp [hk]
      · have hne : (name == key) = false := beq_false_of_ne (Ne.symm hk)
        simp [List.lookup_cons, hne, hk]
    rw [List.foldl_cons, ih, get?_insert, List.reverse_cons, List.lookup_append, Option.or_assoc,
      hlast]

private theorem get?_ofList (fields : List (String × Value)) (name : String) :
    (ofList fields).get? name = fields.reverse.lookup name := by
  rw [ofList, get?_foldl_insert, get?_empty, Option.or_none]

end Order

namespace Note
open Text

/-- Key and value of each line with a colon, in the order of the lines. -/
def labelled (text : String) : List (String × Value) :=
  (trimmedLines text.toList).filterMap field?

private theorem get?_read (text name : String) :
    (read text).get? name = (labelled text).reverse.lookup name := by
  rw [read, Order.get?_withLinks, Order.get?_ofList, labelled]

private theorem labelled_eq_filled (text : String) :
    labelled text = (filled (lines text.toList)).filterMap fun line => field? (trim line) := by
  rw [filterMap_filled (f := fun line => field? (trim line)) rfl, labelled, trimmedLines,
    List.filterMap_map]
  rfl

theorem links_eq_filled (text : String) :
    (read text).links = (filled (lines text.toList)).flatMap fun line => Link.inText (trim line) := by
  have hempty : Link.inText (trim []) = [] := by decide +kernel
  rw [flatMap_filled (f := fun line => Link.inText (trim line)) hempty, read, Order.links_withLinks,
    trimmedLines, List.flatMap_map]

/-- What breaks a line. -/
def lineBreaks : List String := ["\n", "\r", "\r\n"]

section
variable {sep : String}

private theorem filled_lines_append (hs : sep ∈ lineBreaks) (a b : String) :
    filled (lines (a ++ sep ++ b).toList) =
      filled (lines a.toList) ++ filled (lines b.toList) := by
  have hsep : sep.toList = ['\n'] ∨ sep.toList = ['\r'] ∨ sep.toList = ['\r', '\n'] := by
    simp only [lineBreaks, List.mem_cons, List.not_mem_nil, or_false] at hs
    rcases hs with rfl | rfl | rfl
    · exact .inl rfl
    · exact .inr (.inl rfl)
    · exact .inr (.inr rfl)
  rw [String.toList_append, String.toList_append, filled_lines_join hsep]

private theorem labelled_append (hs : sep ∈ lineBreaks) (a b : String) :
    labelled (a ++ sep ++ b) = labelled a ++ labelled b := by
  rw [labelled_eq_filled, labelled_eq_filled, labelled_eq_filled, filled_lines_append hs,
    List.filterMap_append]

/-- The order of a joined note has the fields of both notes, those of the second one first, and the links
of both. So each field is decided by the last line with a colon that has its key, wherever the note is
cut in two. -/
theorem read_append (hs : sep ∈ lineBreaks) (a b : String) :
    (∀ name, (read (a ++ sep ++ b)).get? name =
        ((read b).get? name).or ((read a).get? name)) ∧
      (read (a ++ sep ++ b)).links = (read a).links ++ (read b).links ∧
      ∀ name, (read (a ++ sep ++ b)).get? name =
        (labelled a ++ labelled b).reverse.lookup name := by
  have hget (name : String) : (read (a ++ sep ++ b)).get? name =
      (labelled a ++ labelled b).reverse.lookup name := by
    rw [get?_read, labelled_append hs]
  refine ⟨fun name => ?_, ?_, hget⟩
  · rw [hget, List.reverse_append, List.lookup_append, get?_read, get?_read]
  · rw [links_eq_filled, links_eq_filled, links_eq_filled, filled_lines_append hs,
      List.flatMap_append]

end

/-- The carriage return at the end of the first text and the break behind it are one break. -/
theorem read_append_style :
    let a := "Style: Shaker\nFinish: Oak http://a.b/c\r"
    let b := "\nstyle: Provence http://a.b/d"
    "\n" ∈ lineBreaks ∧
      (read (a ++ "\n" ++ b)).get? "style" = some (.text "Provence http://a.b/d") ∧
      (read (a ++ "\n" ++ b)).get? "finish" = some (.text "Oak http://a.b/c") ∧
      (read (a ++ "\n" ++ b)).links = ["http://a.b/c", "http://a.b/d"] := by
  intro a b
  have hs : "\n" ∈ lineBreaks := by decide
  obtain ⟨hfields, hlinks, -⟩ := read_append hs a b
  refine ⟨hs, ?_, ?_, ?_⟩
  · rw [hfields]
    decide
  · rw [hfields]
    decide
  · rw [hlinks]
    decide +kernel

end Note
end Millwork
