import Millwork.Proofs.Note.Joining
import Millwork.Proofs.Text.Pattern
/-!
# Links and words

The links of a note are collected line by line, but they do not depend on its lines. Each word of the note,
that is a piece of it between blanks, holds at most one link: it begins at the first place of the word where
something follows a scheme, and goes on to the end of the word.
-/
namespace Millwork
namespace Text

/-- The pieces of a text between its blanks. -/
def words (s : List Char) : List (List Char) :=
  filled (s.splitOnP isBlank)

private theorem words_append_cons {c : Char} (hc : isBlank c = true) (a b : List Char) :
    words (a ++ c :: b) = words a ++ words b :=
  filled_splitOnP_append_cons hc a b

private theorem words_cons_blank {c : Char} (hc : isBlank c = true) (s : List Char) :
    words (c :: s) = words s :=
  words_append_cons hc [] s

private theorem words_of_allBlank {s : List Char} (h : AllBlank s) : words s = [] := by
  induction s with
  | nil => rfl
  | cons c s ih =>
    rw [words_cons_blank (h c List.mem_cons_self)]
    exact ih fun d hd => h d (List.mem_cons_of_mem c hd)

private theorem words_surrounded {before after : List Char} (hb : AllBlank before) (ha : AllBlank after)
    (s : List Char) : words (before ++ s ++ after) = words s := by
  induction before with
  | nil =>
    cases after with
    | nil => simp
    | cons c after =>
      have hc := ha c List.mem_cons_self
      have hafter : AllBlank after := fun d hd => ha d (List.mem_cons_of_mem c hd)
      rw [List.nil_append, words_append_cons hc, words_of_allBlank hafter, List.append_nil]
  | cons c before ih =>
    rw [List.cons_append, List.cons_append, words_cons_blank (hb c List.mem_cons_self)]
    exact ih fun d hd => hb d (List.mem_cons_of_mem c hd)

private theorem words_trim (s : List Char) : words (trim s) = words s := by
  obtain ⟨before, after, hb, ha, hs⟩ := exists_surrounded s
  have h := words_surrounded hb ha (trim s)
  rw [← hs] at h
  exact h.symm

private theorem isBlank_of_endsLine {c : Char} (h : endsLine c = true) : isBlank c = true := by
  simp only [endsLine, Bool.or_eq_true, decide_eq_true_eq] at h
  rcases h with rfl | rfl
  · decide
  · decide

private theorem flatMap_words_splitOnP (s : List Char) :
    (s.splitOnP endsLine).flatMap words = words s := by
  induction hn : s.length using Nat.strongRecOn generalizing s with
  | ind n ih =>
    by_cases h : ∃ c ∈ s, endsLine c = true
    · obtain ⟨c, hmem, hc⟩ := h
      obtain ⟨a, b, rfl⟩ := List.append_of_mem hmem
      simp only [List.length_append, List.length_cons] at hn
      rw [List.splitOnP_append_cons a b hc, List.flatMap_append, ih a.length (by omega) a rfl,
        ih b.length (by omega) b rfl, words_append_cons (isBlank_of_endsLine hc)]
    · have hone : s.splitOnP endsLine = [s] := by
        apply List.splitOnP_eq_singleton
        intro c hc
        rw [← Bool.not_eq_true]
        exact fun he => h ⟨c, hc, he⟩
      simp [hone]

private theorem flatMap_words_lines (s : List Char) : (filled (lines s)).flatMap words = words s := by
  have hnil : words [] = [] := rfl
  rw [filled_lines, flatMap_filled hnil, flatMap_words_splitOnP]

end Text

namespace Link
open Text

def schemes : List (List Char) :=
  ["http://".toList, "https://".toList]

/-- Whether a text begins with a scheme and has something behind it. -/
def startsLink (s : List Char) : Bool :=
  schemes.any fun scheme => scheme.isPrefixOf s && scheme.length < s.length

/-- The end of a word from the first place on where a link starts. -/
def ofWord? (word : List Char) : Option (List Char) :=
  word.tails.find? startsLink

private theorem startsLink_iff (s : List Char) :
    startsLink s = true ↔ ∃ scheme ∈ schemes, ∃ rest, rest ≠ [] ∧ s = scheme ++ rest := by
  rw [startsLink, List.any_eq_true]
  refine exists_congr fun scheme => and_congr_right fun _ => ?_
  rw [Bool.and_eq_true, List.isPrefixOf_iff_prefix, decide_eq_true_eq]
  constructor
  · rintro ⟨⟨rest, rfl⟩, hlt⟩
    refine ⟨rest, ?_, rfl⟩
    rintro rfl
    simp at hlt
  · rintro ⟨rest, hne, rfl⟩
    refine ⟨List.prefix_append scheme rest, ?_⟩
    have := List.length_pos_iff.2 hne
    simp only [List.length_append]
    omega

private theorem scheme?_eq_some_iff {s scheme rest : List Char} :
    scheme? s = some (scheme, rest) ↔ scheme ∈ schemes ∧ s = scheme ++ rest := by
  constructor
  · intro h
    unfold scheme? at h
    split at h
    · cases h
      exact ⟨by decide, rfl⟩
    · cases h
      exact ⟨by decide, rfl⟩
    · cases h
  · rintro ⟨hmem, rfl⟩
    simp only [schemes, List.mem_cons, List.not_mem_nil, or_false] at hmem
    rcases hmem with rfl | rfl
    · rfl
    · rfl

private def EndsWord (s : List Char) : Prop :=
  s.head?.all isBlank = true

private theorem exists_of_scheme {w rest scheme t : List Char} (hr : EndsWord rest)
    (hs : scheme ∈ schemes)
    (h : w ++ rest = scheme ++ t) : ∃ more, w = scheme ++ more ∧ t = more ++ rest := by
  rcases List.append_eq_append_iff.1 h with ⟨a, hscheme, hrest⟩ | ⟨a, hword, ht⟩
  · cases a with
    | nil => exact ⟨[], by simpa using hscheme.symm, hrest.symm⟩
    | cons c a =>
      have hblank : isBlank c = true := by
        rw [hrest] at hr
        simpa [EndsWord] using hr
      have hall : (schemes.all fun scheme => scheme.all (!isBlank ·)) = true := by decide
      have hc := List.all_eq_true.1 (List.all_eq_true.1 hall scheme hs) c (by simp [hscheme])
      rw [hblank] at hc
      cases hc
  · exact ⟨a, hword, ht⟩

section Word
variable {w rest : List Char} (hw : ∀ c ∈ w, isBlank c = false) (hr : EndsWord rest)
include hw hr

private theorem word_append : word (w ++ rest) = w ∧ afterWord (w ++ rest) = rest := by
  have hall : ∀ c ∈ w, (!isBlank c) = true := by
    intro c hc
    rw [hw c hc]
    rfl
  rw [word, afterWord, List.takeWhile_append_of_pos hall, List.dropWhile_append_of_pos hall]
  cases rest with
  | nil => simp
  | cons c rest =>
    have hc : isBlank c = true := by simpa [EndsWord] using hr
    simp [hc]

private theorem read_word :
    pattern.read (w ++ rest) = if startsLink w then some (w, rest) else none := by
  split
  · rename_i hstart
    obtain ⟨scheme, hs, more, hne, rfl⟩ := (startsLink_iff w).1 hstart
    have hread : scheme? (scheme ++ (more ++ rest)) = some (scheme, more ++ rest) :=
      scheme?_eq_some_iff.2 ⟨hs, rfl⟩
    obtain ⟨hword, hafter⟩ := word_append (fun c hc => hw c (List.mem_append_right scheme hc)) hr
    rw [List.append_assoc]
    simp [pattern, hread, hword, hafter, hne]
  · rename_i hstart
    cases hread : scheme? (w ++ rest) with
    | none => simp [pattern, hread]
    | some found =>
      obtain ⟨scheme, t⟩ := found
      obtain ⟨hs, hsplit⟩ := scheme?_eq_some_iff.1 hread
      obtain ⟨more, rfl, rfl⟩ := exists_of_scheme hr hs hsplit
      have hmore := (word_append (fun c hc => hw c (List.mem_append_right scheme hc)) hr).1
      have hnil : more = [] := by
        by_contra hne
        exact hstart ((startsLink_iff _).2 ⟨scheme, hs, more, hne, rfl⟩)
      have hempty : (word (more ++ rest)).isEmpty = true := by
        rw [hmore, hnil]
        rfl
      rw [hsplit] at hread ⊢
      simp only [pattern, hread, hempty, if_true]

private theorem tokens_word :
    pattern.tokens (w ++ rest) = (ofWord? w).toList ++ pattern.tokens rest := by
  induction w with
  | nil => rfl
  | cons c w ih =>
    have hread := read_word hw hr
    cases hstart : startsLink (c :: w) with
    | true =>
      rw [hstart, if_pos rfl] at hread
      rw [Pattern.tokens_of_read hread]
      simp [ofWord?, hstart]
    | false =>
      rw [hstart, if_neg Bool.false_ne_true, List.cons_append] at hread
      rw [List.cons_append, Pattern.tokens_of_not_read hread,
        ih fun d hd => hw d (List.mem_cons_of_mem c hd)]
      simp [ofWord?, hstart]

end Word

private theorem tokens_cons_blank {c : Char} (hc : isBlank c = true) (s : List Char) :
    pattern.tokens (c :: s) = pattern.tokens s := by
  have hw : ∀ d ∈ ([] : List Char), isBlank d = false := List.forall_mem_nil _
  have hend : EndsWord (c :: s) := by simpa [EndsWord] using hc
  exact Pattern.tokens_of_not_read (read_word hw hend)

private theorem filterMap_words_of_word {w : List Char} (hw : ∀ c ∈ w, isBlank c = false) :
    (words w).filterMap ofWord? = (ofWord? w).toList := by
  have hnil : ofWord? [] = none := rfl
  rw [words, List.splitOnP_eq_singleton hw, filterMap_filled hnil]
  cases hlink : ofWord? w with
  | none => simp [hlink]
  | some link => simp [hlink]

private theorem tokens_eq (s : List Char) : pattern.tokens s = (words s).filterMap ofWord? := by
  induction hn : s.length using Nat.strongRecOn generalizing s with
  | ind n ih =>
    have hword : ∀ c ∈ word s, isBlank c = false := by
      intro c hc
      simpa using List.mem_takeWhile_imp hc
    have hs : word s ++ afterWord s = s := List.takeWhile_append_dropWhile
    cases hafter : afterWord s with
    | nil =>
      have hend : EndsWord [] := rfl
      rw [hafter] at hs
      rw [← hs, tokens_word hword hend, Pattern.tokens_nil, List.append_nil, List.append_nil,
        filterMap_words_of_word hword]
    | cons c rest =>
      have hc : isBlank c = true := by
        have h := List.head?_dropWhile_not (!isBlank ·) s
        rw [← afterWord, hafter] at h
        simpa using h
      have hend : EndsWord (c :: rest) := by simpa [EndsWord] using hc
      rw [hafter] at hs
      have hlt : rest.length < n := by
        rw [← hn, ← hs, List.length_append, List.length_cons]
        omega
      rw [← hs, tokens_word hword hend, tokens_cons_blank hc, ih rest.length hlt rest rfl,
        words_append_cons hc, List.filterMap_append, filterMap_words_of_word hword]

end Link

namespace Note
open Text

/-- The links of a note are those of its words, in order. -/
theorem links_words (text : String) :
    (read text).links = ((words text.toList).filterMap Link.ofWord?).map String.ofList := by
  have hline (line : List Char) : Link.inText (trim line) =
      ((words line).filterMap Link.ofWord?).map String.ofList := by
    rw [Link.inText, Link.tokens_eq, words_trim]
  rw [links_eq_filled, ← flatMap_words_lines]
  simp [hline, List.filterMap_flatMap, List.map_flatMap]

/-- Nothing follows the third scheme. -/
example : (read "Door: (http://https://a.b)\nhttps://c http:// d").links =
    ["http://https://a.b)", "https://c"] := by
  decide +kernel

end Note
end Millwork
