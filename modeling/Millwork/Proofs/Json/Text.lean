import Millwork.Json.Tree
import Millwork.Proofs.Json.Scalar
import Mathlib.Data.List.Forall2
/-!
# Reading what has been written

Both written forms of a value have the tokens of one tree, and these tokens read as that tree. So a
value is read back as it was, but for numbers that are not finite, which are null, and for the order of
the members, which is that of their keys.
-/
namespace Millwork.Json
open Decimal

private theorem Token.all?_gap {c : Char} (h : isGap c = true) (s : List Char) :
    Token.all? (c :: s) = Token.all? s := by
  rw [Token.all?, if_pos h]

private theorem Token.all?_read {c : Char} {s rest : List Char} {t : Token} (hg : isGap c = false)
    (h : Token.read? (c :: s) = some (t, rest)) :
    Token.all? (c :: s) = (Token.all? rest).map (t :: ·) := by
  rw [Token.all?, if_neg (by simp [hg])]
  split
  · rename_i t' rest' h'
    rw [h] at h'
    obtain ⟨rfl, rfl⟩ := Prod.mk.inj (Option.some.inj h')
    rfl
  · rename_i h'
    rw [h] at h'
    cases h'

def Lexes (text : List Char) (ts : List Token) : Prop :=
  ∀ rest, Ends rest → Token.all? (text ++ rest) = (Token.all? rest).map (ts ++ ·)

private theorem lexes_nil : Lexes [] [] := by
  intro rest _
  cases h : Token.all? rest <;> simp [h]

theorem Lexes.append {s s' : List Char} {ts ts' : List Token} (h : Lexes s ts) (he : Ends s')
    (h' : Lexes s' ts') : Lexes (s ++ s') (ts ++ ts') := by
  intro rest hr
  rw [List.append_assoc, h _ (he.append hr), h' rest hr, Option.map_map]
  simp [Function.comp_def]

/-- A mark is a token, whatever follows. -/
theorem Lexes.mark {c : Char} {t : Token} {s : List Char} {ts : List Token} (hg : isGap c = false)
    (ht : ∀ rest, Token.read? (c :: rest) = some (t, rest)) (h : Lexes s ts) :
    Lexes (c :: s) (t :: ts) := by
  intro rest hr
  rw [List.cons_append, Token.all?_read hg (ht _), h rest hr, Option.map_map]
  rfl

private theorem Lexes.gaps {gaps s : List Char} {ts : List Token} (hg : ∀ c ∈ gaps, isGap c = true)
    (h : Lexes s ts) : Lexes (gaps ++ s) ts := by
  induction gaps with
  | nil => exact h
  | cons c gaps ih =>
    intro rest hr
    rw [List.cons_append, List.cons_append, Token.all?_gap (hg c (by simp))]
    exact ih (fun c hc => hg c (List.mem_cons_of_mem _ hc)) rest hr

private theorem lexes_null : Lexes nullText [.null] := by
  intro rest _
  exact Token.all?_read rfl rfl

private theorem lexes_word (b : Bool) : Lexes (wordOf b) [.bool b] := by
  intro rest _
  cases b <;> exact Token.all?_read rfl rfl

private theorem lexes_quote (s : List Char) : Lexes (quote s) [.string (s.map .char)] := by
  intro rest _
  have hq := Quoted.read?_quote s rest
  rw [quote, List.append_assoc]
  refine Token.all?_read rfl ?_
  show (Quoted.read? (_ ++ '"' :: rest)).map _ = _
  rw [hq]
  rfl

private theorem numberText_head (x : Float) :
    ∃ c more, numberText x = c :: more ∧ (c = '-' ∨ c.isDigit = true) := by
  obtain ⟨digit, more, hs, hd⟩ := spelling_head (writtenLiteral_wellFormed (shortest .even x))
    (writtenLiteral_allowed (shortest .even x))
  rw [numberText_eq, numeralOf, hs]
  cases isNegative x with
  | true => exact ⟨'-', digit :: more, rfl, .inl rfl⟩
  | false => exact ⟨digit, more, rfl, .inr hd⟩

private theorem Token.read?_number {c : Char} (hc : c = '-' ∨ c.isDigit = true) (s : List Char) :
    Token.read? (c :: s) =
      (Numeral.read? (c :: s)).map fun found => (.number found.1, found.2) := by
  unfold Token.read?
  split
  case h_11 => rfl
  all_goals
    rename_i he
    obtain ⟨rfl, _⟩ := List.cons.inj he
    rcases hc with hc | hc <;> cases hc

private theorem lexes_number (x : Float) : Lexes (numberText x) [.number (numeralOf x)] := by
  intro rest hr
  obtain ⟨c, more, ht, hc⟩ := numberText_head x
  have hg : isGap c = false := by
    rcases hc with rfl | hd
    · rfl
    · cases hgap : isGap c with
      | false => rfl
      | true =>
        simp only [isGap, Bool.or_eq_true, decide_eq_true_eq] at hgap
        rcases hgap with ((rfl | rfl) | rfl) | rfl <;> cases hd
  have hn := Numeral.read?_numberText x hr
  rw [ht, List.cons_append] at hn ⊢
  rw [Token.all?_read hg (by rw [Token.read?_number hc, hn]; rfl)]
  rfl

/-- Tokens of several texts with commas between them. -/
def joined : List (List Token) → List Token
  | [] => []
  | [ts] => ts
  | ts :: more => ts ++ .comma :: joined more

private theorem lexes_separated {gaps : List Char} (hg : ∀ c ∈ gaps, isGap c = true)
    {texts : List (List Char)} {tss : List (List Token)} (h : List.Forall₂ Lexes texts tss) :
    Lexes (separated (',' :: gaps) texts) (joined tss) := by
  induction h with
  | nil => exact lexes_nil
  | @cons text ts texts tss ht hm ih =>
    cases hm with
    | nil => exact ht
    | cons hnext hmore =>
      rw [separated, joined, List.append_assoc]
      · exact ht.append (ends_cons.2 rfl) (.mark rfl (fun _ => rfl) (.gaps hg ih))
      · simp
      · simp

namespace Tree
mutual
def tokens : Tree → List Token
  | .null => [.null]
  | .bool b => [.bool b]
  | .number n => [.number n]
  | .string s => [.string s]
  | .array items => .openBracket :: (joined (itemTokens items) ++ [.closeBracket])
  | .object members => .openBrace :: (joined (memberTokens members) ++ [.closeBrace])

def itemTokens : List Tree → List (List Token)
  | [] => []
  | item :: more => tokens item :: itemTokens more

def memberTokens : List (Quoted × Tree) → List (List Token)
  | [] => []
  | (key, item) :: more => (.string key :: .colon :: tokens item) :: memberTokens more
end

private theorem foldlM_firstItem (frames : List Frame) (item : Tree) (more : List Token) :
    (item.tokens ++ more).foldlM step? (frames, .firstItem) =
      (item.tokens ++ more).foldlM step? (.items [] :: frames, .value) := by
  cases item <;> rfl

private theorem foldlM_firstItems (frames : List Frame) (item : Tree) (items : List Tree)
    (more : List Token) :
    (joined (itemTokens (item :: items)) ++ more).foldlM step? (frames, .firstItem) =
      (joined (itemTokens (item :: items)) ++ more).foldlM step? (.items [] :: frames, .value) := by
  cases items with
  | nil => exact foldlM_firstItem frames item more
  | cons next items =>
    rw [itemTokens, itemTokens, joined, List.append_assoc]
    · exact foldlM_firstItem frames item _
    · simp

private theorem foldlM_firstKey (frames : List Frame) (key : Quoted) (item : Tree)
    (members : List (Quoted × Tree)) (more : List Token) :
    (joined (memberTokens ((key, item) :: members)) ++ more).foldlM step? (frames, .firstKey) =
      (joined (memberTokens ((key, item) :: members)) ++ more).foldlM step? (frames, .key []) := by
  cases members with
  | nil => rfl
  | cons next members =>
    obtain ⟨key', item'⟩ := next
    rfl

mutual
private theorem foldlM_tokens (t : Tree) (frames : List Frame) (more : List Token) :
    (t.tokens ++ more).foldlM step? (frames, .value) = more.foldlM step? (frames, .after t) := by
  cases t with
  | null | bool b | number n | string s => rfl
  | array items =>
    have h := foldlM_items items [] frames more
    rw [tokens, List.cons_append, List.append_assoc, List.foldlM_cons]
    show (joined (itemTokens items) ++ _).foldlM step? (frames, .firstItem) = _
    cases items with
    | nil => rfl
    | cons item items =>
      rw [foldlM_firstItems]
      exact h (by simp)
  | object members =>
    have h := foldlM_members members [] frames more
    rw [tokens, List.cons_append, List.append_assoc, List.foldlM_cons]
    show (joined (memberTokens members) ++ _).foldlM step? (frames, .firstKey) = _
    cases members with
    | nil => rfl
    | cons member members =>
      rw [foldlM_firstKey]
      exact h (by simp)

private theorem foldlM_items (items : List Tree) (done : List Tree) (frames : List Frame)
    (more : List Token) (hn : items ≠ []) :
    (joined (itemTokens items) ++ .closeBracket :: more).foldlM step?
        (.items done :: frames, .value) =
      more.foldlM step? (frames, .after (.array (done.reverse ++ items))) := by
  cases items with
  | nil => exact absurd rfl hn
  | cons item items =>
    have hi := foldlM_tokens item (.items done :: frames)
    have h := foldlM_items items (item :: done) frames more
    rw [List.reverse_cons, List.append_assoc] at h
    cases items with
    | nil =>
      rw [itemTokens, itemTokens, joined, hi, List.foldlM_cons, ← List.reverse_cons]
      rfl
    | cons next items =>
      rw [itemTokens, itemTokens, joined, ← itemTokens, List.append_assoc, hi]
      · exact h (by simp)
      · simp

private theorem foldlM_members (members : List (Quoted × Tree)) (done : List (Quoted × Tree))
    (frames : List Frame) (more : List Token) (hn : members ≠ []) :
    (joined (memberTokens members) ++ .closeBrace :: more).foldlM step? (frames, .key done) =
      more.foldlM step? (frames, .after (.object (done.reverse ++ members))) := by
  match members with
  | [] => exact absurd rfl hn
  | (key, item) :: members =>
    have hi := foldlM_tokens item (.members done key :: frames)
    have h := foldlM_members members ((key, item) :: done) frames more
    rw [List.reverse_cons, List.append_assoc] at h
    cases members with
    | nil =>
      rw [memberTokens, memberTokens, joined, List.cons_append, List.cons_append, List.foldlM_cons]
      show (item.tokens ++ _).foldlM step? (.members done key :: frames, .value) = _
      rw [hi, List.foldlM_cons, ← List.reverse_cons]
      rfl
    | cons next members =>
      obtain ⟨key', item'⟩ := next
      rw [memberTokens, memberTokens, joined, ← memberTokens, List.append_assoc, List.cons_append,
        List.cons_append, List.foldlM_cons]
      · show (item.tokens ++ _).foldlM step? (.members done key :: frames, .value) = _
        rw [hi]
        exact h (by simp)
      · simp
end

private theorem ofTokens?_tokens (t : Tree) : ofTokens? t.tokens = some t := by
  have h := foldlM_tokens t [] []
  rw [List.append_nil] at h
  rw [ofTokens?, h]
  rfl

end Tree

mutual
/-- The tree that is written for a value. -/
def tree : Json → Tree
  | .null => .null
  | .bool b => .bool b
  | .number x => if x.isFinite then .number (numeralOf x) else .null
  | .string s => .string (s.toList.map .char)
  | .array items => .array (itemTrees items)
  | .object members => .object (memberTrees members)

def itemTrees : List Json → List Tree
  | [] => []
  | item :: more => tree item :: itemTrees more

def memberTrees : List (String × Json) → List (Quoted × Tree)
  | [] => []
  | (key, item) :: more => (key.toList.map .char, tree item) :: memberTrees more
end

private theorem lexes_scalarNumber (x : Float) : Lexes (scalarNumber x) (tree (.number x)).tokens := by
  rw [tree, scalarNumber]
  split
  · exact lexes_number x
  · exact lexes_null

private theorem newLine_isGap (level : Nat) : ∀ c ∈ newLine level, isGap c = true := by
  intro c hc
  rcases List.mem_cons.1 hc with rfl | hs
  · rfl
  · rw [List.eq_of_mem_replicate hs]
    rfl

private theorem ends_newLine (level : Nat) (s : List Char) : Ends (newLine level ++ s) :=
  ends_cons.2 rfl

section
variable {opening closing : Char} {first last : Token} {texts : List (List Char)}
  {tss : List (List Token)}

private theorem lexes_bracketed (ho : isGap opening = false)
    (hf : ∀ rest, Token.read? (opening :: rest) = some (first, rest)) (hc : isGap closing = false)
    (hl : ∀ rest, Token.read? (closing :: rest) = some (last, rest)) (level : Nat)
    (h : List.Forall₂ Lexes texts tss) :
    Lexes (bracketed opening closing level texts) (first :: (joined tss ++ [last])) := by
  have hclose : Lexes [closing] [last] := .mark hc hl lexes_nil
  unfold bracketed
  cases h with
  | nil => exact .mark ho hf hclose
  | cons ht hm =>
    have hs := lexes_separated (newLine_isGap (level + 1)) (.cons ht hm)
    have hg := hs.append (ends_newLine level [closing]) (.gaps (newLine_isGap level) hclose)
    rw [← List.append_assoc] at hg
    have hb := Lexes.mark ho hf (.gaps (newLine_isGap (level + 1)) hg)
    simpa only [List.isEmpty_cons, Bool.false_eq_true, if_false, List.cons_append,
      List.append_assoc] using hb

private theorem lexes_enclosed (ho : isGap opening = false)
    (hf : ∀ rest, Token.read? (opening :: rest) = some (first, rest)) (hc : isGap closing = false)
    (hl : ∀ rest, Token.read? (closing :: rest) = some (last, rest))
    (hclosing : continuesNumber closing = false) (h : List.Forall₂ Lexes texts tss) :
    Lexes (opening :: separated [','] texts ++ [closing]) (first :: (joined tss ++ [last])) := by
  have hg : ∀ c ∈ ([] : List Char), isGap c = true := by simp
  have hs := lexes_separated hg h
  exact .mark ho hf (hs.append (ends_cons.2 hclosing) (.mark hc hl lexes_nil))

end

private theorem lexes_member (key : String) {gaps text : List Char} {ts : List Token}
    (hg : ∀ c ∈ gaps, isGap c = true) (h : Lexes text ts) :
    Lexes (quote key.toList ++ ':' :: (gaps ++ text))
      (.string (key.toList.map .char) :: .colon :: ts) :=
  (lexes_quote key.toList).append (ends_cons.2 rfl) (.mark rfl (fun _ => rfl) (.gaps hg h))

mutual
private theorem lexes_spread (level : Nat) (value : Json) :
    Lexes (spread level value) value.tree.tokens := by
  cases value with
  | null => exact lexes_null
  | bool b => exact lexes_word b
  | number x => exact lexes_scalarNumber x
  | string s => exact lexes_quote s.toList
  | array items =>
    exact lexes_bracketed rfl (fun _ => rfl) rfl (fun _ => rfl) level
      (lexes_spreadItems (level + 1) items)
  | object members =>
    exact lexes_bracketed rfl (fun _ => rfl) rfl (fun _ => rfl) level
      (lexes_spreadMembers (level + 1) members)

private theorem lexes_spreadItems (level : Nat) (items : List Json) :
    List.Forall₂ Lexes (spreadItems level items) (Tree.itemTokens (itemTrees items)) := by
  cases items with
  | nil => exact .nil
  | cons item more => exact .cons (lexes_spread level item) (lexes_spreadItems level more)

private theorem lexes_spreadMembers (level : Nat) (members : List (String × Json)) :
    List.Forall₂ Lexes (spreadMembers level members) (Tree.memberTokens (memberTrees members)) := by
  match members with
  | [] => exact .nil
  | (key, item) :: more =>
    have hg : ∀ c ∈ [' '], isGap c = true := by simp [isGap]
    exact .cons (lexes_member key hg (lexes_spread level item)) (lexes_spreadMembers level more)
end

mutual
private theorem lexes_compact (value : Json) : Lexes (compact value) value.tree.tokens := by
  cases value with
  | null => exact lexes_null
  | bool b => exact lexes_word b
  | number x => exact lexes_scalarNumber x
  | string s => exact lexes_quote s.toList
  | array items =>
    exact lexes_enclosed rfl (fun _ => rfl) rfl (fun _ => rfl) rfl (lexes_compactItems items)
  | object members =>
    exact lexes_enclosed rfl (fun _ => rfl) rfl (fun _ => rfl) rfl (lexes_compactMembers members)

private theorem lexes_compactItems (items : List Json) :
    List.Forall₂ Lexes (compactItems items) (Tree.itemTokens (itemTrees items)) := by
  cases items with
  | nil => exact .nil
  | cons item more => exact .cons (lexes_compact item) (lexes_compactItems more)

private theorem lexes_compactMembers (members : List (String × Json)) :
    List.Forall₂ Lexes (compactMembers members) (Tree.memberTokens (memberTrees members)) := by
  match members with
  | [] => exact .nil
  | (key, item) :: more =>
    have hg : ∀ c ∈ ([] : List Char), isGap c = true := by simp
    exact .cons (lexes_member key hg (lexes_compact item)) (lexes_compactMembers more)
end

private theorem Tree.read?_of_lexes {text gaps : List Char} {t : Tree} (h : Lexes text t.tokens)
    (hg : ∀ c ∈ gaps, isGap c = true) : Tree.read? (text ++ gaps) = some t := by
  have hn : Token.all? [] = some [] := by rw [Token.all?]
  have hgaps : Token.all? gaps = some [] := by
    have h₀ := Lexes.gaps hg lexes_nil [] ends_nil
    rw [List.append_nil, List.append_nil, hn] at h₀
    exact h₀
  have he : Ends gaps := by
    cases gaps with
    | nil => exact ends_nil
    | cons c gaps =>
      have hc := hg c (by simp)
      simp only [isGap, Bool.or_eq_true, decide_eq_true_eq] at hc
      rcases hc with ((rfl | rfl) | rfl) | rfl <;> exact ends_cons.2 rfl
  rw [Tree.read?, h gaps he, hgaps, Option.map_some, List.append_nil, Option.bind_some,
    Tree.ofTokens?_tokens]

mutual
/-- What is left of a value after it has been written and read. -/
def kept : Json → Json
  | .null => .null
  | .bool b => .bool b
  | .number x => if x.isFinite then .number x else .null
  | .string s => .string s
  | .array items => .array (keptItems items)
  | .object members => .object (sortMembers (keptMembers members))

def keptItems : List Json → List Json
  | [] => []
  | item :: more => kept item :: keptItems more

def keptMembers : List (String × Json) → List (String × Json)
  | [] => []
  | (key, item) :: more => (key, kept item) :: keptMembers more
end

mutual
/-- The value has at most `depth` brackets and braces within each other, and each of its finite numbers
is what its text reads as. -/
def Readable : Nat → Json → Prop
  | _, .null | _, .bool _ | _, .string _ => True
  | _, .number x => x.isFinite = true → (numeralOf x).value? = some x
  | depth, .array items => 0 < depth ∧ ReadableItems (depth - 1) items
  | depth, .object members => 0 < depth ∧ ReadableMembers (depth - 1) members

def ReadableItems : Nat → List Json → Prop
  | _, [] => True
  | depth, item :: more => Readable depth item ∧ ReadableItems depth more

def ReadableMembers : Nat → List (String × Json) → Prop
  | _, [] => True
  | depth, (_, item) :: more => Readable depth item ∧ ReadableMembers depth more
end

theorem Quoted.string?_map_char (s : String) : Quoted.string? (s.toList.map .char) = some s := by
  rw [Quoted.string?, Quoted.text?_map_char, Option.map_some, String.ofList_toList]

mutual
theorem toJson?_tree {depth : Nat} {value : Json} (h : Readable depth value) :
    value.tree.toJson? depth = some value.kept := by
  cases value with
  | null | bool b => rfl
  | number x =>
    rw [tree, kept]
    by_cases hx : x.isFinite = true
    · have hn := h hx
      simp only [hx, if_true, Tree.toJson?, hn, Option.map_some]
    · simp only [hx]
      rfl
  | string s => rw [tree, Tree.toJson?, Quoted.string?_map_char, Option.map_some, kept]
  | array items =>
    cases depth with
    | zero => exact absurd h.1 (Nat.lt_irrefl 0)
    | succ depth =>
      have hi : ReadableItems depth items := h.2
      rw [tree, kept, Tree.toJson?, itemsToJson?_itemTrees hi]
      rfl
  | object members =>
    cases depth with
    | zero => exact absurd h.1 (Nat.lt_irrefl 0)
    | succ depth =>
      have hm : ReadableMembers depth members := h.2
      rw [tree, kept, Tree.toJson?, membersToJson?_memberTrees hm]
      rfl

private theorem itemsToJson?_itemTrees {depth : Nat} {items : List Json}
    (h : ReadableItems depth items) :
    Tree.itemsToJson? depth (itemTrees items) = some (keptItems items) := by
  cases items with
  | nil => rfl
  | cons item more =>
    rw [itemTrees, Tree.itemsToJson?, toJson?_tree h.1, itemsToJson?_itemTrees h.2, keptItems]

private theorem membersToJson?_memberTrees {depth : Nat} {members : List (String × Json)}
    (h : ReadableMembers depth members) :
    Tree.membersToJson? depth (memberTrees members) = some (keptMembers members) := by
  match members with
  | [] => rfl
  | (key, item) :: more =>
    rw [memberTrees, Tree.membersToJson?, Quoted.string?_map_char, toJson?_tree h.1,
      membersToJson?_memberTrees h.2, keptMembers]
end

private theorem read?_of_lexes {text gaps : List Char} {value : Json} (h : Lexes text value.tree.tokens)
    (hg : ∀ c ∈ gaps, isGap c = true) (hr : Readable depthLimit value) :
    read? (String.ofList (text ++ gaps)) = some value.kept := by
  rw [read?, String.toList_ofList, Tree.read?_of_lexes h hg, Option.bind_some, toJson?_tree hr]

/-- One of the two written forms of a value. -/
def IsWritten (value : Json) (text : String) : Prop :=
  text = compactText value ∨ text = prettyText value

/-- Both forms are read as the same tree. -/
theorem Tree.read?_written {value : Json} {text : String} (h : value.IsWritten text) :
    Tree.read? text.toList = some value.tree := by
  have hg : ∀ c ∈ ([] : List Char), isGap c = true := by simp
  rcases h with rfl | rfl
  · have hr := Tree.read?_of_lexes (lexes_compact value) hg
    rwa [List.append_nil, ← String.toList_ofList (l := compact value)] at hr
  · have hr := Tree.read?_of_lexes (lexes_spread 0 value) hg
    rwa [List.append_nil, ← String.toList_ofList (l := spread 0 value)] at hr

theorem read?_written {value : Json} {text : String} (hr : Readable depthLimit value)
    (h : value.IsWritten text) : read? text = some value.kept := by
  rw [read?, Tree.read?_written h, Option.bind_some, toJson?_tree hr]

theorem read?_prettyLine {value : Json} (h : Readable depthLimit value) :
    read? (prettyText value ++ "\n") = some value.kept := by
  have hg : ∀ c ∈ ['\n'], isGap c = true := by simp [isGap]
  have hr := read?_of_lexes (lexes_spread 0 value) hg h
  rwa [String.ofList_append] at hr

theorem read?_numberText (x : Float) :
    read? (String.ofList (numberText x)) = (numeralOf x).value?.map .number := by
  have hg : ∀ c ∈ ([] : List Char), isGap c = true := by simp
  have hl : Lexes (numberText x) (Tree.number (numeralOf x)).tokens := lexes_number x
  have ht := Tree.read?_of_lexes hl hg
  rw [List.append_nil] at ht
  rw [read?, String.toList_ofList, ht, Option.bind_some, Tree.toJson?]

theorem value?_numeralOf {x : Float} (h : read? (String.ofList (numberText x)) = some (.number x)) :
    (numeralOf x).value? = some x := by
  rw [read?_numberText] at h
  obtain ⟨y, hy, he⟩ := Option.map_eq_some_iff.1 h
  rw [hy, Json.number.inj he]

end Millwork.Json
