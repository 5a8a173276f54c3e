import Millwork.Text.Pattern
/-!
# Searching a text

Where a search with a pattern finds tokens: it finds none exactly if the pattern reads nothing at any
place, it passes over what the pattern cannot read, and a token that it misses starts inside of one that
it finds.
-/
namespace Millwork.Text.Pattern
variable {α : Type} {p : Pattern α} {a : α} {c : Char} {s t rest before : List Char}

@[simp] theorem read_nil (p : Pattern α) : p.read [] = none := by
  cases h : p.read [] with
  | none => rfl
  | some found => exact absurd (p.shorter h) (Nat.not_lt_zero _)

@[simp] theorem pieces_nil (p : Pattern α) : p.pieces [] = [] := by
  rw [pieces]

theorem pieces_of_read (h : p.read s = some (a, rest)) : p.pieces s = .inr a :: p.pieces rest := by
  cases s with
  | nil => simp at h
  | cons c s =>
    rw [pieces]
    split
    · rename_i hread
      rw [h] at hread
      cases hread
      rfl
    · rename_i hread
      rw [h] at hread
      cases hread

theorem pieces_of_not_read (h : p.read (c :: s) = none) :
    p.pieces (c :: s) = .inl c :: p.pieces s := by
  rw [pieces]
  split
  · rename_i hread
    rw [h] at hread
    cases hread
  · rfl

theorem tokens_of_read (h : p.read s = some (a, rest)) : p.tokens s = a :: p.tokens rest := by
  simp [tokens, pieces_of_read h]

theorem tokens_of_not_read (h : p.read (c :: s) = none) : p.tokens (c :: s) = p.tokens s := by
  rw [tokens, pieces_of_not_read h]
  rfl

theorem without_of_read (h : p.read s = some (a, rest)) : p.without s = p.without rest := by
  rw [without, pieces_of_read h]
  rfl

theorem without_of_not_read (h : p.read (c :: s) = none) :
    p.without (c :: s) = c :: p.without s := by
  simp [without, pieces_of_not_read h]

theorem cutFirst?_of_read (h : p.read s = some (a, rest)) : p.cutFirst? s = some (a, rest) := by
  cases s with
  | nil => simp at h
  | cons c s => simp [cutFirst?, h]

theorem cutFirst?_of_not_read (h : p.read (c :: s) = none) :
    p.cutFirst? (c :: s) = (p.cutFirst? s).map fun found => (found.1, c :: found.2) := by
  simp [cutFirst?, h]

@[simp] theorem tokens_nil (p : Pattern α) : p.tokens [] = [] := by
  simp [tokens]

@[simp] theorem without_nil (p : Pattern α) : p.without [] = [] := by
  simp [without]

private theorem eq_of_read {p q : Pattern α} (h : ∀ s, p.read s = q.read s) : p = q := by
  obtain ⟨read, _⟩ := p
  obtain ⟨read', _⟩ := q
  obtain rfl : read = read' := funext h
  rfl

theorem map_pair {β γ δ : Type} (f : α → β) (g : γ → δ) (p : Pattern α) (q : Pattern γ) :
    (p.map f).pair (q.map g) = (p.pair q).map (Prod.map f g) := by
  apply eq_of_read
  intro s
  show ((p.read s).map _).bind _ = ((p.read s).bind _).map _
  rw [Option.bind_map, Option.map_bind]
  congr 1
  funext first
  show ((q.read first.2).map _).map _ = ((q.read first.2).map _).map _
  rw [Option.map_map, Option.map_map]
  rfl

private theorem pieces_map {β : Type} (f : α → β) (p : Pattern α) (s : List Char) :
    (p.map f).pieces s = (p.pieces s).map (Sum.map id f) := by
  fun_induction pieces p s with
  | case1 => exact pieces_nil _
  | case2 c s a rest hread ih =>
    have hmap : (p.map f).read (c :: s) = some (f a, rest) := congrArg (Option.map _) hread
    rw [pieces_of_read hmap, ih]
    rfl
  | case3 c s hread ih =>
    have hmap : (p.map f).read (c :: s) = none := congrArg (Option.map _) hread
    rw [pieces_of_not_read hmap, ih]
    rfl

theorem tokens_map {β : Type} (f : α → β) (p : Pattern α) (s : List Char) :
    (p.map f).tokens s = (p.tokens s).map f := by
  rw [tokens, tokens, pieces_map, List.filterMap_map, List.map_filterMap]
  congr 1
  funext piece
  cases piece <;> rfl

theorem without_map {β : Type} (f : α → β) (p : Pattern α) (s : List Char) :
    (p.map f).without s = p.without s := by
  rw [without, without, pieces_map, List.filterMap_map]
  congr 1
  funext piece
  cases piece <;> rfl

theorem cutFirst?_map {β : Type} (f : α → β) (p : Pattern α) (s : List Char) :
    (p.map f).cutFirst? s = (p.cutFirst? s).map fun found => (f found.1, found.2) := by
  induction s with
  | nil => rfl
  | cons c s ih =>
    cases hread : p.read (c :: s) with
    | none =>
      have hmap : (p.map f).read (c :: s) = none := congrArg (Option.map _) hread
      rw [cutFirst?_of_not_read hmap, cutFirst?_of_not_read hread, ih, Option.map_map, Option.map_map]
      rfl
    | some found =>
      have hmap : (p.map f).read (c :: s) = some (f found.1, found.2) := congrArg (Option.map _) hread
      rw [cutFirst?_of_read hmap, cutFirst?_of_read hread]
      rfl

theorem forall_mem_tokens {P : α → Prop} (h : ∀ s a rest, p.read s = some (a, rest) → P a)
    (s : List Char) : ∀ a ∈ p.tokens s, P a := by
  fun_induction pieces p s with
  | case1 => simp
  | case2 c s a rest hread ih =>
    rw [tokens_of_read hread]
    exact List.forall_mem_cons.2 ⟨h _ _ _ hread, ih⟩
  | case3 c s hread ih =>
    rw [tokens_of_not_read hread]
    exact ih

theorem of_cutFirst? {P : α → Prop} (h : ∀ s a rest, p.read s = some (a, rest) → P a)
    {found : α × List Char} (hf : p.cutFirst? s = some found) : P found.1 := by
  induction s generalizing found with
  | nil => cases hf
  | cons c s ih =>
    cases hread : p.read (c :: s) with
    | none =>
      rw [cutFirst?_of_not_read hread] at hf
      obtain ⟨inner, hinner, rfl⟩ := Option.map_eq_some_iff.1 hf
      have hinside : P inner.1 := ih hinner
      exact hinside
    | some here =>
      rw [cutFirst?_of_read hread] at hf
      cases hf
      exact h _ _ _ hread

theorem tokens_eq_nil_iff : p.tokens s = [] ↔ ∀ t, t <:+ s → p.read t = none := by
  induction s with
  | nil => simp
  | cons c s ih =>
    cases h : p.read (c :: s) with
    | none => simp [tokens_of_not_read h, ih, List.suffix_cons_iff, h]
    | some found =>
      rw [tokens_of_read h]
      refine iff_of_false (List.cons_ne_nil _ _) ?_
      intro hall
      rw [hall _ List.suffix_rfl] at h
      cases h

theorem cutFirst?_eq_none_iff : p.cutFirst? s = none ↔ ∀ t, t <:+ s → p.read t = none := by
  induction s with
  | nil => simp [cutFirst?]
  | cons c s ih =>
    cases h : p.read (c :: s) with
    | none => simp [cutFirst?_of_not_read h, ih, List.suffix_cons_iff, h]
    | some found => simp [cutFirst?_of_read h, List.suffix_cons_iff, h]

theorem without_of_tokens_eq_nil (h : p.tokens s = []) : p.without s = s := by
  induction s with
  | nil => simp
  | cons c s ih =>
    have hread : p.read (c :: s) = none := tokens_eq_nil_iff.1 h _ List.suffix_rfl
    rw [tokens_of_not_read hread] at h
    rw [without_of_not_read hread, ih h]

/-- With `s` behind it, no token starts in `before`. -/
def Passes (p : Pattern α) (before s : List Char) : Prop :=
  ∀ t, t <:+ before → t ≠ [] → p.read (t ++ s) = none

private theorem passes_cons : p.Passes (c :: before) s ↔
    p.read (c :: before ++ s) = none ∧ p.Passes before s := by
  constructor
  · intro h
    refine ⟨h _ List.suffix_rfl (List.cons_ne_nil _ _), ?_⟩
    intro t ht
    exact h t (ht.trans (List.suffix_cons c before))
  · rintro ⟨hread, h⟩ t ht hne
    rcases List.suffix_cons_iff.1 ht with rfl | ht
    · exact hread
    · exact h t ht hne

theorem Passes.append {other : List Char} (h : p.Passes before (other ++ s))
    (ho : p.Passes other s) : p.Passes (before ++ other) s := by
  induction before with
  | nil => exact ho
  | cons c before ih =>
    obtain ⟨hread, hbefore⟩ := passes_cons.1 h
    refine passes_cons.2 ⟨?_, ih hbefore⟩
    simpa using hread

theorem Passes.tokens (h : p.Passes before s) : p.tokens (before ++ s) = p.tokens s := by
  induction before with
  | nil => rfl
  | cons c before ih =>
    obtain ⟨hread, hbefore⟩ := passes_cons.1 h
    exact (tokens_of_not_read hread).trans (ih hbefore)

theorem Passes.without (h : p.Passes before s) : p.without (before ++ s) = before ++ p.without s := by
  induction before with
  | nil => rfl
  | cons c before ih =>
    obtain ⟨hread, hbefore⟩ := passes_cons.1 h
    exact (without_of_not_read hread).trans (congrArg (c :: ·) (ih hbefore))

theorem Passes.cutFirst? (h : p.Passes before s) :
    p.cutFirst? (before ++ s) =
      (p.cutFirst? s).map fun found => (found.1, before ++ found.2) := by
  induction before with
  | nil => simp
  | cons c before ih =>
    obtain ⟨hread, hbefore⟩ := passes_cons.1 h
    rw [List.cons_append] at hread ⊢
    rw [cutFirst?_of_not_read hread, ih hbefore, Option.map_map]
    rfl

theorem Passes.tokens_eq_nil (h : p.Passes s []) : p.tokens s = [] := by
  simpa using h.tokens

theorem Passes.without_eq_self (h : p.Passes s []) : p.without s = s := by
  simpa using h.without

theorem Passes.cutFirst?_eq_none (h : p.Passes s []) : p.cutFirst? s = none := by
  simpa [Pattern.cutFirst?] using h.cutFirst?

def LeavesEnd (p : Pattern α) : Prop :=
  ∀ s a rest, p.read s = some (a, rest) → rest <:+ s

theorem LeavesEnd.exists_read (hp : p.LeavesEnd) (h : a ∈ p.tokens s) :
    ∃ t rest, t <:+ s ∧ p.read t = some (a, rest) := by
  induction hn : s.length using Nat.strongRecOn generalizing s with
  | ind n ih =>
    cases s with
    | nil => simp at h
    | cons c s =>
      cases hread : p.read (c :: s) with
      | none =>
        rw [tokens_of_not_read hread] at h
        obtain ⟨t, rest, ht, hr⟩ := ih s.length (by simp at hn; omega) h rfl
        exact ⟨t, rest, ht.trans (List.suffix_cons c s), hr⟩
      | some found =>
        rw [tokens_of_read hread] at h
        rcases List.mem_cons.1 h with rfl | hmem
        · exact ⟨c :: s, found.2, List.suffix_rfl, hread⟩
        · have hlt := p.shorter hread
          obtain ⟨t, rest, ht, hr⟩ := ih found.2.length (by omega) hmem rfl
          exact ⟨t, rest, ht.trans (hp _ _ _ hread), hr⟩

/-- What can be read at some place is found there, unless a token that is found goes across that
place. -/
theorem LeavesEnd.mem_or_crossed (hp : p.LeavesEnd) (ht : t <:+ s)
    (h : p.read t = some (a, rest)) :
    a ∈ p.tokens s ∨ ∃ x b behind, x ≠ [] ∧ p.read (x ++ t) = some (b, behind) ∧
      behind.length < t.length ∧ b ∈ p.tokens s := by
  induction hn : s.length using Nat.strongRecOn generalizing s with
  | ind n ih =>
    by_cases hst : t = s
    · rw [← hst, tokens_of_read h]
      exact .inl List.mem_cons_self
    · cases s with
      | nil => exact absurd (List.suffix_nil.1 ht) hst
      | cons c s =>
        cases hread : p.read (c :: s) with
        | none =>
          rw [tokens_of_not_read hread]
          have hts : t <:+ s := (List.suffix_cons_iff.1 ht).resolve_left hst
          exact ih s.length (by simp at hn; omega) hts rfl
        | some found =>
          obtain ⟨b, behind⟩ := found
          rw [tokens_of_read hread]
          by_cases hlt : behind.length < t.length
          · -- the token that is found here ends behind the start of `t`
            obtain ⟨x, hx⟩ := ht
            refine .inr ⟨x, b, behind, ?_, by rwa [hx], hlt, List.mem_cons_self⟩
            rintro rfl
            exact hst hx
          · have hbehind : t <:+ behind :=
              List.suffix_of_suffix_length_le ht (hp _ _ _ hread) (by omega)
            have hshort := p.shorter hread
            rcases ih behind.length (by omega) hbehind rfl with hmem | ⟨x, d, after, hx⟩
            · exact .inl (List.mem_cons_of_mem b hmem)
            · obtain ⟨hne, hd, hafter, hmem⟩ := hx
              exact .inr ⟨x, d, after, hne, hd, hafter, List.mem_cons_of_mem b hmem⟩

end Millwork.Text.Pattern
