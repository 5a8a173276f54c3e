import Millwork.Proofs.Text.Pattern
/-!
# Searching two texts one behind the other

A pattern whose tokens are the same whatever follows them finds in two texts, one behind the other, what it
finds in each of them, unless a token goes across their border. A character that stands in no token, or
only at the end of one, makes such a border.
-/
namespace Millwork.Text.Pattern
variable {α : Type} {p : Pattern α} {Token : α → List Char → Prop} {a : α} {c : Char}
  {s t rest before : List Char}

/-- The pattern reads these tokens, whatever follows them. -/
def Reads (p : Pattern α) (Token : α → List Char → Prop) : Prop :=
  ∀ s a rest, p.read s = some (a, rest) ↔ ∃ token, Token a token ∧ s = token ++ rest

private theorem Reads.read_followed (hp : p.Reads Token) :
    p.read (t ++ s) = some (a, rest ++ s) ↔ p.read t = some (a, rest) := by
  rw [hp, hp]
  refine exists_congr fun token => and_congr_right fun _ => ?_
  rw [← List.append_assoc, List.append_cancel_right_eq]

def Parted (p : Pattern α) (before s : List Char) : Prop :=
  ∀ t, t <:+ before → t ≠ [] → ∀ a rest, p.read (t ++ s) = some (a, rest) → s <:+ rest

theorem Parted.of_suffix (h : p.Parted before s) (ht : t <:+ before) : p.Parted t s :=
  fun u hu => h u (hu.trans ht)

private theorem Parted.read_followed (hp : p.Reads Token) (h : p.Parted before s) (hne : before ≠ []) :
    p.read (before ++ s) = (p.read before).map fun found => (found.1, found.2 ++ s) := by
  cases hread : p.read before with
  | some found =>
    exact hp.read_followed.2 hread
  | none =>
    cases hboth : p.read (before ++ s) with
    | none => rfl
    | some found =>
      obtain ⟨rest, hrest⟩ := h before List.suffix_rfl hne _ _ hboth
      rw [show found = (found.1, rest ++ s) by rw [hrest], hp.read_followed, hread] at hboth
      cases hboth

private theorem Parted.pieces_append (hp : p.Reads Token) (h : p.Parted before s) :
    p.pieces (before ++ s) = p.pieces before ++ p.pieces s := by
  induction hn : before.length using Nat.strongRecOn generalizing before with
  | ind n ih =>
    cases before with
    | nil => simp
    | cons c before =>
      have hread := h.read_followed hp (List.cons_ne_nil c before)
      cases hfront : p.read (c :: before) with
      | some found =>
        obtain ⟨token, -, htoken⟩ := (hp _ _ _).1 hfront
        have hshort := p.shorter hfront
        rw [hfront] at hread
        rw [pieces_of_read hread, pieces_of_read hfront,
          ih _ (by omega) (h.of_suffix ⟨token, htoken.symm⟩) rfl]
        rfl
      | none =>
        rw [hfront, List.cons_append] at hread
        rw [List.cons_append, pieces_of_not_read hread, pieces_of_not_read hfront,
          ih before.length (by simp at hn; omega) (h.of_suffix (List.suffix_cons c before)) rfl]
        rfl

theorem Parted.tokens_append (hp : p.Reads Token) (h : p.Parted before s) :
    p.tokens (before ++ s) = p.tokens before ++ p.tokens s := by
  simp [tokens, h.pieces_append hp]

theorem Parted.without_append (hp : p.Reads Token) (h : p.Parted before s) :
    p.without (before ++ s) = p.without before ++ p.without s := by
  simp [without, h.pieces_append hp]

theorem Parted.cutFirst?_append (hp : p.Reads Token) (h : p.Parted before s) :
    p.cutFirst? (before ++ s) =
      ((p.cutFirst? before).map fun found => (found.1, found.2 ++ s)).or
        ((p.cutFirst? s).map fun found => (found.1, before ++ found.2)) := by
  induction before with
  | nil => simp [cutFirst?]
  | cons c before ih =>
    have hread := h.read_followed hp (List.cons_ne_nil c before)
    rw [List.cons_append] at hread ⊢
    cases hfront : p.read (c :: before) with
    | some found =>
      rw [hfront] at hread
      simp [cutFirst?_of_read hread, cutFirst?_of_read hfront]
    | none =>
      rw [hfront] at hread
      rw [cutFirst?_of_not_read hread, cutFirst?_of_not_read hfront,
        ih (h.of_suffix (List.suffix_cons c before))]
      cases p.cutFirst? before with
      | some found => rfl
      | none => simp [Function.comp_def]

def Ends (Token : α → List Char → Prop) (c : Char) (tail : List Char) : Prop :=
  ∀ a x z, Token a (x ++ c :: z) → z = tail

theorem Reads.read_ends (hp : p.Reads Token) {tail : List Char} (hc : Ends Token c tail) :
    p.read (t ++ c :: (tail ++ s)) = some (a, rest) ↔
      (∃ r, p.read t = some (a, r) ∧ rest = r ++ c :: (tail ++ s)) ∨
        (Token a (t ++ c :: tail) ∧ rest = s) := by
  constructor
  · intro hread
    obtain ⟨token, htoken, hsplit⟩ := (hp _ _ _).1 hread
    rcases List.append_eq_append_iff.1 hsplit with ⟨y, rfl, hy⟩ | ⟨r, rfl, rfl⟩
    · cases y with
      | nil =>
        rw [List.append_nil] at htoken
        exact .inl ⟨[], (hp _ _ _).2 ⟨t, htoken, (List.append_nil t).symm⟩, hy.symm⟩
      | cons d y =>
        obtain ⟨rfl, hrest⟩ := List.cons.inj hy
        obtain rfl := hc a t y htoken
        exact .inr ⟨htoken, (List.append_cancel_left hrest).symm⟩
    · exact .inl ⟨r, (hp _ _ _).2 ⟨token, htoken, rfl⟩, rfl⟩
  · rintro (⟨r, hread, rfl⟩ | ⟨htoken, rfl⟩)
    · exact hp.read_followed.2 hread
    · exact (hp _ _ _).2 ⟨_, htoken, by simp⟩

theorem Reads.parted_behind (hp : p.Reads Token) (hc : Ends Token c []) (before s : List Char) :
    p.Parted (before ++ [c]) s := by
  intro t ht hne a rest hread
  obtain ⟨t, rfl, -⟩ := (List.suffix_concat_iff.1 ht).resolve_left hne
  rw [List.append_assoc, List.singleton_append] at hread
  rcases (hp.read_ends hc).1 hread with ⟨r, -, rfl⟩ | ⟨-, rfl⟩
  · exact (List.suffix_cons c s).trans (List.suffix_append r _)
  · exact List.suffix_rfl

theorem Reads.parted_before (hp : p.Reads Token) (hc : ∀ a token, Token a token → c ∉ token)
    (before s : List Char) : p.Parted before (c :: s) := by
  intro t _ _ a rest hread
  have hends : Ends Token c [] := fun a x z h => absurd (by simp) (hc a _ h)
  rcases (hp.read_ends hends).1 hread with ⟨r, -, rfl⟩ | ⟨htoken, -⟩
  · exact List.suffix_append r _
  · exact absurd (by simp) (hc a _ htoken)

end Millwork.Text.Pattern
