import Millwork.Proofs.Json.Record
/-!
# Members of a record

What a record gives one of its names, and what becomes of that if one member of the record is replaced. A
record is an object or an array of its members, so a member is found by its key or by its place. Where a
member is a list, the same is asked of the items.
-/
namespace Millwork.Json.Tree

/-- What a record with the given names has for one of them. -/
def member? (names : List String) (name : String) : Tree → Option Tree
  | .object members => (namedMembers? members).bind fun named => (given? named name).join
  | .array items => items[names.idxOf name]?
  | _ => none

def IsRecord (names : List String) (t : Tree) : Prop :=
  (t.record? names).isSome = true

private theorem isSome_mapM_iff {α β : Type} {f : α → Option β} {xs : List α} :
    (xs.mapM f).isSome = true ↔ ∀ x ∈ xs, (f x).isSome = true := by
  induction xs with
  | nil => simp
  | cons x xs ih =>
    rw [List.forall_mem_cons, ← ih, List.mapM_cons]
    cases f x <;> cases xs.mapM f <;> simp

variable {names : List String}

private theorem isRecord_object_iff (members : List (Quoted × Tree)) :
    IsRecord names (.object members) ↔
      ∃ named, namedMembers? members = some named ∧ ∀ name ∈ names, (given? named name).isSome = true := by
  rw [IsRecord, record?]
  cases namedMembers? members with
  | none => simp
  | some named => simp [isSome_mapM_iff]

private theorem isRecord_array_iff (items : List Tree) :
    IsRecord names (.array items) ↔ items.length ≤ names.length := by
  rw [IsRecord, record?]
  split <;> simp_all

theorem record?_eq (hd : names.Nodup) {t : Tree} (h : t.IsRecord names) :
    t.record? names = some (names.map fun name => t.member? names name) := by
  cases t with
  | object members =>
    obtain ⟨named, hm, hg⟩ := (isRecord_object_iff members).1 h
    rw [record?, hm, Option.bind_some]
    apply mapM_eq_some_map
    intro name hn
    obtain ⟨value, hv⟩ := Option.isSome_iff_exists.1 (hg name hn)
    simp [member?, hm, hv]
  | array items =>
    have hl := (isRecord_array_iff items).1 h
    rw [record?, if_pos hl, Option.some.injEq]
    apply List.ext_getElem
    · simp only [List.length_append, List.length_map, List.length_replicate]
      omega
    · intro i hi hn
      rw [List.length_map] at hn
      rw [List.getElem_map, member?, hd.idxOf_getElem, List.getElem_append]
      split
      · rename_i hlt
        rw [List.length_map] at hlt
        rw [List.getElem_map, List.getElem?_eq_getElem hlt]
      · rename_i hge
        rw [List.length_map] at hge
        rw [List.getElem_replicate, List.getElem?_eq_none (by omega)]
  | _ => cases h

/-- One record is the other but for the member with the name, which has been changed. -/
inductive Replaces (names : List String) (name : String) (change : Tree → Tree → Prop) :
    Tree → Tree → Prop
  | object {before after : List (Quoted × Tree)} {key : Quoted} {value value' : Tree}
    (hk : key.string? = some name) (hc : change value value') :
    Replaces names name change (.object (before ++ (key, value) :: after))
      (.object (before ++ (key, value') :: after))
  | array {items : List Tree} {value value' : Tree} (hv : items[names.idxOf name]? = some value)
    (hc : change value value') :
    Replaces names name change (.array items) (.array (items.set (names.idxOf name) value'))

private theorem namedMembers?_append_cons {before after : List (Quoted × Tree)} {key : Quoted}
    {name : String} (hk : key.string? = some name) {value : Tree} {named : List (String × Tree)}
    (h : namedMembers? (before ++ (key, value) :: after) = some named) :
    ∃ front back, named = front ++ (name, value) :: back ∧ ∀ other,
      namedMembers? (before ++ (key, other) :: after) = some (front ++ (name, other) :: back) := by
  induction before generalizing named with
  | nil =>
    cases ha : namedMembers? after with
    | none => simp [namedMembers?, hk, ha] at h
    | some back =>
      simp only [List.nil_append, namedMembers?, hk, ha, Option.some.injEq] at h ⊢
      exact ⟨[], back, h.symm, fun _ => rfl⟩
  | cons member before ih =>
    obtain ⟨key', value'⟩ := member
    simp only [List.cons_append, namedMembers?] at h ⊢
    cases hs : key'.string? with
    | none => simp [hs] at h
    | some name' =>
      cases hm : namedMembers? (before ++ (key, value) :: after) with
      | none => simp [hs, hm] at h
      | some more =>
        obtain ⟨front, back, rfl, hothers⟩ := ih hm
        simp only [hs, hm, Option.some.injEq] at h
        exact ⟨(name', value') :: front, back, h.symm, fun other => by simp [hothers other]⟩

section
variable {front back : List (String × Tree)} {name other : String} {value value' : Tree}

private theorem given?_replaced_of_ne (hne : other ≠ name) :
    given? (front ++ (name, value') :: back) other = given? (front ++ (name, value) :: back) other := by
  have hb : (name == other) = false := beq_false_of_ne hne.symm
  simp only [given?, List.filter_append, List.filter_cons, hb, Bool.false_eq_true, if_false]

private theorem given?_replaced (h : (given? (front ++ (name, value) :: back) name).isSome = true) :
    given? (front ++ (name, value') :: back) name = some (some value') := by
  simp only [given?, List.filter_append, List.filter_cons, beq_self_eq_true, if_true] at h ⊢
  cases hf : front.filter (·.1 == name) with
  | nil =>
    cases hb : back.filter (·.1 == name) with
    | nil => rfl
    | cons first more => simp [hf, hb] at h
  | cons first more =>
    cases more <;> simp [hf] at h

end

/-- Only the value of the member that is replaced changes. -/
theorem Replaces.member? {change : Tree → Tree → Prop} {name : String} {t t' : Tree}
    (h : Replaces names name change t t') (hn : name ∈ names) (hr : t.IsRecord names) :
    t'.IsRecord names ∧
      (∃ value value', t.member? names name = some value ∧ t'.member? names name = some value' ∧
        change value value') ∧
      ∀ other ∈ names, other ≠ name → t'.member? names other = t.member? names other := by
  cases h with
  | @object before after key value value' hk hc =>
    obtain ⟨named, hm, hg⟩ := (isRecord_object_iff _).1 hr
    obtain ⟨front, back, rfl, hothers⟩ := namedMembers?_append_cons hk hm
    have hname := hg name hn
    refine ⟨(isRecord_object_iff _).2 ⟨_, hothers value', fun other ho => ?_⟩,
      ⟨value, value', ?_, ?_, hc⟩, fun other ho hne => ?_⟩
    · by_cases hne : other = name
      · rw [hne, given?_replaced hname]
        rfl
      · rw [given?_replaced_of_ne hne]
        exact hg other ho
    · simp [Tree.member?, hm, given?_replaced hname]
    · simp [Tree.member?, hothers, given?_replaced hname]
    · simp only [Tree.member?, hm, hothers, Option.bind_some]
      rw [given?_replaced_of_ne hne]
  | @array items value value' hv hc =>
    have hl := (isRecord_array_iff items).1 hr
    have hlt : names.idxOf name < items.length := (List.getElem?_eq_some_iff.1 hv).1
    refine ⟨(isRecord_array_iff _).2 (by rwa [List.length_set]), ⟨value, value', hv, ?_, hc⟩,
      fun other ho hne => ?_⟩
    · rw [Tree.member?, List.getElem?_set_self hlt]
    · have hplace : names.idxOf name ≠ names.idxOf other := fun he => hne ((List.idxOf_inj hn).1 he).symm
      rw [Tree.member?, Tree.member?, List.getElem?_set_ne hplace]

/-- The items of an array that may be left out. -/
def itemsOf : Option Tree → List Tree
  | some (.array items) => items
  | _ => []

theorem map_itemsOf {α : Type} {read : Tree → Option α} {given : Option Tree} {xs : List α}
    (h : (given.map (list? read)).getD (some []) = some xs) : (itemsOf given).map read = xs.map some := by
  cases given with
  | none =>
    cases Option.some.inj h
    rfl
  | some t =>
    cases t with
    | array items => exact mapM_eq_some_iff.1 h
    | _ => cases h

theorem exists_of_map_eq {α β : Type} {f : α → Option β} {xs : List α} {ys : List β}
    (h : xs.map f = ys.map some) {y : β} (hy : y ∈ ys) : ∃ x, f x = some y := by
  have hmem : some y ∈ xs.map f := by
    rw [h]
    exact List.mem_map_of_mem hy
  obtain ⟨x, -, hx⟩ := List.mem_map.1 hmem
  exact ⟨x, hx⟩

theorem exists_of_itemsOf {α : Type} {read : Tree → Option α} {given : Option Tree} {xs : List α}
    (h : (given.map (list? read)).getD (some []) = some xs) {place : Nat} {item : Tree}
    (hi : (itemsOf given)[place]? = some item) : ∃ x, xs[place]? = some x ∧ read item = some x := by
  have hplace := congrArg (·[place]?) (map_itemsOf h)
  simp only [List.getElem?_map, hi, Option.map_some] at hplace
  obtain ⟨x, hx, hread⟩ := Option.map_eq_some_iff.1 hplace.symm
  exact ⟨x, hx, hread.symm⟩

/-- One array is the other but for one of the items, which has been changed. -/
inductive ReplacesItem (change : Tree → Tree → Prop) : Tree → Tree → Prop
  | intro {before after : List Tree} {item item' : Tree} (hc : change item item') :
    ReplacesItem change (.array (before ++ item :: after)) (.array (before ++ item' :: after))

theorem list?_replaced {α β : Type} {change : Tree → Tree → Prop} {read : Tree → Option α} {see : α → β}
    (hstep : ∀ item item' x, change item item' → read item = some x →
      ∃ x', read item' = some x' ∧ see x' = see x)
    {t t' : Tree} (h : ReplacesItem change t t') {xs : List α} (hr : t.list? read = some xs) :
    ∃ xs', t'.list? read = some xs' ∧ xs'.map see = xs.map see := by
  cases h with
  | @intro before after item item' hc =>
    simp only [list?, List.mapM_append, List.mapM_cons, Option.bind_eq_bind, Option.bind_eq_some_iff,
      Option.pure_def, Option.some.injEq] at hr
    obtain ⟨front, hfront, _, ⟨x, hx, back, hback, rfl⟩, rfl⟩ := hr
    obtain ⟨x', hx', hsee⟩ := hstep item item' x hc hx
    refine ⟨front ++ x' :: back, ?_, by simp [hsee]⟩
    simp [list?, hfront, hx', hback]

private theorem memberTrees_append_cons (before after : List (String × Json)) (member : String × Json) :
    memberTrees (before ++ member :: after) =
      memberTrees before ++ (member.1.toList.map .char, member.2.tree) :: memberTrees after := by
  induction before with
  | nil => rfl
  | cons first before ih =>
    obtain ⟨key, value⟩ := first
    rw [List.cons_append, memberTrees, ih, memberTrees, List.cons_append]

theorem Replaces.object_tree {change : Tree → Tree → Prop} (before after : List (String × Json))
    {name : String} {value value' : Json} (hc : change value.tree value'.tree) :
    Replaces names name change (Json.object (before ++ (name, value) :: after)).tree
      (Json.object (before ++ (name, value') :: after)).tree := by
  rw [Json.tree, Json.tree, memberTrees_append_cons, memberTrees_append_cons]
  exact .object (Quoted.string?_map_char name) hc

theorem ReplacesItem.array_tree {change : Tree → Tree → Prop} (before after : List Json)
    {item item' : Json} (hc : change item.tree item'.tree) :
    ReplacesItem change (Json.array (before ++ item :: after)).tree
      (Json.array (before ++ item' :: after)).tree := by
  simp only [Json.tree, itemTrees_eq_map, List.map_append, List.map_cons]
  exact .intro hc

end Millwork.Json.Tree
