import Millwork.Json.Record
import Millwork.Property
import Millwork.Proofs.Json.Text
/-!
# Reading records that have been written

A record that is written with all of its members gives each name the tree of its member, and a list that
is written item by item is read item by item.
-/
namespace Millwork.Json
namespace Tree

private theorem namedMembers?_memberTrees (members : List (String × Json)) :
    namedMembers? (memberTrees members) =
      some (members.map fun member => (member.1, member.2.tree)) := by
  induction members with
  | nil => rfl
  | cons member members ih =>
    obtain ⟨name, value⟩ := member
    rw [memberTrees, namedMembers?, Quoted.string?_map_char, ih]
    rfl

private theorem given?_of_mem {members : List (String × Tree)} (hd : (members.map Prod.fst).Nodup)
    {name : String} {value : Tree} (hm : (name, value) ∈ members) :
    given? members name = some (some value) := by
  obtain ⟨before, after, rfl⟩ := List.append_of_mem hm
  rw [List.map_append, List.map_cons, List.perm_middle.nodup_iff, List.nodup_cons,
    List.mem_append, not_or] at hd
  have hnone {part : List (String × Tree)} (hp : name ∉ part.map Prod.fst) :
      part.filter (·.1 == name) = [] := by
    refine List.filter_eq_nil_iff.2 fun member hmember heq => hp ?_
    rw [← beq_iff_eq.1 heq]
    exact List.mem_map_of_mem hmember
  have hfilter : (before ++ (name, value) :: after).filter (·.1 == name) = [(name, value)] := by
    have hfirst : ((name, value).1 == name) = true := beq_self_eq_true name
    rw [List.filter_append, List.filter_cons, if_pos hfirst, hnone hd.1.1, hnone hd.1.2,
      List.nil_append]
  rw [given?, hfilter]

theorem mapM_eq_some_iff {α β : Type} {f : α → Option β} {xs : List α} {ys : List β} :
    xs.mapM f = some ys ↔ xs.map f = ys.map some := by
  induction xs generalizing ys with
  | nil => cases ys <;> simp
  | cons x xs ih =>
    cases ys with
    | nil => cases hx : f x <;> cases hm : xs.mapM f <;> simp [hx, hm]
    | cons y ys =>
      rw [List.map_cons, List.map_cons, List.cons.injEq, ← ih, List.mapM_cons]
      cases f x <;> cases xs.mapM f <;> simp

theorem mapM_eq_some_map {α β : Type} {f : α → Option β} {g : α → β} {xs : List α}
    (h : ∀ x ∈ xs, f x = some (g x)) : xs.mapM f = some (xs.map g) := by
  rw [mapM_eq_some_iff, List.map_map]
  exact List.map_congr_left h

theorem record?_tree {members : List (String × Json)} (hd : (members.map Prod.fst).Nodup) :
    record? (members.map Prod.fst) (Json.object members).tree =
      some (members.map fun member => some member.2.tree) := by
  have hkeys : ((members.map fun member => (member.1, member.2.tree)).map Prod.fst).Nodup := by
    rwa [List.map_map]
  rw [tree, record?, namedMembers?_memberTrees, Option.bind_some, List.mapM_map]
  refine mapM_eq_some_map fun member hm => ?_
  exact given?_of_mem hkeys (List.mem_map_of_mem hm)

theorem record?_properties (value : Property → Json) :
    (Json.object (Property.all.map fun p => (p.name, value p))).tree.record?
        (Property.all.map Property.name) =
      some (Property.all.map fun p => some (value p).tree) := by
  have hd : ((Property.all.map fun p => (p.name, value p)).map Prod.fst).Nodup := by
    show (Property.all.map Property.name).Nodup
    decide
  exact record?_tree hd

theorem text?_tree (s : String) : text? (Json.string s).tree = some s :=
  Quoted.string?_map_char s

theorem itemTrees_eq_map (items : List Json) : itemTrees items = items.map tree := by
  induction items with
  | nil => rfl
  | cons item items ih => rw [itemTrees, List.map_cons, ih]

theorem list?_tree {α β : Type} {write : α → Json} {read : Tree → Option β} {keep : α → β}
    {xs : List α} (h : ∀ x ∈ xs, read (write x).tree = some (keep x)) :
    list? read (Json.array (xs.map write)).tree = some (xs.map keep) := by
  rw [tree, list?, itemTrees_eq_map, List.map_map, List.mapM_map]
  exact mapM_eq_some_map h

theorem exists_value?_of_toJson? {t : Tree} {depth : Nat} {x : Float}
    (h : t.toJson? depth = some (.number x)) : ∃ n : Numeral, n.value? = some x := by
  cases t with
  | number n =>
    obtain ⟨y, hy, he⟩ := Option.map_eq_some_iff.1 h
    exact ⟨n, Json.number.inj he ▸ hy⟩
  | null | bool b => cases h
  | string s =>
    obtain ⟨_, _, he⟩ := Option.map_eq_some_iff.1 h
    cases he
  | array items =>
    cases depth with
    | zero => cases h
    | succ depth =>
      obtain ⟨_, _, he⟩ := Option.map_eq_some_iff.1 h
      cases he
  | object members =>
    cases depth with
    | zero => cases h
    | succ depth =>
      obtain ⟨_, _, he⟩ := Option.map_eq_some_iff.1 h
      cases he

end Tree
end Millwork.Json
