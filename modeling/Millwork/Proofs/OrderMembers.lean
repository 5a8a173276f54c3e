import Millwork.Proofs.OrderText
/-!
# Members of an order

An object is an order exactly if each of its members fits one: the links are a list of texts, and all else is
a string, a boolean or a number. Of the members that do not fit, the one with the least key decides the error.
-/
namespace Millwork

namespace Json
/-- The value that members have for a key, the last one if there are several. -/
def member? (members : List (String × Json)) (name : String) : Option Json :=
  members.reverse.lookup name

theorem getElem?_insertMany (table : Std.TreeMap String Json) (members : List (String × Json))
    (name : String) : (table.insertMany members)[name]? = (member? members name).or table[name]? := by
  induction members generalizing table with
  | nil => rfl
  | cons member members ih =>
    obtain ⟨key, value⟩ := member
    rw [Std.TreeMap.insertMany_cons, ih, Std.TreeMap.getElem?_insert, member?, member?,
      List.reverse_cons, List.lookup_append, Option.or_assoc]
    congr 1
    by_cases hk : key = name
    · simp [hk]
    · have hne : (name == key) = false := beq_false_of_ne (Ne.symm hk)
      simp [List.lookup_cons, hne, hk]

private theorem mem_sortMembers_iff (members : List (String × Json)) (name : String) (value : Json) :
    (name, value) ∈ sortMembers members ↔ member? members name = some value := by
  rw [sortMembers, Std.TreeMap.mem_toList_iff_getElem?_eq_some, Std.TreeMap.ofList_eq_insertMany_empty,
    getElem?_insertMany, Std.TreeMap.getElem?_emptyc, Option.or_none]

private theorem sortMembers_sorted (members : List (String × Json)) :
    (sortMembers members).Pairwise fun a b => a.1 < b.1 :=
  (Std.TreeMap.ordered_keys_toList (t := Std.TreeMap.ofList members compare)).imp
    compareOfLessAndEq_eq_lt.1

end Json

namespace Order
open Json

def IsScalar (json : Json) : Prop :=
  json.kind = .string ∨ json.kind = .boolean ∨ json.kind = .number

/-- Whether an order may have the member. -/
def Admits (name : String) (json : Json) : Prop :=
  if name = linksKey then ∃ links : List String, json = .array (links.map .string) else IsScalar json

/-- What is wrong with a member. -/
inductive Objection : String → Json → Mismatch → Prop
  | scalar {name : String} {json : Json} (hn : name ≠ linksKey) (hs : ¬IsScalar json) :
    Objection name json ⟨.scalar, json.kind⟩
  | array {json : Json} (h : json.kind ≠ .array) : Objection linksKey json ⟨.array, json.kind⟩
  /-- The first item that is no string counts. -/
  | link {items : List Json} {item : Json} (h : items.find? (·.kind ≠ .string) = some item) :
    Objection linksKey (.array items) ⟨.string, item.kind⟩

private theorem ofJson?_eq_some_iff (json : Json) (value : Value) :
    Value.ofJson? json = some value ↔ json = value.toJson := by
  cases json <;> cases value <;> simp [Value.ofJson?, Value.toJson]

private theorem toJson_inj (value other : Value) : value.toJson = other.toJson ↔ value = other := by
  cases value <;> cases other <;> simp [Value.toJson]

private theorem isScalar_iff (json : Json) :
    IsScalar json ↔ ∃ value, Value.ofJson? json = some value := by
  cases json <;> simp [IsScalar, kind, Value.ofJson?]

private theorem mapM_linkOfJson_eq_error_iff (items : List Json) (m : Mismatch) :
    items.mapM linkOfJson = .error m ↔
      ∃ item, items.find? (·.kind ≠ .string) = some item ∧ m = ⟨.string, item.kind⟩ := by
  induction items with
  | nil => simp [pure, Except.pure]
  | cons item items ih =>
    cases item with
    | string link =>
      rw [List.find?_cons_of_neg (by simp [kind]), ← ih, List.mapM_cons, linkOfJson]
      cases items.mapM linkOfJson <;> simp [bind, Except.bind, pure, Except.pure]
    | _ =>
      rw [List.find?_cons_of_pos (by simp [kind])]
      simp [List.mapM_cons, linkOfJson, bind, Except.bind, eq_comm]

private theorem addMember_eq_error_iff (order : Order) (name : String) (json : Json) (m : Mismatch) :
    addMember order (name, json) = .error m ↔ Objection name json m := by
  constructor
  · intro h
    unfold addMember at h
    split at h
    · rename_i hn
      obtain rfl : name = linksKey := hn
      split at h
      · rename_i items hj
        obtain rfl : json = .array items := hj
        cases hm : items.mapM linkOfJson with
        | ok links =>
          rw [hm] at h
          cases h
        | error e =>
          obtain ⟨item, hi, rfl⟩ := (mapM_linkOfJson_eq_error_iff items e).1 hm
          rw [hm] at h
          cases h
          exact .link hi
      · rename_i ha
        cases h
        refine .array fun hk => ?_
        cases json <;> simp [kind] at hk ha
    · rename_i hn
      split at h
      · cases h
      · rename_i hv
        cases h
        refine .scalar hn fun hs => ?_
        obtain ⟨value, hvalue⟩ := (isScalar_iff json).1 hs
        simp only [hvalue, reduceCtorEq] at hv
  · intro h
    cases h with
    | scalar hn hs =>
      have hv : Value.ofJson? json = none := by
        rw [isScalar_iff, ← Option.isSome_iff_exists] at hs
        simpa using hs
      simp [addMember, hn, hv]
    | array ha => cases json <;> simp [addMember, kind] at ha ⊢
    | @link items item hi =>
      have hm := (mapM_linkOfJson_eq_error_iff items _).2 ⟨item, hi, rfl⟩
      simp [addMember, hm, Except.map]

private theorem admits_iff (order : Order) (name : String) (json : Json) :
    Admits name json ↔ ∃ after, addMember order (name, json) = .ok after := by
  by_cases hn : name = linksKey
  · simp [Admits, addMember_eq_ok_iff, hn]
  · simp [Admits, addMember_eq_ok_iff, hn, isScalar_iff]

private theorem foldlM_addMember_eq_error_iff (members : List (String × Json)) (order : Order)
    (m : Mismatch) :
    members.foldlM addMember order = .error m ↔
      ∃ before name json after, members = before ++ (name, json) :: after ∧
        (∀ member ∈ before, Admits member.1 member.2) ∧ Objection name json m := by
  induction members generalizing order with
  | nil => simp [pure, Except.pure]
  | cons member members ih =>
    obtain ⟨key, value⟩ := member
    have hcons : ((key, value) :: members).foldlM addMember order =
        addMember order (key, value) >>= fun middle => members.foldlM addMember middle := rfl
    rw [hcons]
    constructor
    · intro h
      cases hm : addMember order (key, value) with
      | error e =>
        rw [hm] at h
        cases h
        exact ⟨[], key, value, members, rfl, by simp, (addMember_eq_error_iff ..).1 hm⟩
      | ok middle =>
        rw [hm] at h
        obtain ⟨before, name, json, after, rfl, hb, ho⟩ := (ih middle).1 h
        have hfirst : Admits key value := (admits_iff ..).2 ⟨middle, hm⟩
        exact ⟨(key, value) :: before, name, json, after, rfl, List.forall_mem_cons.2 ⟨hfirst, hb⟩, ho⟩
    · rintro ⟨before, name, json, after, he, hb, ho⟩
      cases before with
      | nil =>
        obtain ⟨hfirst, -⟩ := List.cons.inj he
        rw [hfirst, (addMember_eq_error_iff ..).2 ho]
        rfl
      | cons first before =>
        obtain ⟨rfl, rfl⟩ := List.cons.inj he
        rw [List.forall_mem_cons] at hb
        obtain ⟨middle, hm⟩ := (admits_iff order key value).1 hb.1
        rw [hm]
        exact (ih middle).2 ⟨before, name, json, after, rfl, hb.2, ho⟩

private theorem ofJson_eq_error_iff (members : List (String × Json)) (m : Mismatch) :
    ofJson (.object members) = .error m ↔ ∃ name json, member? members name = some json ∧
      Objection name json m ∧ ∀ other value, member? members other = some value → other < name →
        Admits other value := by
  have hsorted := sortMembers_sorted members
  simp only [← mem_sortMembers_iff]
  rw [ofJson, foldlM_addMember_eq_error_iff]
  constructor
  · rintro ⟨before, name, json, after, hs, hb, ho⟩
    rw [hs] at hsorted ⊢
    refine ⟨name, json, by simp, ho, fun other value hm hlt => ?_⟩
    rcases List.mem_append.1 hm with hbefore | hafter
    · exact hb _ hbefore
    · -- what stands behind has no lesser key
      rcases List.mem_cons.1 hafter with he | hbehind
      · rw [(Prod.mk.inj he).1] at hlt
        exact absurd hlt (String.lt_irrefl name)
      · have hgt := List.rel_of_pairwise_cons (List.pairwise_append.1 hsorted).2.1 hbehind
        exact absurd hlt (String.lt_asymm hgt)
  · rintro ⟨name, json, hm, ho, hleast⟩
    obtain ⟨before, after, hs⟩ := List.append_of_mem hm
    refine ⟨before, name, json, after, hs, fun member hb => ?_, ho⟩
    rw [hs] at hsorted hleast
    have hlt := (List.pairwise_append.1 hsorted).2.2 member hb (name, json) List.mem_cons_self
    exact hleast member.1 member.2 (List.mem_append_left _ hb) hlt

/-- What an order has taken over from the members of an object. -/
structure Carries (order : Order) (members : List (String × Json)) : Prop where
  field : ∀ name value,
    order.get? name = some value ↔ name ≠ linksKey ∧ member? members name = some value.toJson
  links : ∀ json, member? members linksKey = some json → json = .array (order.links.map .string)
  noLinks : member? members linksKey = none → order.links = []

private theorem ofJson_carries {members : List (String × Json)} {order : Order}
    (h : ofJson (.object members) = .ok order) : order.Carries members := by
  have taken := taken_of_foldlM (sortMembers_nodup members) h
  have hnone (name : String) (hn : member? members name = none) :
      name ∉ (sortMembers members).map Prod.fst := by
    intro hm
    obtain ⟨⟨_, json⟩, hj, rfl⟩ := List.mem_map.1 hm
    rw [mem_sortMembers_iff, hn] at hj
    cases hj
  refine ⟨fun name value => ?_, fun json hj => ?_, fun hn => taken.noLinks (hnone _ hn)⟩
  · by_cases hk : name = linksKey
    · subst hk
      simp [taken.other linksKey (.inl rfl)]
    · cases hj : member? members name with
      | none => simp [taken.other name (.inr (hnone name hj))]
      | some json =>
        obtain ⟨found, hf, hg⟩ := taken.field name json ((mem_sortMembers_iff ..).2 hj) hk
        rw [(ofJson?_eq_some_iff json found).1 hf]
        simp [hg, hk, toJson_inj]
  · obtain ⟨links, rfl, hl⟩ := taken.links json ((mem_sortMembers_iff ..).2 hj)
    rw [hl]
    rfl

private theorem exists_ofJson_iff (members : List (String × Json)) :
    (∃ order, ofJson (.object members) = .ok order) ↔
      ∀ name json, member? members name = some json → Admits name json := by
  constructor
  · rintro ⟨order, h⟩ name json hj
    have taken := taken_of_foldlM (sortMembers_nodup members) h
    have hm := (mem_sortMembers_iff ..).2 hj
    by_cases hn : name = linksKey
    · subst hn
      obtain ⟨links, rfl, -⟩ := taken.links json hm
      rw [Admits, if_pos rfl]
      exact ⟨links, rfl⟩
    · obtain ⟨value, hv, -⟩ := taken.field name json hm hn
      rw [Admits, if_neg hn, isScalar_iff]
      exact ⟨value, hv⟩
  · intro h
    apply exists_foldlM_addMember empty
    intro name json hm
    have ha := h name json ((mem_sortMembers_iff ..).1 hm)
    simpa only [Admits, isScalar_iff] using ha

/-- What is no object is refused as such. An object is an order exactly if all of its members fit, and the
order has then taken over all of them and nothing else; if not, the error is the objection to the one with the
least key among those that do not fit. -/
theorem ofJson_outcome (json : Json) :
    ((∀ members, json ≠ .object members) → ofJson json = .error ⟨.object, json.kind⟩) ∧
    ∀ members, json = .object members →
      ((∃ order, ofJson json = .ok order) ↔
        ∀ name value, member? members name = some value → Admits name value) ∧
      (∀ order, ofJson json = .ok order → order.Carries members) ∧
      ∀ m, ofJson json = .error m ↔ ∃ name value, member? members name = some value ∧
        Objection name value m ∧ ∀ other value', member? members other = some value' → other < name →
          Admits other value' := by
  constructor
  · intro h
    cases json with
    | object members => exact absurd rfl (h members)
    | _ => rfl
  · rintro members rfl
    exact ⟨exists_ofJson_iff members, fun order h => ofJson_carries h, ofJson_eq_error_iff members⟩

end Order
end Millwork
