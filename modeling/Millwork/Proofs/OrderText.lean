import Millwork.CommandLine
import Millwork.Proofs.Json.Text
/-!
# Orders in JSON text

An order that is written and read again is the same order, unless it has a field under the key of the
links or a number that is not finite: the former is taken for the links, the latter is written as null.
-/
namespace Millwork

namespace Json
theorem sortMembers_nodup (members : List (String × Json)) :
    ((sortMembers members).map Prod.fst).Nodup := by
  have h := (Std.TreeMap.ofList members compare).distinct_keys_toList
  rw [List.nodup_iff_pairwise_ne, List.pairwise_map]
  refine h.imp fun {a b} hab he => hab ?_
  rw [he]
  exact Std.ReflCmp.compare_self

private theorem mem_sortMembers {members : List (String × Json)} (hd : (members.map Prod.fst).Nodup)
    (name : String) (value : Json) :
    (name, value) ∈ sortMembers members ↔ (name, value) ∈ members := by
  have hp : members.Pairwise fun a b => ¬compare a.1 b.1 = .eq := by
    rw [List.nodup_iff_pairwise_ne, List.pairwise_map] at hd
    exact hd.imp fun {a b} hab he => hab (Std.LawfulEqCmp.eq_of_compare he)
  rw [sortMembers, Std.TreeMap.mem_toList_iff_getElem?_eq_some]
  constructor
  · intro h
    by_cases hm : name ∈ members.map Prod.fst
    · obtain ⟨⟨_, other⟩, ho, rfl⟩ := List.mem_map.1 hm
      have hg := Std.TreeMap.getElem?_ofList_of_mem Std.ReflCmp.compare_self hp ho
      rw [hg] at h
      rw [← Option.some.inj h]
      exact ho
    · rw [Std.TreeMap.getElem?_ofList_of_contains_eq_false (by simpa using hm)] at h
      cases h
  · intro h
    exact Std.TreeMap.getElem?_ofList_of_mem Std.ReflCmp.compare_self hp h

end Json

namespace Order
open Json

private theorem linkOfJson_eq_ok_iff (item : Json) (link : String) :
    linkOfJson item = .ok link ↔ item = .string link := by
  cases item <;> simp [linkOfJson]

private theorem bind_eq_ok_iff {α β ε : Type} (x : Except ε α) (f : α → Except ε β) (b : β) :
    x >>= f = .ok b ↔ ∃ a, x = .ok a ∧ f a = .ok b := by
  cases x <;> simp [bind, Except.bind]

private theorem mapM_linkOfJson_eq_ok_iff (items : List Json) (links : List String) :
    items.mapM linkOfJson = .ok links ↔ items = links.map .string := by
  induction items generalizing links with
  | nil => cases links <;> simp [pure, Except.pure]
  | cons item items ih =>
    simp only [List.mapM_cons, bind_eq_ok_iff, linkOfJson_eq_ok_iff, ih]
    constructor
    · rintro ⟨link, rfl, more, rfl, h⟩
      rw [← Except.ok.inj h]
      rfl
    · intro h
      cases links with
      | nil => cases h
      | cons link more =>
        obtain ⟨rfl, rfl⟩ := List.cons.inj h
        exact ⟨link, rfl, more, rfl, rfl⟩

/-- A member is taken over in one of two ways. -/
theorem addMember_eq_ok_iff (before after : Order) (member : String × Json) :
    addMember before member = .ok after ↔
      (member.1 = linksKey ∧ ∃ links : List String, member.2 = .array (links.map .string) ∧
        after = before.withLinks (before.links ++ links)) ∨
      (member.1 ≠ linksKey ∧ ∃ value, Value.ofJson? member.2 = some value ∧
        after = before.insert member.1 value) := by
  unfold addMember
  by_cases hk : member.1 = linksKey
  · simp only [hk, if_true, true_and, ne_eq, not_true_eq_false, false_and, or_false]
    cases hj : member.2 with
    | array items =>
      simp only [Json.array.injEq, ← mapM_linkOfJson_eq_ok_iff]
      cases items.mapM linkOfJson <;> simp [Except.map, eq_comm]
    | _ => simp
  · simp only [hk, if_false, false_and, ne_eq, not_false_eq_true, true_and, false_or]
    cases Value.ofJson? member.2 <;> simp [eq_comm]

/-- What becomes of an order when it takes over members with different keys. -/
structure Taken (members : List (String × Json)) (before after : Order) : Prop where
  field : ∀ name json, (name, json) ∈ members → name ≠ linksKey →
    ∃ value, Value.ofJson? json = some value ∧ after.get? name = some value
  other : ∀ name, name = linksKey ∨ name ∉ members.map Prod.fst →
    after.get? name = before.get? name
  links : ∀ json, (linksKey, json) ∈ members → ∃ links : List String,
    json = .array (links.map .string) ∧ after.links = before.links ++ links
  noLinks : linksKey ∉ members.map Prod.fst → after.links = before.links

private theorem Taken.cons_links {members : List (String × Json)} {before after : Order}
    {links : List String} (h : Taken members (before.withLinks (before.links ++ links)) after)
    (hn : linksKey ∉ members.map Prod.fst) :
    Taken ((linksKey, .array (links.map .string)) :: members) before after where
  field name json hm hk := by
    rcases List.mem_cons.1 hm with he | ht
    · exact absurd (Prod.mk.inj he).1 hk
    · exact h.field name json ht hk
  other name ho := by
    refine h.other name ?_
    rcases ho with hk | hm
    · exact .inl hk
    · exact .inr fun ht => hm (List.mem_cons_of_mem _ ht)
  links json hm := by
    rcases List.mem_cons.1 hm with he | ht
    · exact ⟨links, (Prod.mk.inj he).2, h.noLinks hn⟩
    · exact absurd (List.mem_map_of_mem ht) hn
  noLinks ho := absurd (List.mem_cons_self) ho

private theorem Taken.cons_field {members : List (String × Json)} {before after : Order} {key : String}
    {json : Json} {value : Value} (h : Taken members (before.insert key value) after)
    (hn : key ∉ members.map Prod.fst) (hk : key ≠ linksKey)
    (hv : Value.ofJson? json = some value) : Taken ((key, json) :: members) before after where
  field name json' hm hl := by
    rcases List.mem_cons.1 hm with he | ht
    · obtain ⟨rfl, rfl⟩ := Prod.mk.inj he
      refine ⟨value, hv, ?_⟩
      rw [h.other name (.inr hn), get?_insert, if_pos rfl]
    · exact h.field name json' ht hl
  other name ho := by
    have hne : key ≠ name := by
      rintro rfl
      rcases ho with hl | hm
      · exact hk hl
      · exact hm List.mem_cons_self
    have ho' : name = linksKey ∨ name ∉ members.map Prod.fst := by
      rcases ho with hl | hm
      · exact .inl hl
      · exact .inr fun ht => hm (List.mem_cons_of_mem _ ht)
    rw [h.other name ho', get?_insert, if_neg hne]
  links json' hm := by
    rcases List.mem_cons.1 hm with he | ht
    · exact absurd (Prod.mk.inj he).1.symm hk
    · exact h.links json' ht
  noLinks ho := h.noLinks fun ht => ho (List.mem_cons_of_mem _ ht)

theorem taken_of_foldlM {members : List (String × Json)} (hd : (members.map Prod.fst).Nodup)
    {before after : Order} (h : members.foldlM addMember before = .ok after) :
    Taken members before after := by
  induction members generalizing before with
  | nil =>
    obtain rfl : before = after := Except.ok.inj h
    exact ⟨by simp, fun _ _ => rfl, by simp, fun _ => rfl⟩
  | cons member members ih =>
    rw [List.map_cons, List.nodup_cons] at hd
    rw [List.foldlM_cons] at h
    cases hm : addMember before member with
    | error e => rw [hm] at h; cases h
    | ok middle =>
      rw [hm] at h
      have taken := ih hd.2 h
      obtain ⟨key, json⟩ := member
      rcases (addMember_eq_ok_iff before middle (key, json)).1 hm with
        ⟨hk, links, hj, rfl⟩ | ⟨hk, value, hv, rfl⟩
      · simp only at hk hj
        subst hk hj
        exact taken.cons_links hd.1
      · exact taken.cons_field hd.1 hk hv

theorem exists_foldlM_addMember {members : List (String × Json)} (before : Order)
    (hm : ∀ name json, (name, json) ∈ members →
      if name = linksKey then ∃ links : List String, json = .array (links.map .string)
      else ∃ value, Value.ofJson? json = some value) :
    ∃ after, members.foldlM addMember before = .ok after := by
  induction members generalizing before with
  | nil => exact ⟨before, rfl⟩
  | cons member members ih =>
    obtain ⟨key, json⟩ := member
    have hmore := fun name json h => hm name json (List.mem_cons_of_mem _ h)
    have hfirst := hm key json List.mem_cons_self
    have hstep : ∃ middle, addMember before (key, json) = .ok middle := by
      split at hfirst
      · rename_i hk
        obtain ⟨links, hj⟩ := hfirst
        exact ⟨_, (addMember_eq_ok_iff before _ (key, json)).2 (.inl ⟨hk, links, hj, rfl⟩)⟩
      · rename_i hk
        obtain ⟨value, hv⟩ := hfirst
        exact ⟨_, (addMember_eq_ok_iff before _ (key, json)).2 (.inr ⟨hk, value, hv, rfl⟩)⟩
    obtain ⟨middle, hs⟩ := hstep
    obtain ⟨after, ha⟩ := ih middle hmore
    exact ⟨after, by rw [List.foldlM_cons, hs]; exact ha⟩

private def writtenMembers (order : Order) : List (String × Json) :=
  order.toList.map (fun field => (field.1, field.2.toJson.kept)) ++
    (if order.links.isEmpty then [] else [(linksKey, .array (order.links.map .string))])

private theorem keptMembers_eq_map (members : List (String × Json)) :
    keptMembers members = members.map fun member => (member.1, member.2.kept) := by
  induction members with
  | nil => rfl
  | cons member members ih =>
    obtain ⟨key, json⟩ := member
    rw [keptMembers, List.map_cons, ih]

private theorem keptItems_strings (texts : List String) :
    keptItems (texts.map .string) = texts.map .string := by
  induction texts with
  | nil => rfl
  | cons text texts ih => rw [List.map_cons, keptItems, ih, kept]

private theorem kept_toJson (order : Order) :
    order.toJson.kept = .object (sortMembers order.writtenMembers) := by
  rw [toJson, kept, keptMembers_eq_map, List.map_append, List.map_map, writtenMembers]
  split
  · rfl
  · rw [List.map_singleton, kept, keptItems_strings]
    rfl

theorem mem_toList (order : Order) (name : String) (value : Value) :
    (name, value) ∈ order.toList ↔ order.get? name = some value :=
  Std.ExtTreeMap.mem_toList_iff_getElem?_eq_some

private theorem mem_writtenMembers (order : Order) (name : String) (json : Json) :
    (name, json) ∈ order.writtenMembers ↔
      (∃ value, order.get? name = some value ∧ json = value.toJson.kept) ∨
      (name = linksKey ∧ order.links ≠ [] ∧ json = .array (order.links.map .string)) := by
  rw [writtenMembers, List.mem_append]
  apply or_congr
  · rw [List.mem_map]
    constructor
    · rintro ⟨⟨key, value⟩, hm, he⟩
      obtain ⟨rfl, rfl⟩ := Prod.mk.inj he
      exact ⟨value, (mem_toList order key value).1 hm, rfl⟩
    · rintro ⟨value, hv, rfl⟩
      exact ⟨(name, value), (mem_toList order name value).2 hv, rfl⟩
  · cases order.links with
    | nil => simp
    | cons link more => simp

private theorem writtenMembers_nodup {order : Order} (h : order.get? linksKey = none) :
    (order.writtenMembers.map Prod.fst).Nodup := by
  have hfields : (order.toList.map Prod.fst).Nodup := by
    have hd := Std.ExtTreeMap.distinct_keys_toList (t := order.fields)
    rw [List.nodup_iff_pairwise_ne, List.pairwise_map]
    refine hd.imp fun {a b} hab he => hab ?_
    rw [he]
    exact Std.ReflCmp.compare_self
  have hkey : linksKey ∉ order.toList.map Prod.fst := by
    intro hm
    obtain ⟨⟨_, value⟩, hv, rfl⟩ := List.mem_map.1 hm
    rw [(mem_toList order _ value).1 hv] at h
    cases h
  have hm : (order.toList.map fun field => (field.1, field.2.toJson.kept)).map Prod.fst =
      order.toList.map Prod.fst := by
    rw [List.map_map]
    rfl
  rw [writtenMembers, List.map_append, hm]
  split
  · rwa [List.map_nil, List.append_nil]
  · rw [List.map_singleton, List.nodup_append]
    refine ⟨hfields, by simp, ?_⟩
    intro a ha b hb hab
    rw [hab, List.mem_singleton.1 hb] at ha
    exact hkey ha

private theorem ofJson?_kept (value found : Value) :
    Value.ofJson? value.toJson.kept = some found ↔
      value = found ∧ ∀ x, value = .number x → x.isFinite = true := by
  cases value with
  | bool b => simp [Value.toJson, kept, Value.ofJson?]
  | text s => simp [Value.toJson, kept, Value.ofJson?]
  | number x =>
    rw [Value.toJson, kept]
    by_cases hx : x.isFinite = true
    · simp [hx, Value.ofJson?]
    · simp [hx, Value.ofJson?]

section
variable {order after : Order} {members : List (String × Json)}

private theorem ne_linksKey (hl : order.get? linksKey = none) {name : String} {value : Value}
    (hv : order.get? name = some value) : name ≠ linksKey := by
  rintro rfl
  rw [hl] at hv
  cases hv

private theorem eq_of_taken (hl : order.get? linksKey = none)
    (hm : ∀ name json, (name, json) ∈ members ↔ (name, json) ∈ order.writtenMembers)
    (taken : Taken members empty after) : after = order := by
  have hkey (name : String) (hn : name ≠ linksKey) (hv : order.get? name = none) :
      name ∉ members.map Prod.fst := by
    rw [List.mem_map]
    rintro ⟨⟨_, json⟩, hj, rfl⟩
    rcases (mem_writtenMembers order _ json).1 ((hm _ json).1 hj) with ⟨value, hs, _⟩ | ⟨hk, _⟩
    · rw [hv] at hs
      cases hs
    · exact hn hk
  apply ext_get?
  · intro name
    cases hv : order.get? name with
    | some value =>
      have hj := (mem_writtenMembers order name _).2 (.inl ⟨value, hv, rfl⟩)
      obtain ⟨found, hf, hg⟩ := taken.field name _ ((hm name _).2 hj) (ne_linksKey hl hv)
      rw [hg, ((ofJson?_kept value found).1 hf).1]
    | none =>
      rw [taken.other name, get?_empty]
      by_cases hn : name = linksKey
      · exact .inl hn
      · exact .inr (hkey name hn hv)
  · by_cases hn : order.links = []
    · rw [taken.noLinks, hn]
      · rfl
      · rw [List.mem_map]
        rintro ⟨⟨_, json⟩, hj, he⟩
        rcases (mem_writtenMembers order _ json).1 ((hm _ json).1 hj) with
          ⟨value, hs, _⟩ | ⟨_, hsome, _⟩
        · exact ne_linksKey hl hs he
        · exact hsome hn
    · have hj := (mem_writtenMembers order linksKey _).2 (.inr ⟨rfl, hn, rfl⟩)
      obtain ⟨links, he, ht⟩ := taken.links _ ((hm linksKey _).2 hj)
      have hinj : order.links = links :=
        List.map_injective_iff.2 (fun _ _ => Json.string.inj) (Json.array.inj he)
      rw [ht, hinj]
      rfl

end

private theorem ofJson_kept_eq_ok_iff (order : Order) :
    ofJson order.toJson.kept = .ok order ↔
      order.get? linksKey = none ∧
        ∀ name x, order.get? name = some (.number x) → x.isFinite = true := by
  have hd := sortMembers_nodup (sortMembers order.writtenMembers)
  have hm (hl : order.get? linksKey = none) (name : String) (json : Json) :
      (name, json) ∈ sortMembers (sortMembers order.writtenMembers) ↔
        (name, json) ∈ order.writtenMembers := by
    rw [mem_sortMembers (sortMembers_nodup _), mem_sortMembers (writtenMembers_nodup hl)]
  rw [kept_toJson, ofJson]
  constructor
  · intro h
    have taken := taken_of_foldlM hd h
    have hl : order.get? linksKey = none := by
      rw [taken.other linksKey (.inl rfl), get?_empty]
    refine ⟨hl, ?_⟩
    intro name x hx
    have hj := (mem_writtenMembers order name _).2 (.inl ⟨.number x, hx, rfl⟩)
    obtain ⟨found, hf, _⟩ := taken.field name _ ((hm hl name _).2 hj) (ne_linksKey hl hx)
    exact ((ofJson?_kept _ found).1 hf).2 x rfl
  · rintro ⟨hl, hx⟩
    obtain ⟨after, ha⟩ := exists_foldlM_addMember empty fun name json hj => by
      rcases (mem_writtenMembers order name json).1 ((hm hl name json).1 hj) with
        ⟨value, hv, rfl⟩ | ⟨rfl, _, rfl⟩
      · rw [if_neg (ne_linksKey hl hv)]
        exact ⟨value, (ofJson?_kept value value).2 ⟨rfl, fun x he => hx name x (he ▸ hv)⟩⟩
      · rw [if_pos rfl]
        exact ⟨order.links, rfl⟩
    have he := eq_of_taken hl (hm hl) (taken_of_foldlM hd ha)
    rw [he] at ha
    exact ha

/-- Each finite number in the fields is what its text reads as. -/
def NumbersReadBack (order : Order) : Prop :=
  ∀ name x, order.get? name = some (.number x) → x.isFinite = true →
    Json.read? (String.ofList (numberText x)) = some (.number x)

private theorem readableMembers_iff (depth : Nat) (members : List (String × Json)) :
    ReadableMembers depth members ↔ ∀ member ∈ members, Readable depth member.2 := by
  induction members with
  | nil => simp [ReadableMembers]
  | cons member members ih =>
    obtain ⟨key, json⟩ := member
    rw [ReadableMembers, ih, List.forall_mem_cons]

private theorem readableItems_strings (depth : Nat) (texts : List String) :
    ReadableItems depth (texts.map .string) := by
  induction texts with
  | nil => trivial
  | cons text texts ih => exact ⟨trivial, ih⟩

private theorem readable_toJson {order : Order} (h : order.NumbersReadBack) :
    Readable depthLimit order.toJson := by
  refine ⟨by decide, (readableMembers_iff _ _).2 ?_⟩
  intro member hm
  rcases List.mem_append.1 hm with hf | hl
  · obtain ⟨⟨name, value⟩, hv, rfl⟩ := List.mem_map.1 hf
    cases value with
    | bool b => trivial
    | text s => trivial
    | number x =>
      exact fun hx => value?_numeralOf (h name x ((mem_toList order name _).1 hv) hx)
  · split at hl
    · cases hl
    · rw [List.mem_singleton.1 hl]
      exact ⟨by decide, readableItems_strings _ _⟩

/-- An order that is read from a text of itself, compact or spread, is the same order with the same
numbers to the last bit, unless it has a field under the key of the links or a number that is not
finite. -/
theorem ofJson_written_iff {order : Order} (h : order.NumbersReadBack) {text : String}
    (hw : order.toJson.IsWritten text) :
    (Json.read? text).map ofJson = some (.ok order) ↔
      order.get? "_urls" = none ∧
        ∀ name x, order.get? name = some (.number x) → x.isFinite = true := by
  rw [Json.read?_written (readable_toJson h) hw, Option.map_some, Option.some.injEq]
  exact ofJson_kept_eq_ok_iff order

/-- Links more than once, a text that looks like a number, keys on both sides of the key of the links and
a zero with a sign. -/
theorem ofJson_written_zero :
    let order := (ofList [("width", .text "12.50"), ("_url", .bool true), ("_urlz", .number (-0.0)),
      ("", .text "\"Ω\n")]).withLinks ["http://b", "http://a", "http://b"]
    order.NumbersReadBack ∧ order.toJson.IsWritten (Json.prettyText order.toJson) ∧
      (Json.read? (Json.prettyText order.toJson)).map ofJson = some (.ok order) := by
  intro order
  have hfields : order.toList = [("", .text "\"Ω\n"), ("_url", .bool true), ("_urlz", .number (-0.0)),
      ("width", .text "12.50")] := by
    decide
  have hnumber {name : String} {x : Float} (hx : order.get? name = some (.number x)) : x = -0.0 := by
    rw [← mem_toList, hfields] at hx
    have hlast : name = "_urlz" ∧ x = -0.0 := by simpa using hx
    exact hlast.2
  have hback : order.NumbersReadBack := by
    intro name x hx _
    have hv : (Json.numeralOf (-0.0)).value? = some (-0.0) := by decide +kernel
    rw [hnumber hx, Json.read?_numberText, hv]
    rfl
  have hw : order.toJson.IsWritten (Json.prettyText order.toJson) := .inr rfl
  refine ⟨hback, hw, (ofJson_written_iff hback hw).2 ⟨by decide, ?_⟩⟩
  intro name x hx
  rw [hnumber hx]
  decide

end Order

namespace CommandLine
private theorem orderOf_prettyLine {order : Order} (h : order.NumbersReadBack) :
    orderOf (.order (Json.prettyText order.toJson ++ "\n")) =
      (Order.ofJson order.toJson.kept).mapError .mismatch := by
  rw [orderOf, Json.read?_prettyLine (Order.readable_toJson h)]
  simp only
  cases Order.ofJson order.toJson.kept <;> rfl

private theorem orderOf_prettyLine_eq_ok_iff {order : Order} (h : order.NumbersReadBack) :
    orderOf (.order (Json.prettyText order.toJson ++ "\n")) = .ok order ↔
      order.get? Order.linksKey = none ∧
        ∀ name x, order.get? name = some (.number x) → x.isFinite = true := by
  rw [orderOf_prettyLine h, ← Order.ofJson_kept_eq_ok_iff]
  cases Order.ofJson order.toJson.kept <;> simp [Except.mapError]

/-- An order is always printed for a note, and what is read from it is the order of the note exactly if no
label of the note makes the key of the links, and none of its measurements is beyond the doubles. -/
theorem orderOf_answer_read_iff (settings : Settings) (surroundings : Surroundings) (text : String)
    (h : (Note.read text).NumbersReadBack) :
    ∃ printed,
      answer { settings with parseOnly := true } (Note.read text) surroundings = .ok printed ∧
      (orderOf (.order printed) = .ok (Note.read text) ↔
        (Note.read text).get? "_urls" = none ∧
          ∀ name x, (Note.read text).get? name = some (.number x) → x.isFinite = true) :=
  ⟨_, rfl, orderOf_prettyLine_eq_ok_iff h⟩

theorem orderOf_answer_height :
    (Note.read "Height: 7 ft 10 in 5/8 in").NumbersReadBack ∧
    ∃ printed, answer { ({} : Settings) with parseOnly := true }
      (Note.read "Height: 7 ft 10 in 5/8 in") ⟨.empty, none, fun _ => .ok [], ⟨"", "", ""⟩⟩ =
        .ok printed ∧
      orderOf (.order printed) = .ok (Note.read "Height: 7 ft 10 in 5/8 in") := by
  have hfields : (Note.read "Height: 7 ft 10 in 5/8 in").toList = [("height", .number 94.625)] := by
    decide +kernel
  have hnumber {name : String} {x : Float}
      (hx : (Note.read "Height: 7 ft 10 in 5/8 in").get? name = some (.number x)) : x = 94.625 := by
    rw [← Order.mem_toList, hfields, List.mem_singleton] at hx
    exact Value.number.inj (Prod.mk.inj hx).2
  have hback : (Note.read "Height: 7 ft 10 in 5/8 in").NumbersReadBack := by
    intro name x hx _
    have hv : (Json.numeralOf 94.625).value? = some 94.625 := by decide +kernel
    rw [hnumber hx, Json.read?_numberText, hv]
    rfl
  obtain ⟨printed, hp, hiff⟩ := orderOf_answer_read_iff {} ⟨.empty, none, fun _ => .ok [], ⟨"", "", ""⟩⟩
    _ hback
  refine ⟨hback, printed, hp, hiff.2 ⟨by decide +kernel, ?_⟩⟩
  intro name x hx
  rw [hnumber hx]
  decide +kernel

/-- A bullet in front of the label makes the key of the links. -/
theorem orderOf_prettyLine_bullet :
    (Note.read "- URLs: none").NumbersReadBack ∧
    orderOf (.order (Json.prettyText (Note.read "- URLs: none").toJson ++ "\n")) ≠
      .ok (Note.read "- URLs: none") := by
  have hfields : (Note.read "- URLs: none").toList = [("_urls", .text "none")] := by
    decide +kernel
  have hback : (Note.read "- URLs: none").NumbersReadBack := by
    intro name x hx
    rw [← Order.mem_toList, hfields, List.mem_singleton] at hx
    cases hx
  refine ⟨hback, ?_⟩
  rw [Ne, orderOf_prettyLine_eq_ok_iff hback, ← Option.not_isSome_iff_eq_none]
  intro h
  exact h.1 (by decide +kernel)

end CommandLine
end Millwork
