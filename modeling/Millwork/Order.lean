import Std.Data.ExtTreeMap
import Millwork.Value
/-!
# Orders

An order has named fields, each with one value, and the links that were found in its note. Fields
are listed by name, links in the order in which they were found.
-/
namespace Millwork
structure Order where
  fields : Std.ExtTreeMap String Value := ∅
  links : List String := []

namespace Order
def empty : Order := {}

/-- Sets a field; an earlier value of the same name is lost. -/
def insert (order : Order) (name : String) (value : Value) : Order :=
  { order with fields := order.fields.insert name value }

def withLinks (order : Order) (links : List String) : Order :=
  { order with links }

def ofList (fields : List (String × Value)) : Order :=
  fields.foldl (fun order field => order.insert field.1 field.2) empty

def get? (order : Order) (name : String) : Option Value :=
  order.fields[name]?

def contains (order : Order) (name : String) : Bool :=
  order.fields.contains name

def toList (order : Order) : List (String × Value) :=
  order.fields.toList

def size (order : Order) : Nat :=
  order.fields.size

def isEmpty (order : Order) : Bool :=
  order.fields.isEmpty

def sameFields : List (String × Value) → List (String × Value) → Bool
  | [], [] => true
  | (name, value) :: more, (name', value') :: more' =>
    name == name' && value.same value' && sameFields more more'
  | _, _ => false

/-- Whether two orders have the same fields and links; a NaN in a field makes them differ. -/
def same (a b : Order) : Bool :=
  sameFields a.toList b.toList && a.links == b.links

@[simp] theorem get?_empty (name : String) : empty.get? name = none := by
  simp [empty, get?]

theorem get?_insert (order : Order) (name other : String) (value : Value) :
    (order.insert name value).get? other = if name = other then some value else order.get? other := by
  simp [insert, get?, Std.ExtTreeMap.getElem?_insert]

@[simp] theorem get?_withLinks (order : Order) (links : List String) (name : String) :
    (order.withLinks links).get? name = order.get? name := rfl

@[simp] theorem links_insert (order : Order) (name : String) (value : Value) :
    (order.insert name value).links = order.links := rfl

@[simp] theorem links_withLinks (order : Order) (links : List String) :
    (order.withLinks links).links = links := rfl

@[ext] theorem ext_get? {a b : Order} (hf : ∀ name, a.get? name = b.get? name)
    (hl : a.links = b.links) : a = b := by
  cases a
  cases b
  have hm := Std.ExtTreeMap.ext_getElem? hf
  simp only at hl hm
  rw [hl, hm]

end Order
end Millwork
