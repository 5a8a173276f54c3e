/-!
# Properties

The six quantities that are worked out for an order, in the order in which they are worked out.
-/
namespace Millwork
inductive Property
  | length
  | width
  | thickness
  | boringPlacement
  | boreDepth
  | boreBoxHeight
deriving DecidableEq, Repr

namespace Property
def all : List Property :=
  [length, width, thickness, boringPlacement, boreDepth, boreBoxHeight]

def name : Property → String
  | length => "length"
  | width => "width"
  | thickness => "thickness"
  | boringPlacement => "boringPlacement"
  | boreDepth => "boreDepth"
  | boreBoxHeight => "boreBoxHeight"

def ofName? (text : String) : Option Property :=
  all.find? (·.name == text)

def default (_ : Property) : Float := 0.0

theorem mem_all (p : Property) : p ∈ all := by
  cases p <;> decide

end Property

/-- One entry for each property. -/
structure Property.Table (α : Type) where
  length : α
  width : α
  thickness : α
  boringPlacement : α
  boreDepth : α
  boreBoxHeight : α

namespace Property.Table
variable {α β : Type}

def get (table : Table α) : Property → α
  | .length => table.length
  | .width => table.width
  | .thickness => table.thickness
  | .boringPlacement => table.boringPlacement
  | .boreDepth => table.boreDepth
  | .boreBoxHeight => table.boreBoxHeight

def ofFunction (f : Property → α) : Table α :=
  ⟨f .length, f .width, f .thickness, f .boringPlacement, f .boreDepth, f .boreBoxHeight⟩

def set (table : Table α) (property : Property) (entry : α) : Table α :=
  ofFunction fun p => if p = property then entry else table.get p

/-- The entries with their properties, in order. -/
def toList (table : Table α) : List (Property × α) :=
  Property.all.map fun p => (p, table.get p)

@[simp] theorem get_ofFunction (f : Property → α) (p : Property) : (ofFunction f).get p = f p := by
  cases p <;> rfl

@[simp] theorem get_set (table : Table α) (property p : Property) (entry : α) :
    (table.set property entry).get p = if p = property then entry else table.get p :=
  get_ofFunction _ p

@[ext] theorem ext_get {a b : Table α} (h : ∀ p, a.get p = b.get p) : a = b := by
  cases a
  cases b
  have h₁ := h .length
  have h₂ := h .width
  have h₃ := h .thickness
  have h₄ := h .boringPlacement
  have h₅ := h .boreDepth
  have h₆ := h .boreBoxHeight
  simp only [get] at h₁ h₂ h₃ h₄ h₅ h₆
  simp only [*]

end Property.Table
end Millwork
