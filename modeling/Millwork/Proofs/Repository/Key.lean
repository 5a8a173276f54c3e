import Millwork.Repository.Key
import Millwork.Proofs.Text.Lower
/-!
# Keys in small letters

A key is its own key. It is empty only if its name is, and has a slash only if its name has one.
-/
namespace Millwork.RuleSet

theorem keyOf_of_isSmall {name : String} (h : ∀ c ∈ name.toList, Text.IsSmall c.toNat) :
    keyOf name = name := by
  rw [keyOf, Text.lowerString, Text.lower_of_isSmall h, String.ofList_toList]

@[simp] theorem keyOf_keyOf (name : String) : keyOf (keyOf name) = keyOf name :=
  Text.lowerString_lowerString name

theorem keyOf_eq_empty_iff (name : String) : keyOf name = "" ↔ name = "" := by
  rw [keyOf, Text.lowerString, ← String.toList_eq_nil_iff, String.toList_ofList, Text.lower_eq_nil_iff,
    String.toList_eq_nil_iff]

theorem slash_mem_keyOf_iff (name : String) : '/' ∈ (keyOf name).toList ↔ '/' ∈ name.toList := by
  have hslash : ∀ c : Char, (c == '/') = true → 0 < c.toNat ∧ c.toNat < 0x41 := by
    intro c hc
    rw [beq_iff_eq.1 hc]
    decide
  have hm (s : List Char) : '/' ∈ s ↔ '/' ∈ s.filter (· == '/') := by
    rw [List.mem_filter, beq_self_eq_true, and_iff_left rfl]
  rw [keyOf, Text.lowerString, String.toList_ofList, hm, Text.filter_lower hslash, ← hm]

end Millwork.RuleSet
