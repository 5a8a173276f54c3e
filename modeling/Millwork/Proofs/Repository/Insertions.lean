import Mathlib.Data.List.Dedup
import Millwork.Repository.Memory
import Millwork.Proofs.Repository.Key
/-!
# Rule sets put into memory

However many rule sets are put in one after the other, a name finds the last one that was put in under the
same key. There are as many rule sets as there are keys, and no other key is touched by putting one in.
-/
namespace Millwork.MemoryRepository

/-- Puts rule sets in by their names, one after the other. -/
def insertAll (repository : MemoryRepository) (entries : List (String × RuleSet)) : MemoryRepository :=
  entries.foldl (fun repository entry => repository.insert entry.1 entry.2) repository

/-- The last of the rule sets whose names have the same key as `name`. -/
def last? (entries : List (String × RuleSet)) (name : String) : Option RuleSet :=
  ((entries.filter fun entry => RuleSet.keyOf entry.1 = RuleSet.keyOf name).getLast?).map Prod.snd

private def keysOf (entries : List (String × RuleSet)) : List String :=
  (entries.map fun entry => RuleSet.keyOf entry.1).dedup

variable (repository : MemoryRepository)

private theorem resolve_insert (name other : String) (rules : RuleSet) :
    (repository.insert name rules).resolve other =
      if RuleSet.keyOf name = RuleSet.keyOf other then rules else repository.resolve other := by
  simp [resolve, insert, Std.ExtTreeMap.getD_insert]

private theorem mem_insert (name key : String) (rules : RuleSet) :
    key ∈ (repository.insert name rules).sets ↔ key = RuleSet.keyOf name ∨ key ∈ repository.sets := by
  rw [insert, Std.ExtTreeMap.mem_insert, Std.LawfulEqCmp.compare_eq_iff_eq, eq_comm]

@[simp] theorem resolve_keyOf (name : String) :
    repository.resolve (RuleSet.keyOf name) = repository.resolve name := by
  simp [resolve]

private theorem last?_cons (entry : String × RuleSet) (entries : List (String × RuleSet))
    (name : String) :
    last? (entry :: entries) name =
      (last? entries name).or
        (if RuleSet.keyOf entry.1 = RuleSet.keyOf name then some entry.2 else none) := by
  by_cases hk : RuleSet.keyOf entry.1 = RuleSet.keyOf name
  · simp only [last?, List.filter_cons, hk, decide_true, if_true, List.getLast?_cons]
    cases (entries.filter fun entry => RuleSet.keyOf entry.1 = RuleSet.keyOf name).getLast? <;> rfl
  · simp [last?, hk]

private theorem resolve_insertAll (entries : List (String × RuleSet)) (name : String) :
    (repository.insertAll entries).resolve name =
      (last? entries name).getD (repository.resolve name) := by
  induction entries generalizing repository with
  | nil => rfl
  | cons entry entries ih =>
    rw [insertAll, List.foldl_cons, ← insertAll, ih, resolve_insert, last?_cons]
    by_cases hk : RuleSet.keyOf entry.1 = RuleSet.keyOf name
    · cases last? entries name <;> simp [hk]
    · simp [hk]

private theorem mem_insertAll (entries : List (String × RuleSet)) (key : String) :
    key ∈ (repository.insertAll entries).sets ↔ key ∈ keysOf entries ∨ key ∈ repository.sets := by
  induction entries generalizing repository with
  | nil => simp [insertAll, keysOf]
  | cons entry entries ih =>
    rw [insertAll, List.foldl_cons, ← insertAll, ih, mem_insert]
    simp only [keysOf, List.mem_dedup, List.map_cons, List.mem_cons]
    tauto

private theorem size_insertAll (entries : List (String × RuleSet)) :
    (empty.insertAll entries).size = (keysOf entries).length := by
  have hperm : (empty.insertAll entries).sets.keys.Perm (keysOf entries) := by
    apply (List.perm_ext_iff_of_nodup Std.ExtTreeMap.nodup_keys (List.nodup_dedup _)).2
    intro key
    rw [Std.ExtTreeMap.mem_keys, mem_insertAll]
    exact or_iff_left Std.ExtTreeMap.not_mem_empty
  rw [size, ← Std.ExtTreeMap.length_keys, hperm.length_eq]

/-- A key finds the last rule set that was put in under it, or the empty one; there are as many rule sets as
keys, and a rule set that is put in under one key leaves what every other key finds. -/
theorem resolve_last (entries : List (String × RuleSet)) :
    (∀ name, (empty.insertAll entries).resolve (RuleSet.keyOf name) =
      (last? entries name).getD RuleSet.empty) ∧
    (empty.insertAll entries).size = (entries.map fun entry => RuleSet.keyOf entry.1).dedup.length ∧
    ∀ (name other : String) (rules : RuleSet), RuleSet.keyOf other ≠ RuleSet.keyOf name →
      ((empty.insertAll entries).insert name rules).resolve (RuleSet.keyOf other) =
        (empty.insertAll entries).resolve (RuleSet.keyOf other) := by
  refine ⟨?_, size_insertAll entries, ?_⟩
  · intro name
    rw [resolve_keyOf, resolve_insertAll]
    simp [resolve, empty]
  · intro name other rules hne
    rw [resolve_keyOf, resolve_keyOf, resolve_insert, if_neg hne.symm]

end Millwork.MemoryRepository
