import Std.Data.ExtTreeMap
import Millwork.Rule
import Millwork.Repository.Key
/-!
# Rule sets in memory

Rule sets that are put in by name; the last one put in under a key is the one that counts.
-/
namespace Millwork
structure MemoryRepository where
  sets : Std.ExtTreeMap String RuleSet := ∅

namespace MemoryRepository
def empty : MemoryRepository := {}

def insert (repository : MemoryRepository) (name : String) (rules : RuleSet) : MemoryRepository :=
  { sets := repository.sets.insert (RuleSet.keyOf name) rules }

/-- The rule set of a key; without one it is the empty rule set. -/
def resolve (repository : MemoryRepository) (name : String) : RuleSet :=
  repository.sets.getD (RuleSet.keyOf name) RuleSet.empty

def size (repository : MemoryRepository) : Nat :=
  repository.sets.size

def isEmpty (repository : MemoryRepository) : Bool :=
  repository.sets.isEmpty

end MemoryRepository
end Millwork
