import Millwork.Text.Lower
/-!
# Keys of rule sets

Rule sets are known by a key in small letters. The document of a rule set is the file named by its
key.
-/
namespace Millwork.RuleSet
/-- The key that a name stands for; names are the same key in letters of any case. -/
def keyOf (name : String) : String :=
  Text.lowerString name

def fileName (key : String) : String :=
  key ++ ".json"

end Millwork.RuleSet
