/-!
# Arguments

What a single argument of the command line stands for.
-/
namespace Millwork.CommandLine
/-- The options that take a value. -/
inductive Setting
  | rules
  | input
  | order
deriving DecidableEq, Repr

namespace Setting
def name : Setting → String
  | rules => "--rules"
  | input => "--input"
  | order => "--order"

def all : List Setting := [rules, input, order]

end Setting

inductive Argument
  | help
  | version
  | color (on : Bool)
  | parseOnly
  | json
  /-- The value is the next argument. -/
  | setting (setting : Setting)
  | settingTo (setting : Setting) (value : String)
  /-- All further arguments are text. -/
  | textFollows
  | unknown (text : String)
  | word (text : String)
deriving DecidableEq, Repr

def dropLeads (lead : List Char) (s : List Char) : List Char :=
  if _h : lead.isPrefixOf s = true ∧ lead ≠ [] then
    dropLeads lead (s.drop lead.length)
  else
    s
termination_by s.length
decreasing_by
  have hl := List.length_pos_iff.2 _h.2
  have hs := (List.isPrefixOf_iff_prefix.1 _h.1).length_le
  simp only [List.length_drop]
  omega

namespace Argument
/-- The name of a setting up to its value, if both are in one argument. -/
def lead (setting : Setting) : List Char :=
  (setting.name ++ "=").toList

def joined? (text : String) : Option Argument :=
  (Setting.all.find? fun setting => (lead setting).isPrefixOf text.toList).map fun setting =>
    .settingTo setting (String.ofList (dropLeads (lead setting) text.toList))

def other (text : String) : Argument :=
  (joined? text).getD (if text.toList.head? = some '-' then .unknown text else .word text)

def ofText (text : String) : Argument :=
  match text with
  | "-h" | "--help" => .help
  | "-V" | "--version" => .version
  | "--color" => .color true
  | "--no-color" => .color false
  | "--parse-only" => .parseOnly
  | "--json" => .json
  | "-r" | "--rules" => .setting .rules
  | "-i" | "--input" => .setting .input
  | "--order" => .setting .order
  | "--" => .textFollows
  | text => other text

end Argument
end Millwork.CommandLine
