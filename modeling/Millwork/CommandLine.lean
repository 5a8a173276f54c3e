import Millwork.CommandLine.Request
import Millwork.Note
import Millwork.Order.Json
import Millwork.Report
/-!
# The command line tool

Reads a note or an order, and writes the order, its quantities, or a report of how they were worked
out. It ends with 0 if that was done, with 1 if the order is none or the rules cannot be listed, and with 2
if the command line is wrong or lacks an input.
-/
namespace Millwork.CommandLine
structure Output where
  exitCode : Nat
  stdout : String
  stderr : String
deriving DecidableEq, Repr

/-- What a call finds around it. -/
structure Surroundings where
  standardInput : ByteArray
  /-- The variable of the environment that names the directory of the rules. -/
  rulesVariable : Option String
  /-- What listing the directory at a path gives: its entries, none without a directory, or the reason why
  they cannot be listed. -/
  listing : String → Except String Folder
  times : Times

namespace Output
def success (stdout : String) : Output := ⟨0, stdout, ""⟩

def inputError (message : String) : Output := ⟨1, "", "error: " ++ message ++ "\n"⟩

def usageError (e : UsageError) : Output := ⟨2, "", e.message ++ "\n"⟩

end Output

/-- Why an input is no order. -/
inductive InputError
  | notJson
  | mismatch (mismatch : Json.Mismatch)
deriving DecidableEq, Repr

def InputError.message : InputError → String
  | notJson => "invalid --order JSON: malformed text"
  | mismatch m => m.message

def orderOf : Input → Except InputError Order
  | .note text => .ok (Note.read text)
  | .order json =>
    match Json.read? json with
    | none => .error .notJson
    | some value =>
      match Order.ofJson value with
      | .ok order => .ok order
      | .error m => .error (.mismatch m)

def lookUp (snapshot : Snapshot) (key : String) : RuleSet × Snapshot :=
  (snapshot.getD (RuleSet.keyOf key) RuleSet.empty, snapshot)

/-- What is written about an order. -/
def answer (settings : Settings) (order : Order) (surroundings : Surroundings) :
    Except ReadFailure String :=
  if settings.parseOnly then
    .ok (Json.prettyText order.toJson ++ "\n")
  else
    let path := settings.rulesPath surroundings.rulesVariable
    (Document.readAll path (surroundings.listing path)).map fun snapshot =>
      let (calculation, _) := Calculation.run lookUp snapshot {} order
      if settings.json then
        Json.prettyText (Quantities.toJson calculation.quantities) ++ "\n"
      else
        Report.text settings.color order snapshot calculation surroundings.times

def process (settings : Settings) (surroundings : Surroundings) : Output :=
  match settings.inputOr surroundings.standardInput with
  | .error e => .usageError e
  | .ok input =>
    match orderOf input with
    | .error e => .inputError e.message
    | .ok order =>
      match answer settings order surroundings with
      | .ok text => .success text
      | .error failure => .inputError failure.message

def run (arguments : List String) (surroundings : Surroundings) : Output :=
  match read arguments with
  | .error e => .usageError e
  | .ok .help => .success (helpText ++ "\n")
  | .ok .version => .success (versionText ++ "\n")
  | .ok (.process settings) => process settings surroundings

end Millwork.CommandLine
