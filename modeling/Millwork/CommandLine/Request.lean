import Millwork.Text.Blank
import Millwork.CommandLine.Argument
import Millwork.CommandLine.Help
/-!
# Requests

What the arguments of a command line, read from left to right, ask for. A request for help or for the
version is met at once; the first argument that is wrong decides the error.
-/
namespace Millwork.CommandLine
inductive Input
  | note (text : String)
  | order (json : String)
deriving DecidableEq, Repr

def Input.text : Input → String
  | note text => text
  | order json => json

structure Settings where
  input : Option Input := none
  rules : Option String := none
  parseOnly : Bool := false
  json : Bool := false
  color : Bool := false

/-- Why a command line cannot be carried out. -/
inductive UsageError
  | missingValue (setting : Setting)
  | unknownOption (text : String)
  | repeatedInput
  /-- The standard input is no UTF-8. -/
  | undecodableInput
  | noInput
deriving DecidableEq, Repr

def UsageError.message : UsageError → String
  | missingValue setting => "error: " ++ setting.name ++ " expects a value"
  | unknownOption text => "error: unknown option '" ++ text ++ "'"
  | repeatedInput => "error: input provided multiple times"
  | undecodableInput => "error: failed to read stdin: stream did not contain valid UTF-8"
  | noInput => "error: no input provided\n\n" ++ helpText

inductive Request
  | help
  | version
  | process (settings : Settings)

namespace Settings
def setInput (settings : Settings) (input : Input) : Except UsageError Settings :=
  if settings.input.isSome then .error .repeatedInput
  else .ok { settings with input := some input }

def give (settings : Settings) (setting : Setting) (value : String) : Except UsageError Settings :=
  match setting with
  | .rules => .ok { settings with rules := some value }
  | .input => settings.setInput (.note value)
  | .order => settings.setInput (.order value)

def giveWords (settings : Settings) (words : List String) : Except UsageError Settings :=
  settings.setInput (.note (String.intercalate " " words))

def rulesPath (settings : Settings) (rulesVariable : Option String) : String :=
  (settings.rules.or rulesVariable).getD defaultRulesPath

end Settings

def isBlankText (text : String) : Bool :=
  (Text.trim text.toList).isEmpty

/-- Reads the arguments that follow those that led to `settings`. -/
def readFrom (settings : Settings) : List String → Except UsageError Request
  | [] => .ok (.process settings)
  | text :: more =>
    match Argument.ofText text with
    | .help => .ok .help
    | .version => .ok .version
    | .color on => readFrom { settings with color := on } more
    | .parseOnly => readFrom { settings with parseOnly := true } more
    | .json => readFrom { settings with json := true } more
    | .setting setting =>
      match more with
      | [] => .error (.missingValue setting)
      | value :: rest =>
        match settings.give setting value with
        | .ok settings => readFrom settings rest
        | .error e => .error e
    | .settingTo setting value =>
      match settings.give setting value with
      | .ok settings => readFrom settings more
      | .error e => .error e
    | .textFollows =>
      if isBlankText (String.intercalate " " more) then .ok (.process settings)
      else (settings.giveWords more).map .process
    | .unknown text => .error (.unknownOption text)
    | .word word => (settings.giveWords (word :: more)).map .process

def read (arguments : List String) : Except UsageError Request :=
  readFrom {} arguments

def decodeInput (standardInput : ByteArray) : Except UsageError Input :=
  match String.fromUTF8? standardInput with
  | some text => .ok (.note text)
  | none => .error .undecodableInput

def refuseBlank (input : Input) : Except UsageError Input :=
  if isBlankText input.text then .error .noInput else .ok input

def Settings.inputOr (settings : Settings) (standardInput : ByteArray) : Except UsageError Input :=
  match settings.input with
  | some input => refuseBlank input
  | none => (decodeInput standardInput).bind refuseBlank

end Millwork.CommandLine
