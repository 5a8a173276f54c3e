import Millwork.Calculation
import Millwork.Repository.Directory
import Millwork.Report.Styled
/-!
# Reports

What a calculation did, for a reader at a terminal: the order, the rules that were looked at for each
property, and the quantities.
-/
namespace Millwork
/-- When the rules were read, and how long the work took. -/
structure Times where
  loaded : String
  total : String
  evaluation : String

namespace Report
open Style

def fieldLine (name : String) (value : Value) : Styled :=
  let shown :=
    match value with
    | .number _ => green.paint value.toText
    | .bool _ => yellow.paint value.toText
    | .text s => .text ("\"" ++ s ++ "\"")
  .text "  " ++ blue.paint name ++ .text " " ++ dim.paint "=" ++ .text " " ++ shown

def linkLine (link : String) : Styled :=
  .text "  " ++ dim.paint "url:" ++ .text " " ++ cyan.paint link

def orderLines (order : Order) : List Styled :=
  (if order.isEmpty then [dim.paint "  No fields parsed"] else []) ++
    order.toList.map (fun field => fieldLine field.1 field.2) ++ order.links.map linkLine

def outcomeText : Outcome → Styled
  | .evaluated value => green.paint ("✓ " ++ Decimal.plainText value)
  | .noMatch => dim.paint "✗ no match, default"
  | .failed failure => red.paint ("✗ " ++ failure.message ++ ", default")
  | .nonFinite value => yellow.paint ("! " ++ Decimal.plainText value)

def placesText (places : List Nat) : String :=
  "[" ++ String.intercalate ", " (places.map toString) ++ "]"

def traceLines (trace : Trace) : List Styled :=
  (.text "  " ++ blue.paint (trace.property.name ++ ":") ++ .text " " ++ outcomeText trace.outcome) ::
  if trace.considered = 0 then
    []
  else
    (.text "    " ++ dim.paint "rules:" ++ .text " " ++ yellow.paint (toString trace.considered) ++
      .text "  " ++ dim.paint "│ matched:" ++ .text " " ++ yellow.paint (placesText trace.matched)) ::
    match trace.selected, trace.formula with
    | some place, some formula =>
      [.text "    " ++ gray.paint ("[" ++ toString place ++ "]") ++ .text " " ++ cyan.paint formula]
    | _, _ => []

def rulesLines (snapshot : Snapshot) (calculation : Calculation) (loaded : String) : List Styled :=
  (.text "  " ++ dim.paint "loaded:" ++ .text " " ++ blue.paint (toString snapshot.size) ++
    .text "  " ++ dim.paint "│ at:" ++ .text " " ++ dim.paint loaded) ::
  if calculation.withoutRules then
    (.text "  " ++ yellow.paint ("✗ no rules for '" ++ calculation.key ++ "'")) ::
    if snapshot.isEmpty then []
    else [.text "  " ++ dim.paint "known:" ++ .text " " ++
      dim.paint (String.intercalate ", " snapshot.keys)]
  else
    []

def resultLines (quantities : Quantities) : List Styled :=
  quantities.toList.map fun (property, value) =>
    .text "  " ++ .padded 16 (blue.paint property.name) ++ .text " " ++
      bold.paint (green.paint (Decimal.plainText value))

/-- The lines of the report. -/
def lines (order : Order) (snapshot : Snapshot) (calculation : Calculation) (times : Times) :
    List Styled :=
  [.text "", bold.paint (cyan.paint ("⚙  Rule set: \"" ++ calculation.key ++ "\"")),
    .text "", gray.paint "━━━ Order ━━━"] ++
  orderLines order ++
  [.text "", gray.paint "━━━ Rules ━━━"] ++
  rulesLines snapshot calculation times.loaded ++
  calculation.traces.flatMap traceLines ++
  [.text "", gray.paint "━━━ Result ━━━"] ++
  resultLines calculation.quantities ++
  [.text "", gray.paint "━━━ Timing ━━━",
    .text "  Total: " ++ green.paint times.total ++ .text "  │  Evaluate: " ++
      cyan.paint times.evaluation,
    .text ""]

def text (color : Bool) (order : Order) (snapshot : Snapshot) (calculation : Calculation)
    (times : Times) : String :=
  String.ofList <|
    (lines order snapshot calculation times).flatMap fun line => line.render color ++ ['\n']

end Report
end Millwork
