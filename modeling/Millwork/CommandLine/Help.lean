/-!
# Help

The name of the program, and the text that explains how to call it.
-/
namespace Millwork.CommandLine
def versionText : String := "cutsheet 0.1.0"

def rulesVariableName : String := "CUTSHEET_RULES_DIR"

def defaultRulesPath : String := "rules"

def helpText : String :=
  versionText ++ "\n" ++
  "\n" ++
  "Order-note parser and rule-driven cut sheet calculator.\n" ++
  "\n" ++
  "Usage:\n" ++
  "  cutsheet [OPTIONS] [--] <notes...>\n" ++
  "  cutsheet [OPTIONS] --input <text>\n" ++
  "  cutsheet [OPTIONS] --order <json>\n" ++
  "\n" ++
  "Options:\n" ++
  "  -i, --input <text>         Order note text. If omitted, reads remaining args\n" ++
  "                             or stdin when no args are provided.\n" ++
  "  --order <json>             Calculate from an order record given as a JSON object.\n" ++
  "  -r, --rules <dir>          Rule set directory.\n" ++
  "                             Default: $" ++ rulesVariableName ++ ", else ./" ++
    defaultRulesPath ++ "\n" ++
  "  --parse-only               Print the parsed order record as JSON and exit.\n" ++
  "  --json                     Print the calculation result as JSON.\n" ++
  "  --color                    Force ANSI color output.\n" ++
  "  --no-color                 Disable ANSI color output.\n" ++
  "  -h, --help                 Show this help message.\n" ++
  "  -V, --version              Print version information.\n" ++
  "\n" ++
  "Environment:\n" ++
  "  CUTSHEET_LOG                Log filter (e.g. debug, cutsheet=debug). Default: warn\n" ++
  "\n" ++
  "Exit codes:\n" ++
  "  0  Success.\n" ++
  "  1  Input error (unparseable order JSON, unreadable rules).\n" ++
  "  2  Invalid arguments or missing input.\n"

end Millwork.CommandLine
