import EvmAudit.Options

/-! The help text of the command line: how it is used, and a paragraph for each option. -/

namespace EvmAudit.Options

def descriptions : List (String × String × String) :=
  [("--help", "", "show this help message and exit"),
    ("--source", "SOURCE",
    "local source file name. Solidity by default. Use -b to process evm instead. Use stdin to read from stdin."),
    ("--remoteURL", "REMOTE_URL",
    "Get contract from remote URL. Solidity by default. Use -b to process evm instead."),
    ("--version", "", "show program's version number and exit"),
    ("--remap", "REMAP", "Remap directory paths"),
    ("--timeout", "TIMEOUT", "Timeout for Z3 in ms."),
    ("--gaslimit", "GAS_LIMIT", "Limit Gas"),
    ("--root-path", "ROOT_PATH", "Root directory path used for the online version"),
    ("--looplimit", "LOOP_LIMIT", "Limit number of loops"),
    ("--depthlimit", "DEPTH_LIMIT", "Limit DFS depth"),
    ("--allow-paths", "ALLOW_PATHS", "Allow a given path for imports"),
    ("--global-timeout", "GLOBAL_TIMEOUT", "Timeout for symbolic execution"),
    ("--evm", "", "Do not remove the .evm file."),
    ("--web", "", "Run Oyente for web service"),
    ("--json", "", "Redirect results to a json file."),
    ("--paths", "", "Print path condition information."),
    ("--debug", "", "Display debug information"),
    ("--state", "", "Get input state from state.json"),
    ("--report", "", "Create .report file."),
    ("--verbose", "", "Verbose output, print everything."),
    ("--parallel", "", "Run Oyente in parallel. Note: The performance may depend on the contract"),
    ("--bytecode", "", "read bytecode in source instead of solidity file."),
    ("--assertion", "", "Check assertion failures."),
    ("--standard-json", "", "Support Standard JSON input"),
    ("--globalblockchain", "", "Integrate with the global ethereum blockchain"),
    ("--compilation-error", "", "Display compilation errors"),
    ("--generate-test-cases", "", "Generate test cases each branch of symbolic execution tree"),
    ("--standard-json-output", "", "Support Standard JSON output")]

def fillLines (width : Nat) (line : String) : List String → List String
  | [] => [line]
  | word :: rest =>
    if line.length + 1 + word.length ≤ width then fillLines width (line ++ " " ++ word) rest
    else line :: fillLines width word rest

def paragraph (width : Nat) : List String → List String
  | [] => []
  | word :: rest => fillLines width word rest

def written (option value : String) : String :=
  if value = "" then option else option ++ " " ++ value

def usageOf (s : Spec) : String :=
  let value := ((descriptions.lookup s.long).map Prod.fst).getD ""
  written (if s.short = "" then s.long else s.short) value

def usageParts : List String :=
  let (required, free) := specs.partition fun s => s.long = "--source" || s.long = "--remoteURL"
  match free.map (fun s => "[" ++ usageOf s ++ "]") with
  | help :: rest => help :: ("(" ++ " | ".intercalate (required.map usageOf) ++ ")") :: rest
  | [] => []

def textWidth : Nat := 78

def descriptionColumn : Nat := 24

def programName : String := "oyente.py"

def blanks (n : Nat) : String := "".pushn ' ' n

def usage : String :=
  let start := "usage: " ++ programName
  let indent := start.length + 1
  let lines := paragraph (textWidth - indent) usageParts
  start ++ " " ++ ("\n" ++ blanks indent).intercalate lines

def entryOf (s : Spec) : String :=
  let (value, description) := (descriptions.lookup s.long).getD ("", "")
  let names := (if s.short = "" then [s.long] else [s.short, s.long]).map (written · value)
  let head := "  " ++ ", ".intercalate names
  let lines := paragraph (textWidth - descriptionColumn) (Text.words description)
  let body := ("\n" ++ blanks descriptionColumn).intercalate lines
  if head.length + 2 ≤ descriptionColumn then
    head ++ blanks (descriptionColumn - head.length) ++ body
  else head ++ "\n" ++ blanks descriptionColumn ++ body

def help : String := "\n".intercalate ([usage, "", "options:"] ++ specs.map entryOf)

end EvmAudit.Options
