import EvmAudit.Source.Load
import EvmAudit.Text.Quoted
import EvmAudit.Text.Regex

/-! What is given to look at: code, or sources of some kind. Sources are compiled; the code of each
contract goes to a file of its own, and a listing of it beside it. -/

namespace EvmAudit

inductive InputKind where
  | bytecode
  | solidity
  /-- A document for the compiler. -/
  | standardJson
  /-- The document that the compiler gives back. -/
  | standardJsonOutput
  deriving DecidableEq, Repr, Inhabited

def InputKind.ofCode : Int → Except Fault InputKind
  | 0 => .ok .bytecode
  | 1 => .ok .solidity
  | 2 => .ok .standardJson
  | 3 => .ok .standardJsonOutput
  | _ => .error .unsetResult

/-- What is asked of an input of a kind, in order. Null stands for what has to be given. -/
def InputKind.attributes : InputKind → List (String × Document)
  | .bytecode => [("source", .null), ("evm", .bool false)]
  | .solidity => [("source", .null), ("evm", .bool false), ("root_path", .text ""),
      ("compiled_contracts", .array []), ("compilation_err", .bool false), ("remap", .text ""),
      ("allow_paths", .text "")]
  | .standardJson => [("source", .null), ("evm", .bool false), ("root_path", .text ""),
      ("allow_paths", .null), ("compiled_contracts", .array [])]
  | .standardJsonOutput => [("source", .null), ("evm", .bool false), ("root_path", .text ""),
      ("compiled_contracts", .array [])]

structure Input where
  kind : InputKind
  source : String
  /-- Code and listings stay after the run. -/
  keepsCode : Bool := false
  root : String := ""
  /-- What the compiler complains about is reported. -/
  showsErrors : Bool := false
  remap : String := ""
  allowPaths : String := ""
  deriving Inhabited

structure PreparedContract where
  fullName : String
  map : SourceMap
  source : String
  /-- The source without its root, and the contract's name in it. -/
  file : String
  name : String
  deriving Inhabited

structure Prepared where
  listing : String
  contract : Option PreparedContract := none
  deriving Inhabited

namespace Input

def valueOf (given : List (String × Document)) (name : String) (default : Document) :
    Except Fault Document :=
  match (Document.lookup name given).getD default with
  | .null => .error (.missingInput name)
  | d => .ok d

def contractPairs (d : Document) : List (String × String) :=
  d.items.map fun row =>
    match row.items with
    | [name, code] => (name.text?.getD "", code.text?.getD "")
    | _ => ("", "")

/-- The input with what is given for it. The first attribute that is missing is the cause. -/
def ofGiven (kind : InputKind) (given : List (String × Document)) : Except Fault Input := do
  let values ← kind.attributes.mapM fun (name, default) => do
    return (name, ← valueOf given name default)
  let textAt (name : String) : String := ((Document.lookup name values).bind Document.text?).getD ""
  let flag (name : String) : Bool :=
    ((Document.lookup name values).map Document.isTruthy).getD false
  return {
    kind
    source := textAt "source"
    keepsCode := flag "evm"
    root := textAt "root_path"
    showsErrors := flag "compilation_err"
    remap := textAt "remap"
    allowPaths := textAt "allow_paths" }

/-! ### Compiling -/

def compileCommand (i : Input) : String :=
  "solc --bin-runtime " ++ i.remap ++ " " ++ i.source ++
    (if i.allowPaths = "" then "" else " --allow-paths " ++ i.allowPaths)

def contractPattern : String :=
  "\\n======= (.*?) =======\\nBinary of the runtime part: \\n(.*?)\\n"

def libraryPattern : String := "_+(.*?)_+"

def failCompilation (i : Input) (errors : String) : Work Unit := do
  let web := on (← get).settings.web
  let page (text : String) : Work Unit :=
    if web then
      Work.shell (Shell.print ("\x7b" ++ Text.quoted "error" ++ ": " ++ Text.quoted text ++ "\x7d"))
    else return ()
  if i.showsErrors then
    Work.shell (Shell.say .critical errors)
    Work.shell (Shell.say .critical "Solidity compilation failed.")
    page errors
  else
    Work.shell (Shell.say .critical
      "Solidity compilation failed. Please use -ce flag to see the detail.")
    page "Solidity compilation failed."
  throw (.exit (some 1))

/-- The contracts in the compiler's output that have code. There has to be one. -/
def contractsIn (i : Input) (output errors : String) : Work (List (String × String)) := do
  let pattern ← Work.ofExcept (Regex.read contractPattern)
  let found := (pattern.findAll output).filterMap fun groups =>
    match groups with
    | [name, code] => if code = "" then none else some (name, code)
    | _ => none
  if found.isEmpty then failCompilation i errors
  return found

def linkOptions (next : Nat) : List String → String
  | [] => ""
  | lib :: rest =>
    " --libraries " ++ lib ++ ":0x" ++ Text.padded 40 (Numeral.hexDigits next) ++
      linkOptions (next + 1) rest

def link (i : Input) (libraries : List String) : Work (List (String × String)) := do
  let _ ← Work.shell (Shell.output (compileCommand i))
  let output ← Work.shell (Shell.output ("solc --link" ++ linkOptions 1 libraries))
  contractsIn i output ""

def compileSolidity (i : Input) : Work (List (String × String)) := do
  let (output, errors) ← Work.shell (Shell.run (compileCommand i))
  let errors ← if i.showsErrors then do
      pure ((← Work.ofExcept (Regex.read i.root)).removeAll errors)
    else pure ""
  let pattern ← Work.ofExcept (Regex.read libraryPattern)
  let libraries := ((pattern.findAll output).flatten).eraseDups
  if libraries.isEmpty then contractsIn i output errors else link i libraries

def contractsOfOutput (d : Document) : Except Fault (List (String × String)) := do
  let sources ← (← d.get "sources").elements
  let found ← sources.mapM fun source => do
    let file ← source.asText
    let contracts ← d.path ["contracts", file]
    (← contracts.elements).mapM fun contract => do
      let name ← contract.asText
      let code ← contracts.path [name, "evm", "deployedBytecode", "object"]
      return (file ++ ":" ++ name, code.text?.getD "")
  return found.flatten

def compileOutput (file : String) : Work (List (String × String)) := do
  let content ← Work.shell (Shell.readFile file)
  Work.ofExcept (do contractsOfOutput (← Document.read content))

/-- Hands the document to the compiler. What comes back are bytes, which no file of text takes. -/
def compileDocument (i : Input) : Work (List (String × String)) := do
  let _ ← Work.shell (Shell.run ("cat " ++ i.source))
  let _ ← Work.shell (Shell.run ("solc --allow-paths " ++ i.allowPaths ++ " --standard-json"))
  Work.shell (Shell.writeFile Source.outputFile "")
  throw .unsupportedOperand

def contracts (i : Input) : Work (List (String × String)) := do
  if (← get).compiled.isEmpty then
    let compiled ← match i.kind with
      | .solidity => compileSolidity i
      | .standardJson => compileDocument i
      | .standardJsonOutput => compileOutput i.source
      | .bytecode => pure []
    modify fun s => { s with compiled }
  return (← get).compiled

/-! ### Files -/

def codeFile (target : String) : String := target ++ ".evm"

def listingFile (target : String) : String := target ++ ".evm.disasm"

def logFile (target : String) : String := target ++ ".evm.disasm.log"

def markPattern : String := "a165627a7a72305820\\S\x7b64\x7d0029$"

def withoutMark (code : String) : Except Fault String := do
  return (← Regex.read markPattern).removeAll code

def writeListing (target : String) : Shell Unit := do
  let listing ← tryCatch (do return (← Shell.start ["evm", "disasm", codeFile target]).1)
    fun _ => do
    Shell.say .critical "Disassembly failed."
    throw (.exit none)
  Shell.writeFile (listingFile target) listing

def prepareFile (target code : String) : Shell Unit := do
  Shell.writeFile (codeFile target) (← Shell.ofExcept (withoutMark code))
  writeListing target

def prepareFiles (contracts : List (String × String)) : Shell Unit :=
  contracts.forM fun (target, code) => prepareFile target code

def removeFiles (i : Input) (target : String) : Shell Unit := do
  if !i.keepsCode then
    Shell.removeFile (codeFile target)
    Shell.removeFile (listingFile target)
  Shell.removeFile (logFile target)

def cleanUp (i : Input) : Work Unit := do
  match i.kind with
  | .bytecode => Work.shell (removeFiles i i.source)
  | _ =>
    let compiled := (← get).compiled
    Work.shell (compiled.forM fun (target, _) => removeFiles i target)

def sourceRequest (i : Input) (contract : String) : SourceRequest :=
  match i.kind with
  | .solidity =>
    { contract, main := i.source, kind := "solidity", root := i.root, remap := i.remap
      allowPaths := i.allowPaths }
  | _ => { contract, main := i.source, kind := "standard json", root := i.root }

def prepareContract (i : Input) (contract : String) : Work Prepared := do
  match Text.splitAt ':' contract with
  | [file, name] =>
    let file := (← Work.ofExcept (Regex.read i.root)).removeAll file
    let map ← SourceMap.load (sourceRequest i contract)
    return {
      listing := listingFile contract
      contract := some { fullName := contract, map, source := i.source, file, name } }
  | _ => throw .wrongParts

def prepare (i : Input) : Work (List Prepared) := do
  match i.kind with
  | .bytecode =>
    let code ← Work.shell (Shell.readFile i.source)
    Work.shell (prepareFile i.source code)
    return [{ listing := listingFile i.source }]
  | _ =>
    let contracts ← contracts i
    Work.shell (prepareFiles contracts)
    contracts.mapM fun (contract, _) => prepareContract i contract

end Input

end EvmAudit
