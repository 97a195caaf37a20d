import EvmAudit.Document.Reader
import EvmAudit.Settings
import EvmAudit.Source.Contracts
import EvmAudit.Workspace

/-! Source maps from the output of the compiler. The output for the sources is asked for once; the
maps of all contracts are made from it. -/

namespace EvmAudit

structure Library where
  /-- The file that was compiled; empty before. -/
  main : String := ""
  remap : String := ""
  allowPaths : String := ""
  assembly : Document := .object []
  contracts : Option Contracts := none
  hashes : Document := .object []
  texts : Table String SourceText := {}
  deriving Inhabited

/-- The state of a session: its surroundings and settings, the library of its sources, and the
contracts it has compiled, by name with their code. -/
structure Session where
  workspace : Workspace := {}
  settings : Settings := {}
  library : Library := {}
  compiled : List (String × String) := []
  deriving Inhabited

abbrev Work := ExceptT Fault (StateM Session)

namespace Work

def ofExcept {α : Type} (x : Except Fault α) : Work α := ExceptT.mk (pure x)

def shell {α : Type} (x : Shell α) : Work α :=
  ExceptT.mk do
    let (answer, workspace) := x.perform (← get).workspace
    modify fun s => { s with workspace }
    return answer

def perform {α : Type} (x : Work α) (s : Session) : Except Fault α × Session :=
  StateT.run (ExceptT.run x) s

def modifyLibrary (f : Library → Library) : Work Unit :=
  modify fun s => { s with library := f s.library }

end Work

structure SourceRequest where
  contract : String
  main : String
  kind : String
  root : String := ""
  remap : String := ""
  allowPaths : String := ""
  deriving Inhabited

namespace Source

def outputFile : String := "standard_json_output"

def command (part remap main allowPaths : String) : String :=
  "solc --combined-json " ++ part ++ " " ++ remap ++ " " ++ main ++
    (if allowPaths = "" then "" else " --allow-paths " ++ allowPaths)

def ask (line member : String) : Shell Document := do
  let d ← Shell.ofExcept (Document.read (← Shell.output line))
  Shell.ofExcept (d.get member)

def askOutput (member : String) : Shell Document := do
  let d ← Shell.ofExcept (Document.read (← Shell.readFile outputFile))
  Shell.ofExcept (d.get member)

def contracts (main kind remap allowPaths : String) : Shell Contracts :=
  match kind with
  | "solidity" => do
    let sources ← ask (command "ast" remap main allowPaths) "sources"
    Shell.ofExcept (Contracts.ofSources "AST" sources)
  | "standard json" => do
    let sources ← askOutput "sources"
    Shell.ofExcept (Contracts.ofSources "legacyAST" sources)
  | _ => throw .unknownInputKind

def fill (r : SourceRequest) : Work Unit := do
  Work.modifyLibrary fun l =>
    { l with remap := r.remap, allowPaths := r.allowPaths, main := r.main }
  let assembly ← match r.kind with
    | "solidity" =>
      Work.shell (ask (command "asm" r.remap r.main r.allowPaths) "contracts")
    | "standard json" => Work.shell (askOutput "contracts")
    | _ => throw .unknownInputKind
  Work.modifyLibrary fun l => { l with assembly }
  let contracts ← Work.shell (contracts r.main r.kind r.remap r.allowPaths)
  Work.modifyLibrary fun l => { l with contracts := some contracts }
  let hashes ← Work.shell (ask (command "hashes" r.remap r.main r.allowPaths) "contracts")
  Work.modifyLibrary fun l => { l with hashes }

def text (filename : String) : Work SourceText := do
  match (← get).library.texts.get? filename with
  | some t => return t
  | none =>
    let t := SourceText.ofContent (← Work.shell (Shell.readFile filename))
    Work.modifyLibrary fun l => { l with texts := l.texts.insert filename t }
    return t

def change (f : Document → Document) : List String → Document → Document
  | [], d => f d
  | name :: rest, .object members =>
    .object (members.map fun (n, d) => (n, if n = name then change f rest d else d))
  | _, d => d

def innerItems (piece : Document) : List Document :=
  match piece with
  | .object members =>
    match _h : Document.lookup ".data" members with
    | some (.object pieces) =>
      match _hp : Document.lookup "0" pieces with
      | some inner =>
        match inner.get? ".code" with
        | some (.array items) => .null :: items ++ innerItems inner
        | _ => [.null]
      | none => [.null]
    | _ => [.null]
  | _ => [.null]
termination_by sizeOf piece
decreasing_by
  have h1 := Document.sizeOf_lt_of_lookup _h
  have h2 := Document.sizeOf_lt_of_lookup _hp
  simp only [Document.object.sizeOf_spec] at *
  omega

def assemblyPath (contract kind : String) : Except Fault (List String) :=
  if kind = "solidity" then .ok [contract, "asm", ".data", "0"]
  else match Text.splitAt ':' contract with
    | [file, name] => .ok [file, name, "evm", "legacyAssembly", ".data", "0"]
    | _ => .error .wrongParts

/-- The items of a contract's assembly. The library keeps them in place of the items of the
outermost piece. -/
def positions (contract kind : String) : Work (List (Option SourceItem)) := do
  let path ← Work.ofExcept (assemblyPath contract kind)
  let assembly := (← get).library.assembly
  let piece ← Work.ofExcept (assembly.path path)
  let code ← Work.ofExcept (piece.get ".code")
  let items := code.items ++ innerItems piece
  Work.modifyLibrary fun l =>
    { l with assembly := change (fun _ => .array items) (path ++ [".code"]) assembly }
  return items.map SourceItem.ofEntry

def signatures (hashes : Document) (contract : String) : Except Fault (Table String String) := do
  match ← hashes.path [contract, "hashes"] with
  | .object members =>
    return Table.ofList (members.map fun (declaration, d) => (d.text?.getD "", declaration))
  | _ => throw .missingPart

def slicesAt (content : String) (places : List Document) : Except Fault (List String) :=
  places.mapM fun d =>
    match d with
    | .text src => do
      let (start, length) ← sourceRange src
      return Text.slice content start (start + length)
    | _ => .error .missingPart

end Source

def SourceMap.load (r : SourceRequest) : Work SourceMap := do
  if (← get).library.main = "" then Source.fill r
  let filename := ((Text.splitAt ':' r.contract).head?).getD ""
  let text ← Source.text filename
  let positions ← Source.positions r.contract r.kind
  let library := (← get).library
  match library.contracts with
  | none => throw .missingPart
  | some contracts =>
    let names ← Work.ofExcept (contracts.stateNames r.contract)
    let places ← Work.ofExcept (contracts.callPlaces r.contract)
    let callNames ← Work.ofExcept (Source.slicesAt text.content places)
    let callees ← Work.ofExcept (contracts.callees r.contract)
    let parameters ← Work.ofExcept (contracts.parameters r.contract)
    let signatures ← Work.ofExcept (Source.signatures library.hashes r.contract)
    return {
      contract := r.contract
      root := r.root
      text, positions, callNames
      varNames := names.map fun d => d.text?.getD ""
      callees := callees.map fun (name, src) => (name, src.text?.getD "")
      parameters := parameters.mapValues (Contracts.place 0)
      signatures }

end EvmAudit
