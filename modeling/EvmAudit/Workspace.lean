import EvmAudit.Document.Writer
import EvmAudit.Log
import EvmAudit.Table
import EvmAudit.Text.Command

/-! The surroundings of a run: files, programs that can be started, sites that can be asked, and a
record of what was done with them. -/

namespace EvmAudit

structure Program where
  start : String
  output : String
  errors : String := ""
  deriving DecidableEq, Repr, Inhabited

structure Workspace where
  files : Table String String := {}
  folders : List String := []
  programs : List Program := []
  /-- Tools that are installed. -/
  tools : List String := []
  /-- Replies to requests whose address holds a text. -/
  replies : List (String × String) := []
  /-- Command lines so far. -/
  started : List String := []
  requests : List String := []
  /-- Commands handed to the system's own shell, which answers none of them. -/
  system : List String := []
  printed : String := ""
  /-- Records of the run, the last one first. -/
  log : List LogLine := []
  deriving Inhabited

/-- Computations in surroundings. What was done before a failure stays done. -/
abbrev Shell := ExceptT Fault (StateM Workspace)

def folderOf (path : String) : String :=
  match path.toList.reverse.dropWhile (· ≠ '/') with
  | [] => ""
  | _ :: rest => String.ofList rest.reverse

def foldersAbove : List Char → List String
  | [] => []
  | c :: rest =>
    if c = '/' then String.ofList rest.reverse :: foldersAbove rest else foldersAbove rest

namespace Workspace

def ofFiles (files : List (String × String)) : Workspace where
  files := Table.ofList files
  folders := files.flatMap fun (path, _) => foldersAbove path.toList.reverse

def plainText : Document → String
  | .text s => s
  | d => d.line

def pairsOf (d : Document) : List (String × String) :=
  d.items.filterMap fun row =>
    match row.items with
    | name :: body :: _ => some (plainText name, plainText body)
    | _ => none

/-- Surroundings as a document describes them: files, commands with their output, tools, and
replies of the web. -/
def ofDocument (d : Document) : Workspace :=
  let part (name : String) : Document := (d.get? name).getD .null
  { ofFiles ((part "files").members.map fun (name, content) => (name, plainText content)) with
    programs := (part "commands").items.filterMap fun row =>
      match row.items with
      | [start, output] => some ⟨plainText start, plainText output, ""⟩
      | start :: output :: errors :: _ =>
        some ⟨plainText start, plainText output, plainText errors⟩
      | _ => none
    tools := (part "tools").items.map plainText
    replies := pairsOf (part "web") }

def list (w : Workspace) : List String :=
  w.files.keys.mergeSort (fun a b => decide (a ≤ b))

def textOf? (w : Workspace) (path : String) : Option String :=
  (w.files.get? path).map fun s => String.ofList (Text.unifyBreaks s.toList)

end Workspace

namespace Shell

def ofExcept {α : Type} (x : Except Fault α) : Shell α := ExceptT.mk (pure x)

def perform {α : Type} (x : Shell α) (w : Workspace) : Except Fault α × Workspace :=
  StateT.run (ExceptT.run x) w

def say (level : Level) (text : String) : Shell Unit :=
  modify fun w => { w with log := ⟨level, text⟩ :: w.log }

def print (text : String) : Shell Unit :=
  modify fun w => { w with printed := w.printed ++ text ++ "\n" }

def readFile (path : String) : Shell String := do
  let w ← get
  match w.textOf? path with
  | some content => return content
  | none => throw (if w.folders.contains path then .isFolder else .noSuchFile)

def writeFile (path content : String) : Shell Unit := do
  let w ← get
  let folder := folderOf path
  if w.folders.contains path then throw .isFolder
  if path = "" || (folder ≠ "" && !w.folders.contains folder) then throw .noSuchFile
  set { w with files := w.files.insert path content }

def removeFile (path : String) : Shell Unit :=
  modify fun w => { w with files := w.files.erase path }

def start (words : List String) : Shell (String × String) := do
  if words.isEmpty then throw .missingItem
  let line := " ".intercalate words
  modify fun w => { w with started := w.started ++ [line] }
  match (← get).programs.find? fun p => Text.startsWith line p.start with
  | some p => return (p.output, p.errors)
  | none => throw .noSuchFile

def run (line : String) : Shell (String × String) := do
  start (← ofExcept (Command.words line))

def output (line : String) : Shell String := do return (← run line).1

def hasTool (name : String) : Shell Bool := do
  modify fun w => { w with started := w.started ++ ["type " ++ name] }
  return (← get).tools.contains name

def fetch (url : String) : Shell String := do
  modify fun w => { w with requests := w.requests ++ [url] }
  match (← get).replies.find? fun (part, _) => Text.contains part url with
  | some (_, body) => return body
  | none => throw .unreachable

def tell (command : String) : Shell Unit :=
  modify fun w => { w with system := w.system ++ [command] }

end Shell

end EvmAudit
