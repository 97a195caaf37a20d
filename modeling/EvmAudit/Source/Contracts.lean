import EvmAudit.Source.Map
import EvmAudit.Source.Tree

/-! The contracts that syntax trees define: their state variables, calls, callees and parameters. -/

namespace EvmAudit

namespace Document

def elements : Document → Except Fault (List Document)
  | .array items => .ok items
  | .object members => .ok (members.map fun m => .text m.1)
  | .text s => .ok (s.toList.map fun c => .text (String.singleton c))
  | _ => .error .unsupportedOperand

def isKey : Document → Bool
  | .array _ | .object _ => false
  | _ => true

def asText (d : Document) : Except Fault String :=
  match d with
  | .text s => .ok s
  | _ => .error .unsupportedOperand

def asInteger : Document → Except Fault Int
  | .int n => .ok n
  | .bool b => .ok (if b then 1 else 0)
  | .text s => (Numeral.read 10 s).elim (.error .badNumeral) .ok
  | .double x =>
    match x with
    | .finite s m e =>
      let r := Double.toRat (.finite s m e)
      .ok (r.num.tdiv r.den)
    | .infinite _ => .error .outOfRange
    | .nan => .error .badNumeral
  | _ => .error .unsupportedOperand

end Document

abbrev Keyed (α : Type) := List (Document × α)

namespace Keyed

variable {α : Type}

def find? (key : Document) : Keyed α → Option α
  | [] => none
  | (k, a) :: rest => if k.same key then some a else find? key rest

def put (key : Document) (a : α) : Keyed α → Keyed α
  | [] => [(key, a)]
  | (k, b) :: rest => if k.same key then (k, a) :: rest else (k, b) :: put key a rest

def get (entries : Keyed α) (key : Document) : Except Fault α :=
  if !key.isKey then .error .unsupportedOperand
  else match entries.find? key with
    | some a => .ok a
    | none => .error .missingKey

end Keyed

structure Contracts where
  byId : Keyed Document := []
  byName : Table String Document := {}
  /-- The source of each contract. -/
  sources : Keyed String := []
  deriving Inhabited

namespace Contracts

def add (source : String) (c : Contracts) (node : Document) : Except Fault Contracts := do
  let id ← node.get "id"
  if !id.isKey then throw .unsupportedOperand
  let name ← (← node.path ["attributes", "name"]).asText
  return {
    byId := c.byId.put id node
    sources := c.sources.put id source
    byName := c.byName.insert (source ++ ":" ++ name) node }

def ofSources (tree : String) (sources : Document) : Except Fault Contracts :=
  match sources with
  | .object members =>
    members.foldlM
      (fun c (source, d) => do
        let found ← Pattern.search (.object [("name", .text "ContractDefinition")]) (← d.get tree)
        found.foldlM (add source) c) {}
  | d => do
    if (← d.elements).isEmpty then return {} else throw .unsupportedOperand

def get (c : Contracts) (name : String) : Except Fault Document :=
  (c.byName.get? name).elim (.error .missingKey) .ok

def bases (c : Contracts) (id : Document) : Except Fault (List Document) := do
  let ids ← (← c.byId.get id).path ["attributes", "linearizedBaseContracts"]
  (← ids.elements).mapM c.byId.get

def nodesBelow (node : Document) : Except Fault (List Document) := do
  if ← node.has "children" then (← node.get "children").elements else return []

def stateVariables (c : Contracts) (name : String) : Except Fault (List Document) := do
  let node ← c.get name
  let bases ← c.bases (← node.get "id")
  let found ← bases.reverse.mapM fun contract => do
    (← nodesBelow contract).filterM fun item => do
      return (← item.get "name").same (.text "VariableDeclaration")
  return found.flatten

def fullNames (c : Contracts) : Except Fault (List String) :=
  c.byId.mapM fun (id, node) => do
    let name ← (← node.path ["attributes", "name"]).asText
    return (← c.sources.get id) ++ ":" ++ name

/-- What a question gives for each contract. A failure for one is a failure for all. -/
def forAll {α : Type} (c : Contracts) (ask : String → Except Fault α) :
    Except Fault (Table String α) := do
  let rows ← (← c.fullNames).mapM fun name => do return (name, ← ask name)
  return Table.ofList rows

def allStateVariables (c : Contracts) : Except Fault (Table String (List Document)) :=
  c.forAll c.stateVariables

def calls (c : Contracts) (name : String) : Except Fault (List Document) := do
  Pattern.search (.object [("name", .text "FunctionCall")]) (← c.get name)

def allCalls (c : Contracts) : Except Fault (Table String (List Document)) := c.forAll c.calls

def entryOf {α : Type} (name : String) (table : Table String α) : Except Fault α :=
  (table.get? name).elim (.error .missingKey) .ok

def stateNames (c : Contracts) (name : String) : Except Fault (List Document) := do
  (← entryOf name (← c.allStateVariables)).mapM fun node => node.path ["attributes", "name"]

def callPlaces (c : Contracts) (name : String) : Except Fault (List Document) := do
  (← entryOf name (← c.allCalls)).mapM fun node => node.get "src"

def callMembers : Pattern :=
  .array (["delegatecall", "call", "callcode"].map fun name =>
    .object [("attributes", .object [("member_name", .text name)])])

def fullName (c : Contracts) (name : String) : String :=
  (c.byName.keys.find? fun path => (Text.splitAt ':' path).getLast? = some name).getD ""

def callee? (c : Contracts) (node : Document) : Except Fault (Option (String × Document)) := do
  if !(← node.has "children") then return none
  let children ← node.get "children"
  if !children.isTruthy then return none
  let first ← match children with
    | .array (first :: _) => pure first
    | .object _ => throw .missingKey
    | _ => throw .unsupportedOperand
  match ← first.path ["attributes", "type"] with
  | .text kind =>
    match Text.splitAt ' ' kind with
    | "contract" :: rest =>
      match rest with
      | [] => throw .missingItem
      | name :: _ => return some (c.fullName name, ← node.get "src")
    | _ => return none
  | _ => throw .missingPart

def callees (c : Contracts) (name : String) : Except Fault (List (String × Document)) := do
  let found ← Pattern.search callMembers (← c.get name)
  return (← found.mapM c.callee?).filterMap id

def parameter (node : Document) : Except Fault Parameter := do
  let name ← node.path ["attributes", "name"]
  let type ← match ← node.get "children" with
    | .array (first :: _) => first.get "name"
    | .array [] => throw .missingItem
    | .object _ => throw .missingKey
    | _ => throw .unsupportedOperand
  let kind := type.text?.getD ""
  if kind = "ArrayTypeName" then
    let literals ← Pattern.search (.object [("name", .text "Literal")]) node
    let size ← match literals with
      | literal :: _ => (← literal.path ["attributes", "value"]).asInteger
      | [] => pure 1
    return { name := name.text?.getD "", kind, size := some size }
  else return { name := name.text?.getD "", kind, size := none }

def parametersOf (node : Document) : Except Fault (List Parameter) := do
  match ← Pattern.search (.object [("name", .text "ParameterList")]) node with
  | [] => throw .missingItem
  | list :: _ =>
    (← Pattern.search (.object [("name", .text "VariableDeclaration")]) list).mapM parameter

/-- The parameters of the functions that have some; functions of one name share a list. -/
def parameters (c : Contracts) (name : String) : Except Fault (Table String (List Parameter)) := do
  let functions ← Pattern.search (.object [("name", .text "FunctionDefinition")]) (← c.get name)
  functions.foldlM
    (fun table node => do
      let function := (← node.path ["attributes", "name"]).text?.getD ""
      match ← parametersOf node with
      | [] => return table
      | more => return table.insert function ((table.get? function).getD [] ++ more)) {}

def width (p : Parameter) : Int := p.size.getD 1

def place (start : Int) : List Parameter → List Parameter
  | [] => []
  | p :: rest => { p with position := some start } :: place (start + width p) rest

end Contracts

end EvmAudit
