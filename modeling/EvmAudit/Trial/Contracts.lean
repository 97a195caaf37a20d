import EvmAudit.Document.Printed
import EvmAudit.Source.Contracts

/-! A trial of what is asked of contracts and of source maps, on a syntax tree of any size. -/

namespace EvmAudit.Trial

def folder : String := "<tmp>"

def sampleSource : String := folder ++ "/Demo.sol"

def node (name : String) (parts : List (String × Document)) : Document :=
  .object (("name", .text name) :: parts)

def children (ds : List Document) : String × Document := ("children", .array ds)

def attributes (ms : List (String × Document)) : String × Document := ("attributes", .object ms)

def ident (n : Nat) : String × Document := ("id", .int n)

def declaration (id : Nat) (name : String) (type : Document) : Document :=
  node "VariableDeclaration" [ident id, attributes [("name", .text name)], children [type]]

def functionAt (i : Nat) : Document :=
  let named (stem : String) : String := stem ++ toString i
  let place (step length : Nat) : String × Document :=
    ("src", .text (toString (step * i) ++ ":" ++ toString length ++ ":0"))
  let triple := node "ArrayTypeName" [children [node "Literal" [attributes [("value", .text "3")]]]]
  let parameters := node "ParameterList" [ident (100 + i), children
    [declaration (200 + i) (named "a") (node "ElementaryTypeName" []),
      declaration (300 + i) (named "b") triple,
      declaration (350 + i) (named "c") (node "UserDefinedTypeName" [])]]
  let callee := node "Identifier" [attributes [("type", .text "contract Callee")]]
  let body := node "Block" [ident (400 + i), children
    [node "FunctionCall" [ident (500 + i), place 10 5, children []],
      node "MemberAccess" [ident (600 + i), place 20 4,
        attributes [("member_name", .text "delegatecall")], children [callee]]]]
  node "FunctionDefinition" [ident (700 + i), attributes [("name", .text (named "f"))],
    children [parameters, body]]

def contractNode (id : Nat) (name : String) (parts : List Document) : Document :=
  node "ContractDefinition" [ident id,
    attributes [("name", .text name), ("linearizedBaseContracts", .ofInts [id])], children parts]

def tree (functions states : Nat) : Document :=
  let declared := (List.range states).map fun j =>
    declaration (800 + j) ("s" ++ toString j) (node "ElementaryTypeName" [])
  node "SourceUnit" [ident 0, children
    [contractNode 1 "Demo" (declared ++ (List.range functions).map functionAt),
      contractNode 2 "Callee" []]]

def sampleText : SourceText :=
  .ofContent "// fake solidity\ncontract Demo \x7b\n  uint s0;\n\x7d\n"

def shortened (s : String) : Document := .text (Text.slice s 0 80)

def printedTable (t : Table String (List Document)) : String :=
  (Document.object (t.entries.map fun (name, ds) => (name, .array ds))).printed

def contracts (n : Nat) : Except Fault (List Document) := do
  let c ← Contracts.ofSources "AST" (.object [(sampleSource, .object [("AST", tree n n)])])
  let name := sampleSource ++ ":Demo"
  let names ← c.stateNames name
  let places ← c.callPlaces name
  let callees ← c.callees name
  let parameters ← c.parameters name
  let m : SourceMap :=
    { contract := name, root := "", text := sampleText, positions := []
      items := Table.ofList [(0, .ofRange 20 29)]
      varNames := names.map Document.string, callNames := places.map Document.string
      callees := callees.map fun (callee, place) => (callee, place.string)
      parameters, signatures := {} }
  let known (text : String) : Document :=
    .text ((SourceMap.knownName? m.varNames text).getD "None")
  return [shortened (Document.array names).printed, shortened (Document.array places).printed,
    shortened ("[" ++ ", ".intercalate (callees.map fun (callee, place) =>
      Document.printedTuple [.text callee, place]) ++ "]"),
    shortened (Document.object (parameters.entries.map fun (name, ps) =>
      (name, .array (ps.map Parameter.document)))).printed,
    shortened (printedTable (← c.allStateVariables)), shortened (printedTable (← c.allCalls)),
    .text (Document.printedTuple [.int m.varNames.length, .int m.callNames.length]),
    .text (← m.sourceCode 0), .text (← m.sourceCode 99), .text (← m.sourceCodeAt "0:5:0"),
    .text (← m.faultyLine 0), .text (← m.faultyLine 99), .text (← m.faultyLineAt "20:5:0"),
    .text (← m.location 0).document.printed, .text (← m.locationAt "20:5:0").document.printed,
    known "s0", known "unknown", .text m.filename]

end EvmAudit.Trial
