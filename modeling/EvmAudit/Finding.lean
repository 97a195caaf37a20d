import EvmAudit.Source.Map
import EvmAudit.Text.Regex

/-! What a detector reports: whether it found something, and with a source map a warning for each
place that it found. -/

namespace EvmAudit

/-- The warnings of a finding. Without a source map there are none to give. -/
inductive Details where
  | unavailable
  | warnings (texts : List String)
  | flows (texts : List (List String))
  deriving DecidableEq, Repr, Inhabited

structure Finding where
  vulnerable : Bool
  details : Details
  /-- The program counters that are left after places without source and repetitions are gone. -/
  pcs : List Int := []
  deriving DecidableEq, Repr, Inhabited

structure Failure where
  pc : Int
  model : List (String × String) := []
  deriving DecidableEq, Repr, Inhabited

namespace Finding

def leadingSpaces (line : String) : String :=
  String.ofList (line.toList.takeWhile fun c => c == ' ' || c == '\t' || c == '[' || c == ']')

def sourceName (m : SourceMap) : Except Fault String := do
  return (← Regex.read m.root).removeAll m.filename

def excerpt (code : String) : String :=
  match Text.splitAt '\n' code with
  | line :: _ :: _ => line ++ "\n" ++ leadingSpaces line ++ "^\nSpanning multiple lines."
  | _ => code

def warning (m : SourceMap) (title : Option String) (place : Span) (code : String) :
    Except Fault String := do
  let name ← sourceName m
  match place.start, title with
  | none, _ => throw .unsupportedOperand
  | _, none => throw .missingPart
  | some start, some title =>
    return name ++ ":" ++ toString (start.line + 1) ++ ":" ++ toString (start.column + 1) ++
      ": Warning: " ++ title ++ ".\n" ++ excerpt code

def distinctPlaces (m : SourceMap) (pcs : List Int) : Except Fault (List Int) := do
  let present ← pcs.filterM fun pc => do return (← m.sourceCode pc) ≠ ""
  let places : Table String Int := present.foldl
    (fun t pc =>
      let written := ((m.items.get? pc).map SourceItem.written).getD ""
      if t.contains written then t else t.insert written pc) {}
  return places.values

def warningAt (m : SourceMap) (title : Option String) (pc : Int) : Except Fault String := do
  let code ← m.faultyLine pc
  warning m title (← m.location pc) code

def warningsAt (m : SourceMap) (title : Option String) (pcs : List Int) :
    Except Fault (List String) := do
  let present ← pcs.filterM fun pc => do return (← m.sourceCode pc) ≠ ""
  present.mapM (warningAt m title)

def atPcs (m : Option SourceMap) (title : Option String) (pcs : List Int) : Except Fault Finding :=
  match m with
  | none => .ok ⟨!pcs.isEmpty, .unavailable, pcs⟩
  | some m => do
    let pcs ← distinctPlaces m pcs
    return ⟨!pcs.isEmpty, .warnings (← warningsAt m title pcs), pcs⟩

/-- Calls whose result is not looked at, without those that are known not to affect the state. -/
def callstack (m : Option SourceMap) (pcs : List Int) (affected : Table Int Bool) :
    Except Fault Finding := do
  let pcs ← match m with
    | none => pure pcs
    | some m => distinctPlaces m pcs
  let pcs := pcs.filter fun pc => (affected.get? pc).getD true
  match m with
  | none => return ⟨!pcs.isEmpty, .unavailable, pcs⟩
  | some m =>
    let texts ← warningsAt m (some "Callstack Depth Attack Vulnerability") pcs
    return ⟨!pcs.isEmpty, .warnings texts, pcs⟩

def timeDependency (m : Option SourceMap) (pcs : List Int) : Except Fault Finding :=
  atPcs m (some "Timestamp Dependency") pcs

def reentrancy (m : Option SourceMap) (pcs : List Int) : Except Fault Finding :=
  atPcs m (some "Re-Entrancy Vulnerability") pcs

/-- Transfers whose order matters, given by the program counters of each list of transfers. -/
def concurrency (m : Option SourceMap) (flows : List (List Int)) : Except Fault Finding :=
  match m with
  | none => .ok ⟨!flows.isEmpty, .unavailable, []⟩
  | some m => do
    let texts ← flows.mapM fun pcs => do
      warningsAt m (some "Transaction-Ordering Dependency") (← distinctPlaces m pcs)
    return ⟨!flows.isEmpty, .flows texts, []⟩

def distinctFailures (m : SourceMap) (failures : List Failure) : Except Fault (List Failure) := do
  let places ← failures.foldlM
    (fun (t : Table String Failure) failure =>
      match m.items.get? failure.pc with
      | none => .error .missingKey
      | some item =>
        .ok (if t.contains item.written then t else t.insert item.written failure)) {}
  return places.values

/-- The name of a variable in the source, for those that hold a storage word. -/
def plainName (name : String) : String := ((Text.splitAt '-' name)[2]?).getD name

/-- The case in which an assertion fails, for the variables that the source knows. -/
def caseText (m : SourceMap) (title : String) (model : List (String × String)) : String :=
  let rows := model.filterMap fun (name, value) =>
    let name := plainName name
    (SourceMap.knownName? m.varNames name).map fun _ => "\n    " ++ name ++ " = " ++ value
  if rows.isEmpty then "" else "\n" ++ title ++ " occurs if:" ++ String.join rows

def failures (m : Option SourceMap) (title : String) (fs : List Failure) : Except Fault Finding :=
  match m, fs with
  | none, [] => .ok ⟨false, .warnings [], []⟩
  | none, _ :: _ => .error .missingPart
  | some m, fs => do
    let fs ← distinctFailures m fs
    let texts ← fs.mapM fun f => do
      return (← warningAt m (some title) f.pc) ++ caseText m title f.model
    return ⟨!fs.isEmpty, .warnings texts, []⟩

def underflow (m : Option SourceMap) (fs : List Failure) : Except Fault Finding :=
  failures m "Integer Underflow" fs

def overflow (m : Option SourceMap) (fs : List Failure) : Except Fault Finding :=
  failures m "Integer Overflow" fs

def assertion (m : Option SourceMap) (fs : List Failure) : Except Fault Finding :=
  failures m "Assertion Failure" fs

def canDestroy (listing : String) : Bool :=
  Text.contains "SELFDESTRUCT" listing || Text.contains "SUICIDE" listing

/-- Calls of contracts that can destroy themselves, found in the listings of the contracts. -/
def destructibleCallees (m : SourceMap) (listing? : String → Option String) :
    Except Fault Finding := do
  let found ← m.callees.filterM fun (contract, _) =>
    match listing? (contract ++ ".evm.disasm") with
    | none => throw .noSuchFile
    | some listing => return canDestroy listing
  let texts ← found.mapM fun (_, src) => do
    let code ← m.faultyLineAt src
    warning m (some "Parity Multisig Bug 2") (← m.locationAt src) code
  return ⟨!found.isEmpty, .warnings texts, []⟩

def document (f : Finding) : Except Fault Document :=
  match f.details with
  | .unavailable => .error .missingPart
  | .warnings texts => .ok (.array (texts.map .text))
  | .flows texts => .ok (.array (texts.map fun ws => .array (ws.map .text)))

def numbered (i : Nat) : List (List String) → List String
  | [] => []
  | ws :: rest =>
    ("Flow" ++ toString (i + 1) ++ String.join (ws.map ("\n" ++ ·))) :: numbered (i + 1) rest

def text (f : Finding) : Except Fault String :=
  match f.details with
  | .unavailable => .error .missingPart
  | .warnings texts => .ok (Text.stripStart (· == '\n') (String.join (texts.map ("\n" ++ ·))))
  | .flows texts => .ok ("\n".intercalate (numbered 0 texts))

end Finding

end EvmAudit
