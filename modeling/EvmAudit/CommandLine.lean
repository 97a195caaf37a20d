import EvmAudit.Audit.Run
import EvmAudit.Input
import EvmAudit.Options.Help
import EvmAudit.Version

/-! The whole program: options are read, the tools it needs are looked for, what is given is
prepared, each contract is audited, and the outcome is an exit code. -/

namespace EvmAudit

namespace CommandLine

def versionText : String := "oyente version 0.2.7 - Commonwealth"

def orGiven (n : Int) (given : Option Int) : Int :=
  match given with
  | some m => if m = 0 then n else m
  | none => n

def flag (b : Bool) : Int := if b then 1 else 0

/-- The settings that the options ask for. A page may only shorten the time of a run. -/
def settingsOf (o : Options) (s : Settings) : Settings :=
  { s with
    timeout := orGiven s.timeout o.timeout
    printPaths := flag o.paths
    reportMode := flag o.report
    useGlobalBlockchain := flag o.globalBlockchain
    inputState := flag o.state
    web := flag o.web
    storeResult := flag o.json
    checkAssertions := flag o.assertion
    debugMode := flag o.debug
    generateTestCases := flag o.generateTestCases
    parallel := flag o.parallel
    depthLimit := orGiven s.depthLimit o.depthLimit
    gasLimit := orGiven s.gasLimit o.gasLimit
    loopLimit := orGiven s.loopLimit o.loopLimit
    globalTimeout :=
      let asked := orGiven s.globalTimeout o.globalTimeout
      if o.web && s.globalTimeout ≤ asked then s.globalTimeout else asked }

/-! ### Tools -/

/-- The version of the solver that this library stands for, and the one that was tested. -/
def solverVersion : String := "4.8.15"

def testedSolver : String := "4.5.1"

def compareTool (version tested warning : String) : Work Unit := do
  if (← Work.ofExcept (Version.compareTexts version tested)) = .gt then
    Work.shell (Shell.say .warning warning)

def toolVersion (command pattern : String) : Work String := do
  let output := Text.trim (← Work.shell (Shell.output command))
  let found := (← Work.ofExcept (Regex.read pattern)).findAll output
  match found with
  | (version :: _) :: _ => return version
  | _ => throw .missingItem

def hasListingTool : Work Bool := do
  if !(← Work.shell (Shell.hasTool "evm")) then
    Work.shell (Shell.say .critical
      "Please install evm from go-ethereum and make sure it is in the path.")
    return false
  let version ← toolVersion "evm --version" "evm version (\\d*.\\d*.\\d*)"
  compareTool version "1.7.3"
    ("You are using evm version " ++ version ++ ". The supported version is 1.7.3")
  return true

def hasCompiler : Work Bool := do
  if !(← Work.shell (Shell.hasTool "solc")) then
    Work.shell (Shell.say .critical
      "solc is missing. Please install the solidity compiler and make sure solc is in the path.")
    return false
  let version ← toolVersion "solc --version" "Version: (\\d*.\\d*.\\d*)"
  compareTool version "0.4.19"
    ("You are using solc version " ++ version ++ ", The latest supported version is 0.4.19")
  return true

def hasTools : Work Bool := do
  compareTool solverVersion testedSolver
    ("You are using an untested version of z3. " ++ testedSolver ++
      " is the officially tested version")
  if ← hasListingTool then hasCompiler else return false

/-! ### Audits -/

def jobOf (s : Session) (prepared : Prepared) : Except Fault Job := do
  let listing ← (s.workspace.textOf? prepared.listing).elim (.error .noSuchFile) .ok
  let target := Text.slice prepared.listing 0 (-7)
  return {
    ctx :=
      { settings := s.settings
        source := prepared.contract.map PreparedContract.map
        code := s.workspace.textOf? target
        account := s.workspace.textOf? "state.json" }
    name := prepared.listing
    listing
    others := s.workspace.files.keys.map fun path => (path, (s.workspace.textOf? path).getD "") }

def settle (name : String) (p : Progress) (w : Workspace) : Workspace :=
  let shared := p.machine.shared
  { w with
    files := p.written.entries.foldl (fun t (path, text) => t.insert path text)
      (w.files.insert name p.listing)
    log := shared.log ++ w.log
    requests := w.requests ++ shared.requests }

/-- Audits a contract: its results and whether something was found. Findings of the contract before
stay until a detector replaces them. -/
def audit (before : Findings) (prepared : Prepared) : Work (Document × Bool × Findings) := do
  let job ← Work.ofExcept (jobOf (← get) prepared)
  let (answer, p) := (Audit.run job).perform { job.start with findings := before }
  modify fun s => { s with workspace := settle prepared.listing p s.workspace }
  match ← Work.ofExcept answer with
  | some found => return (Audit.resultsOf p, found, p.findings)
  | none => throw .unsupportedOperand

def addResult (results : Document) (c : PreparedContract) (result : Document) : Document :=
  let inner := match results.get? c.file with
    | some (.object members) => Document.put c.name result members
    | _ => [(c.name, result)]
  .object (Document.put c.file (.object inner) results.members)

def auditAll (results : Document) (found : Bool) (before : Findings) :
    List Prepared → Work (Document × Bool)
  | [] => return (results, found)
  | prepared :: rest => do
    match prepared.contract with
    | none => throw .missingKey
    | some c =>
      Work.shell (Shell.say .info ("contract " ++ c.fullName ++ ":"))
      let (result, here, findings) ← audit before prepared
      auditAll (addResult results c result) (found || here) findings rest

def publish (results : Document) : Work Unit := do
  if on (← get).settings.web then Work.shell (Shell.print results.line)

def auditCode (i : Input) : Work Bool := do
  match ← i.prepare with
  | [] => throw .missingItem
  | prepared :: _ =>
    let (result, found, _) ← audit {} prepared
    i.cleanUp
    publish result
    return found

def auditSources (i : Input) : Work Bool := do
  let (results, found) ← auditAll (.object []) false {} (← i.prepare)
  i.cleanUp
  publish results
  return found

/-! ### The run -/

def rootOf (o : Options) : String :=
  match o.rootPath with
  | none => ""
  | some root => if root = "" || Text.endsWith root "/" then root else root ++ "/"

def inputOf (o : Options) (source : String) : Input :=
  let allowPaths := o.allowPaths.getD ""
  if o.bytecode then { kind := .bytecode, source, keepsCode := o.evm }
  else if o.standardJson then { kind := .standardJson, source, keepsCode := o.evm, allowPaths }
  else if o.standardJsonOutput then { kind := .standardJsonOutput, source, keepsCode := o.evm }
  else
    { kind := .solidity, source, keepsCode := o.evm, showsErrors := o.compilationError
      root := rootOf o, remap := o.remap.getD "", allowPaths }

/-- The source, fetched first if its address is given. An empty address counts as none. -/
def sourceOf (o : Options) : Work String := do
  match o.remoteUrl with
  | none | some "" => o.source.elim (throw (.missingInput "source")) pure
  | some url =>
    let content ← Work.shell (Shell.fetch url)
    let file := if o.bytecode then "remote_contract.evm" else "remote_contract.sol"
    Work.shell (Shell.writeFile file content)
    return file

def run (words : List String) : Work Unit := do
  match Options.read words with
  | .error .misuse => throw (.exit (some 2))
  | .error .help =>
    Work.shell (Shell.print Options.help)
    throw (.exit (some 0))
  | .error .version =>
    Work.shell (Shell.print versionText)
    throw (.exit (some 0))
  | .ok o =>
    modify fun s => { s with settings := settingsOf o s.settings }
    if !(← hasTools) then return ()
    let i := inputOf o (← sourceOf o)
    let found ← match i.kind with
      | .bytecode => auditCode i
      | _ => auditSources i
    throw (.exit (some (flag found)))

end CommandLine

end EvmAudit
