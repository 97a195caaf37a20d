import EvmAudit.Explore
import EvmAudit.Finding
import EvmAudit.Graph.Build

/-! An audit of one contract: what it is given, and what it has come to so far. -/

namespace EvmAudit

structure Job where
  ctx : Context := {}
  /-- The file that holds the listing. -/
  name : String
  listing : String
  /-- Listings of other contracts, by file. -/
  others : List (String × String) := []
  deriving Inhabited

structure Findings where
  callstack : Option Finding := none
  concurrency : Option Finding := none
  timeDependency : Option Finding := none
  reentrancy : Option Finding := none
  underflow : Option Finding := none
  overflow : Option Finding := none
  assertion : Option Finding := none
  destructible : Option Finding := none
  deriving Inhabited

structure Progress where
  machine : Machine := {}
  /-- The source map, with the items of the instructions once the listing is read. -/
  source : Option SourceMap := none
  /-- The text that the listing's file holds now. -/
  listing : String := ""
  coverage : String := ""
  /-- The results so far, by name. -/
  results : Table String Document := {}
  findings : Findings := {}
  /-- Files written. -/
  written : Table String String := {}
  deriving Inhabited

abbrev Audit := ExceptT Fault (StateM Progress)

namespace Audit

def ofExcept {α : Type} (x : Except Fault α) : Audit α := ExceptT.mk (pure x)

def exec {α : Type} (x : Exec α) : Audit α :=
  ExceptT.mk do
    let (answer, machine) := x.run.run (← get).machine
    modify fun p => { p with machine }
    return answer

def perform {α : Type} (x : Audit α) (p : Progress) : Except Fault α × Progress :=
  StateT.run (ExceptT.run x) p

def say (text : String) : Audit Unit := exec (Exec.say .info text)

def shared : Audit Shared := do return (← get).machine.shared

def setResult (name : String) (d : Document) : Audit Unit :=
  modify fun p => { p with results := p.results.insert name d }

def modifyFindings (f : Findings → Findings) : Audit Unit :=
  modify fun p => { p with findings := f p.findings }

def writeFile (name content : String) : Audit Unit :=
  modify fun p => { p with written := p.written.insert name content }

/-- What is reported when nothing was found: texts with a source map, truth values without. -/
def emptyResults (withSource : Bool) : Table String Document :=
  let nothing : Document := if withSource then .array [] else .bool false
  let common := [("integer_underflow", .array []), ("integer_overflow", .array []),
    ("callstack", nothing), ("money_concurrency", nothing), ("time_dependency", nothing),
    ("reentrancy", nothing)]
  Table.ofList (if withSource then
    common ++ [("assertion_failure", .array []), ("parity_multisig_bug_2", .array [])]
  else common)

def resultsOf (p : Progress) : Document :=
  .object [("evm_code_coverage", .text p.coverage),
    ("vulnerabilities", .object p.results.entries)]

end Audit

def Job.start (job : Job) : Progress where
  source := job.ctx.source
  listing := job.listing
  results := Audit.emptyResults job.ctx.source.isSome

end EvmAudit
