import EvmAudit.Audit.Detect

/-! A whole audit: the listing is read, its paths are explored, the detectors look at them, and the
results are given. -/

namespace EvmAudit

namespace Audit

def build (items : Option (List (Option SourceItem))) : Audit Unit := do
  let b := Build.ofListing items (← get).listing
  modify fun p =>
    { p with
      listing := b.text.getD p.listing
      source := p.source.map fun m =>
        { m with items := b.items.entries.foldl (fun t (k, v) => t.insert k v) m.items } }
  exec (Exec.modifyShared fun s => { s with graph := b.graph, log := b.log.reverse ++ s.log })
  if let some cause := b.cause then throw cause

def prepare (job : Job) : Audit Unit := do
  if on job.ctx.settings.useGlobalBlockchain then throw .unsupportedOperand
  if on job.ctx.settings.reportMode then writeFile (job.name ++ ".report") ""

def explore (job : Job) : Audit Unit := do
  prepare job
  build ((← get).source.map SourceMap.positions)
  let p ← get
  exec (Exec.exploreAll
    { job.ctx with
      source := p.source
      tracksSize := job.ctx.tracksSize || mentionsSize job.listing })

def exploreInTime (job : Job) (late : Audit Unit) : Audit Unit :=
  tryCatch (explore job) fun cause => do
    match cause with
    | .deadline =>
      exec (Exec.modifyShared fun s => { s with timedOut := true })
      late
    | cause => throw cause

def resultFile (name : String) : String :=
  ((Text.splitOn ".evm.disasm" name).head?).getD "" ++ ".json"

def finish (job : Job) : Audit Unit := do
  say "\t====== Analysis Completed ======"
  if on job.ctx.settings.storeResult then
    let file := resultFile job.name
    writeFile file ((resultsOf (← get)).write (.indented 1))
    say ("Wrote results to " ++ file ++ ".")

def runTest (job : Job) : Audit Unit :=
  exploreInTime job (throw (.exit (some ExitCode.failure)))

/-- Runs an audit and tells whether something was found. Recorded tests have no results. -/
def run (job : Job) : Audit (Option Bool) := do
  let settings := job.ctx.settings
  if settings.unitTest ≠ 0 then
    runTest job
    return none
  say "\t============ Results ==========="
  exploreInTime job (pure ())
  if (← shared).graph.instructions.isEmpty then sayNothing settings else detectAll job
  let found ← anyFound job.ctx
  finish job
  return some found

inductive Repetition where
  | underflow | overflow | destructible | callstack | concurrency | timeDependency | reentrancy
  | assertion | warnings | anyFound | finish

def again (job : Job) : Repetition → Audit (Option Bool)
  | .underflow => do detectUnderflow; return none
  | .overflow => do detectOverflow; return none
  | .destructible => do detectDestructible job; return none
  | .callstack => do detectCallstack; return none
  | .concurrency => do detectConcurrency job.ctx; return none
  | .timeDependency => do detectTimeDependency job; return none
  | .reentrancy => do detectReentrancy; return none
  | .assertion => do detectAssertion; return none
  | .warnings => do sayWarnings job.ctx; return none
  | .anyFound => do return some (← anyFound job.ctx)
  | .finish => do finish job; return none

end Audit

structure Recipients where
  addresses : List (Option String)
  coverage : Double
  timedOut : Bool

def Audit.recipients (job : Job) (visited total : Nat) : Audit Recipients := do
  if total = 0 then throw .divisionByZero
  Audit.exec (Exec.modifyShared fun s => { s with recipients := some [] })
  let coverage := (Double.ofQuotient? visited total).getD (Double.zero false)
  Audit.exploreInTime job (pure ())
  let s ← Audit.shared
  return ⟨s.recipients.getD [], coverage, s.timedOut⟩

end EvmAudit
