import EvmAudit.Audit.Basic
import EvmAudit.Callstack
import EvmAudit.Concurrency

/-! The detectors. Each one looks at what the exploration recorded, enters its result and says what
it found. -/

namespace EvmAudit.Audit

def truthText (b : Bool) : String := if b then "True" else "False"

/-- The result of a finding: its warnings with a source map, else whether it found something. -/
def enter (name : String) (f : Finding) : Audit Unit := do
  if (← get).source.isSome then setResult name (← ofExcept f.document)
  else setResult name (.bool f.vulnerable)

def detectUnderflow : Audit Unit := do
  let pcs := (← shared).problems.underflows
  let f ← ofExcept (Finding.underflow (← get).source (pcs.map fun pc => { pc }))
  modifyFindings ({ · with underflow := some f })
  enter "integer_underflow" f
  say ("\t  Integer Underflow: \t\t\t " ++ truthText f.vulnerable)

def detectOverflow : Audit Unit := do
  let s ← shared
  let pcs := s.problems.overflows.filter fun pc => !s.revertible.contains pc
  let f ← ofExcept (Finding.overflow (← get).source (pcs.map fun pc => { pc }))
  modifyFindings ({ · with overflow := some f })
  enter "integer_overflow" f
  say ("\t  Integer Overflow: \t\t\t " ++ truthText f.vulnerable)

def detectDestructible (job : Job) : Audit Unit := do
  match (← get).source with
  | none => throw .missingPart
  | some m =>
    let f ← ofExcept (Finding.destructibleCallees m fun file => job.others.lookup file)
    modifyFindings ({ · with destructible := some f })
    setResult "parity_multisig_bug_2" (← ofExcept f.document)
    say ("\t  Parity Multisig Bug 2: \t\t " ++ truthText f.vulnerable)

def detectCallstack : Audit Unit := do
  let p ← get
  let pcs ← ofExcept (Callstack.unchecked (Callstack.mentions p.listing.toList))
  let f ← ofExcept (Finding.callstack p.source pcs p.machine.shared.affected)
  modifyFindings ({ · with callstack := some f })
  enter "callstack" f
  say ("\t  Callstack Depth Attack Vulnerability:  " ++ truthText f.vulnerable)

def transferValues (f : Flow) : List Value := [.text f.source, .text f.destination, .text f.amount]

def cannotFollow (ctx : Context) (s : Shared) (i j : Nat) : Except Fault Bool := do
  let first ← itemAt s.conditions i
  let second ← itemAt s.conditions j
  let storage ← itemAt s.storages i
  isFalseAlarm ctx.decide (first.map Value.ofCondition) storage (second.map Value.ofCondition)

/-- The first two recorded paths that both move money, and not in the same way. -/
def findRace (ctx : Context) (flows : List (List Flow)) : Except Fault (Option (Nat × Nat)) := do
  let moving := flows.zipIdx.filter fun (f, _) => f.length ≠ 1
  let rec against (f : List Flow) (i : Nat) :
      List (List Flow × Nat) → Except Fault (Option (Nat × Nat))
    | [] => .ok none
    | (g, j) :: rest => do
      if ← flowsDiffer ctx.decide (f.map transferValues) (g.map transferValues) then
        return some (i, j)
      else against f i rest
  let rec from_ : List (List Flow × Nat) → Except Fault (Option (Nat × Nat))
    | [] => .ok none
    | (f, i) :: rest => do
      match ← against f i rest with
      | some race => return some race
      | none => from_ rest
  from_ moving

def storagesLeft (s : Shared) : Except Fault (List (Table Key Value)) :=
  s.flows.zipIdx.mapM fun (_, i) => itemAt s.storages i

def racePlaces (s : Shared) : Option (Nat × Nat) → Except Fault (List (List Int))
  | none => .ok []
  | some (i, j) => do return [← itemAt s.problems.transfers i, ← itemAt s.problems.transfers j]

def detectConcurrency (ctx : Context) : Audit Unit := do
  let s ← shared
  let _ ← ofExcept (storagesLeft s)
  let race ← ofExcept (findRace ctx s.flows)
  let flows ← ofExcept (racePlaces s race)
  if let some (i, j) := race then
    if on ctx.settings.checkConcurrencyFp then
      if ← ofExcept (cannotFollow ctx s i j) then
        let _ ← ofExcept (cannotFollow ctx s j i)
  let f ← ofExcept (Finding.concurrency (← get).source flows)
  modifyFindings ({ · with concurrency := some f })
  enter "money_concurrency" f
  say ("\t  Transaction-Ordering Dependence (TOD): " ++ truthText f.vulnerable)

def timestampName : String := "IH_s"

/-- The places at which a path depends on the time, given those of its conditions. -/
def timePcs (p : Printer) (conditions : List Condition) (origins : Except Fault (Table Nat Int)) :
    Except Fault (List Int) := do
  let places ← conditions.zipIdx.mapM fun (c, i) =>
    match c with
    | .settled _ => .ok none
    | .symbolic f =>
      if Text.contains timestampName (p.formula f) then do return (← origins).get? i else .ok none
  return places.reduceOption

def timePlaces (p : Printer) (s : Shared) : Except Fault (List Int) := do
  let places ← s.conditions.zipIdx.mapM fun (cs, i) =>
    timePcs p cs (itemAt s.problems.conditionPcs i)
  return places.flatten

def sayPaths (p : Printer) : List (List Condition × Nat) → Audit Unit
  | [] => pure ()
  | (cs, i) :: rest => do
    say ("PATH " ++ toString (i + 1) ++ ": " ++ p.conditions cs)
    sayPaths p rest

def stem (name : String) : String :=
  let file := ((Text.splitAt '/' name).getLast?).getD ""
  ((Text.splitAt '.' file).head?).getD ""

def detectTimeDependency (job : Job) : Audit Unit := do
  let s ← shared
  let settings := job.ctx.settings
  if on settings.printPaths then
    say "ALL PATH CONDITIONS"
    sayPaths job.ctx.print s.conditions.zipIdx
  let pcs ← ofExcept (timePlaces job.ctx.print s)
  let f ← ofExcept (Finding.timeDependency (← get).source pcs)
  modifyFindings ({ · with timeDependency := some f })
  enter "time_dependency" f
  say ("\t  Timestamp Dependency: \t\t " ++ truthText f.vulnerable)
  if on settings.reportMode then
    writeFile (stem job.name ++ ".report") (if pcs.isEmpty then "no\n" else "yes\n")

def detectReentrancy : Audit Unit := do
  let f ← ofExcept (Finding.reentrancy (← get).source (← shared).problems.reentrancy)
  modifyFindings ({ · with reentrancy := some f })
  enter "reentrancy" f
  say ("\t  Re-Entrancy Vulnerability: \t\t " ++ truthText f.vulnerable)

def detectAssertion : Audit Unit := do
  let pcs := (← shared).problems.assertions
  let f ← ofExcept (Finding.assertion (← get).source (pcs.map fun pc => { pc }))
  modifyFindings ({ · with assertion := some f })
  setResult "assertion_failure" (← ofExcept f.document)
  say ("\t  Assertion Failure: \t\t\t " ++ truthText f.vulnerable)

def found (f : Option Finding) : Audit Finding :=
  match f with
  | some f => return f
  | none => throw .unboundName

def sayFindings : List Finding → Audit Unit
  | [] => pure ()
  | f :: rest => do
    let text ← ofExcept f.text
    if text ≠ "" then say text
    sayFindings rest

def sayWarnings (ctx : Context) : Audit Unit := do
  let p ← get
  let fs := p.findings
  let first ← [fs.underflow, fs.overflow, fs.callstack, fs.concurrency, fs.timeDependency,
    fs.reentrancy].mapM found
  let more ← if p.source.isSome then do
      let d ← found fs.destructible
      if on ctx.settings.checkAssertions then pure [d, ← found fs.assertion] else pure [d]
    else pure []
  sayFindings (first ++ more)

def anyFound (ctx : Context) : Audit Bool := do
  let p ← get
  let fs := p.findings
  let first ← [fs.callstack, fs.concurrency, fs.timeDependency, fs.reentrancy].mapM found
  let more ← if p.source.isSome && on ctx.settings.checkAssertions then
      [fs.assertion, fs.destructible].mapM found
    else pure []
  return (first ++ more).any Finding.vulnerable

/-- The share of instructions that were reached, in percent with one decimal place. -/
def coverageText (visited total : Nat) : String :=
  let share := (Double.ofQuotient? visited total).getD (Double.zero false)
  ((share.mul ((Double.ofInt? 100).getD (Double.zero false))).roundPlaces 1).text

def detectAll (job : Job) : Audit Unit := do
  let settings := job.ctx.settings
  let s ← shared
  let coverage := coverageText s.visitedPcs.length s.graph.instructions.size
  say ("\t  EVM Code Coverage: \t\t\t " ++ coverage ++ "%")
  modify fun p => { p with coverage }
  let withSource := (← get).source.isSome
  if withSource then
    detectUnderflow
    detectOverflow
    detectDestructible job
  detectCallstack
  detectConcurrency job.ctx
  detectTimeDependency job
  if on settings.reportMode then throw .unboundName
  detectReentrancy
  if on settings.checkAssertions then
    if withSource then detectAssertion else throw .assertionsNeedSourceMap
  if withSource then sayWarnings job.ctx

def sayNothing (settings : Settings) : Audit Unit := do
  say "\t  EVM code coverage: \t 0/0"
  say "\t  Callstack bug: \t False"
  say "\t  Money concurrency bug: False"
  say "\t  Time dependency bug: \t False"
  say "\t  Reentrancy bug: \t False"
  if on settings.checkAssertions then say "\t  Assertion failure: \t False"
  modify fun p => { p with coverage := "0/0" }

end EvmAudit.Audit
