import EvmAudit.Machine.Start
import EvmAudit.Machine.Step

/-! Depth-first exploration of the paths of a listing. A path ends at a terminal block, at the depth
limit, at the loop or gas limit, or where no block is. -/

namespace EvmAudit

def declaredName? (declaration : String) : Option String :=
  let cs := declaration.toList
  let name := cs.takeWhile Listing.isWordChar
  let rest := cs.drop name.length
  let body := match rest.reverse with
    | '\n' :: back => back.reverse
    | _ => rest
  match name, body with
  | _ :: _, '(' :: inner =>
    if inner.getLast? = some ')' && !inner.contains '\n' then some (String.ofList name) else none
  | _, _ => none

namespace Exec

def functionAt (ctx : Context) (entries : Table Int String) (block : Int) (current : String) :
    Exec String := do
  match ctx.source, entries.get? block with
  | some m, some signature =>
    match m.signatures.get? signature with
    | none => throw .missingKey
    | some declaration => return (declaredName? declaration).getD declaration
  | _, _ => return current

def enterEdge (source target : Int) : Exec Int := do
  let count := ((← getShared).visitedEdges.get? (source, target)).getD 0 + 1
  modifyShared fun s => { s with visitedEdges := s.visitedEdges.insert (source, target) count }
  return count

def leaveEdge (source target : Int) : Exec Unit :=
  modifyShared fun s =>
    let count := (s.visitedEdges.get? (source, target)).getD 0
    { s with visitedEdges := s.visitedEdges.insert (source, target) (count - 1) }

def traceRow (site : Site) (text : String) (cause : Option Fault) : Exec Unit := do
  let path ← getPath
  let row : TraceRow :=
    ⟨site.block, text, site.caller, site.function, cause, path.world.pc, path.stack,
      path.analysis.gas⟩
  modifyShared fun s => { s with trace := row :: s.trace }

def tick (ctx : Context) : Exec Unit := do
  modifyShared fun s => { s with executed := s.executed + 1 }
  if ctx.deadline = some (← getShared).executed then throw .deadline

def traced (ctx : Context) (site : Site) (text : String) : Exec Unit := do
  tryCatch (do tick ctx; step ctx site (.ofText text)) fun cause => do
    traceRow site text (some cause)
    throw cause
  traceRow site text none

def runAll (ctx : Context) (site : Site) : List String → Exec Unit
  | [] => pure ()
  | text :: rest => do
    traced ctx site text
    runAll ctx site rest

/-- Keeps what a block has added to its path; a flow that is known already is not kept again. -/
def record : Exec Unit := do
  let p ← getPath
  let a := p.analysis
  modifyShared fun s =>
    let s := { s with reentrancy := s.reentrancy ++ [a.reentrancy] }
    if s.flows.contains a.flows then s
    else
      { s with
        flows := s.flows ++ [a.flows]
        conditions := s.conditions ++ [p.conditions]
        storages := s.storages ++ [p.world.storage]
        problems := { s.problems with
          transfers := s.problems.transfers ++ [a.transferPcs]
          conditionPcs := s.problems.conditionPcs ++ [a.conditionPcs] } }

/-- The end of a path. A recorded test is compared there, and its verdict ends the program. -/
def finish (ctx : Context) : Exec Unit := do
  modifyShared fun s => { s with paths := s.paths + 1 }
  if on ctx.settings.generateTestCases then
    if (← getShared).solver.modelIsOpen ctx.simplify then
      modifyShared fun s => { s with testCases := s.testCases + 1 }
  let p ← getPath
  modifyShared fun s => { s with ends := s.ends ++ [(p.analysis.gas, p.analysis.memoryGas)] }
  if ctx.settings.unitTest ≠ 0 then
    match ctx.verdict with
    | none => throw .noSuchFile
    | some base => throw (.exit (some (base + p.world.storage.size)))

/-- Causes that end the whole exploration; the others only end their branch. -/
def isFinal : Fault → Bool
  | .deadline | .exit _ => true
  | _ => false

/-- A block to execute: the edge it is entered through, the call that led to it, and the function it
is taken to belong to. -/
structure Visit where
  block : Int
  previous : Int
  caller : Int
  function : String
  deriving Inhabited

/-- Whether a block is executed, which it is within the limits of loops and gas; if so, its site and
its instructions. -/
def enter (ctx : Context) (entries : Table Int String) (v : Visit) :
    Exec (Option (Site × List String)) := do
  if v.block < 0 then return none
  let function ← functionAt ctx entries v.block v.function
  let count ← enterEdge v.previous v.block
  if count > ctx.settings.loopLimit then return none
  if (← getPath).analysis.gas > ctx.settings.gasLimit then return none
  match (← getShared).graph.blocks.get? v.block with
  | none => return none
  | some b => return some (⟨v.block, v.caller, function⟩, b.instructions)

/-- Where control goes from a block. -/
inductive Onward where
  | stop
  | go (v : Visit)
  | fork (c : Condition) (b : Block)

def callerAfter (ctx : Context) (caller : Int) : Exec Int := do
  match ctx.source with
  | none => return caller
  | some m =>
    let here ← pc
    let code ← ofExcept (m.sourceCode here)
    return if m.callNames.contains code then here else caller

/-- Where control goes from a block that has been executed; nowhere if it is the last one that the
depth limit admits. -/
def onward (ctx : Context) (previous : Int) (site : Site) (last : Bool) : Exec Onward := do
  let graph := (← getShared).graph
  match graph.endings.get? site.block, graph.blocks.get? site.block, last with
  | none, _, _ => throw .missingKey
  | _, none, _ => throw .missingKey
  | some .terminal, _, _ | _, _, true =>
    finish ctx
    return .stop
  | some .unconditional, some b, false =>
    let caller ← callerAfter ctx site.caller
    modifyWorld fun w => { w with pc := b.targetAddress }
    return .go ⟨b.targetAddress, site.block, caller, site.function⟩
  | some .fallsTo, some b, false =>
    let next ← ofExcept b.getFallsTo
    modifyWorld fun w => { w with pc := next }
    return .go ⟨next, site.block, site.caller, site.function⟩
  | some .conditional, some b, false =>
    return .fork (← ofExcept do (← b.getBranch).asCondition) b
  | some (.other _), _, _ =>
    leaveEdge previous site.block
    throw .unknownJumpKind

def visit (ctx : Context) (entries : Table Int String) (last : Bool) (v : Visit) :
    Exec (Site × Onward) := do
  match ← enter ctx entries v with
  | none => return (⟨v.block, v.caller, v.function⟩, .stop)
  | some (site, texts) =>
    runAll ctx site texts
    record
    return (site, ← onward ctx v.previous site last)

/-- Takes one side of a branch, unless its condition cannot hold. The parent's path is the one after
the block. -/
def takeSide (ctx : Context) (parent : Path) (c : Condition) (target : Except Fault Int) :
    Exec (Option Int) := do
  if (← verdict ctx).isUnsat then return none
  let next ← ofExcept target
  modifyPath fun _ => { parent with
    world := { parent.world with pc := next }
    conditions := parent.conditions ++ [c] }
  noteCondition parent.world.pc
  return some next

def branch (ctx : Context) (parent : Path) (c : Condition) (target : Except Fault Int)
    (continue_ : Int → Exec Unit) : Exec Unit := do
  pushScope
  assertThat c
  tryCatch (do
      match ← takeSide ctx parent c target with
      | none => return
      | some next => continue_ next)
    fun cause => do if isFinal cause then throw cause
  modifyPath fun _ => parent
  popScope

/-- Explores on from a block that is entered at a depth. Past the depth limit it is the last one. -/
def exploreFrom (ctx : Context) (entries : Table Int String) (depth : Int) (v : Visit) :
    Exec Unit :=
  if depth + 1 > ctx.settings.depthLimit then do
    let _ ← visit ctx entries true v
  else do
    let (site, onward) ← visit ctx entries false v
    match onward with
    | .stop => return
    | .go next => exploreFrom ctx entries (depth + 1) next
    | .fork c b =>
      let parent ← getPath
      let side (next : Int) : Exec Unit :=
        exploreFrom ctx entries (depth + 1) ⟨next, v.block, v.caller, site.function⟩
      branch ctx parent c (.ok b.targetAddress) side
      branch ctx parent (.symbolic c.not) b.getFallsTo side
      leaveEdge v.previous v.block
termination_by (ctx.settings.depthLimit - depth).toNat
decreasing_by all_goals omega

def exploreAll (ctx : Context) : Exec Unit := do
  start ctx
  let entries ← match ctx.source with
    | none => pure {}
    | some _ => ofExcept (← getShared).graph.signatures
  exploreFrom ctx entries 0 ⟨0, 0, -1, "fallback"⟩

end Exec

end EvmAudit
