import EvmAudit.Machine.Storage

/-! Jumps, and the instructions that end an execution. -/

namespace EvmAudit.Exec

/-- The address that an item denotes: a number, or a word that is written as one when simplified. -/
def targetOf (ctx : Context) (v : Value) : Exec Int :=
  match v.toInt? with
  | some n => return n
  | none =>
    match (if v.isExpression then Numeral.read 10 (ctx.print.value (ctx.simplify.value v))
      else none) with
    | some n => return n
    | none => throw .targetNotInteger

def updateBlock (block : Int) (f : Block → Block) : Exec Unit := do
  match (← getShared).graph.blocks.get? block with
  | none => throw .missingKey
  | some _ => modifyShared fun s => { s with graph := s.graph.updateBlock block f }

def addEdge (block target : Int) : Exec Unit := do
  match (← getShared).graph.edges.get? block with
  | none => throw .missingKey
  | some _ => modifyShared fun s => { s with graph := s.graph.addEdge block target }

def setTarget (block : Int) (v : Value) (target : Int) : Exec Unit :=
  updateBlock block (·.setTarget (if v.isConcrete then v else .int target))

def jump (ctx : Context) (block : Int) : Exec Unit := do
  need 1
  let v ← pop
  let target ← targetOf ctx v
  setTarget block v target
  addEdge block target

def branchOf (flag : Value) : Except Fault Value :=
  match flag.toInt? with
  | some n => .ok (if n = 0 then .prop (.compare .eq (.const 0) (.const 1)) else .bool true)
  | none => do return .ofCondition (← flag.ne (.int 0))

def jumpIf (ctx : Context) (block : Int) : Exec Unit := do
  need 2
  let v ← pop
  let target ← targetOf ctx v
  setTarget block v target
  let flag ← pop
  let branch ← ofExcept (branchOf flag)
  updateBlock block fun b => { b with branch := some branch }
  addEdge block target

def halt : Exec Unit := do
  need 2
  drop 2

def revert : Exec Unit := do
  need 2
  let pcs := (← getPath).overflowPcs
  modifyShared fun s =>
    { s with revertible := s.revertible ++ pcs.filter fun pc => !s.revertible.contains pc }
  advance 1
  drop 2

/-- A failed assertion is reported at itself, or else at the call that led to it. Without a model
there is nothing to report. -/
def assertFail (ctx : Context) (caller : Int) : Exec Unit := do
  match ctx.source with
  | none => return
  | some m =>
    let code ← ofExcept (m.sourceCode (← pc))
    let name := Text.trim (String.ofList (code.toList.takeWhile (· ≠ '(')))
    let v ← verdict ctx
    let feasible ← match v with
      | .unsat => pure false
      | .sat _ => pure true
      | .unknown => failCheck false (.undecided "timeout")
    let report (at_ : Int) : Exec Unit := do
      if !feasible then throw .unsetResult
      modifyProblems fun p => { p with assertions := p.assertions ++ [at_] }
    if name = "assert" then report (← pc)
    else if caller ≠ -1 then report caller

end EvmAudit.Exec
