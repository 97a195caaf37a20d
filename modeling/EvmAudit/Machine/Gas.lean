import EvmAudit.Double.Log
import EvmAudit.Machine.Inquiry
import EvmAudit.Machine.Reentrancy
import EvmAudit.Opcode

/-! The fee of an instruction in a state, and what a transfer adds to the analysis of its path. -/

namespace EvmAudit

namespace Gas

def copyWords (n : Int) : Except Fault Int :=
  match Double.ofQuotient? n 32 with
  | some x => .ok (x.ceil?.getD 0)
  | none => .error .outOfRange

def asIndex? : Value → Option Int
  | .double x => x.trunc?
  | .text s => Numeral.read 10 s
  | v => v.toInt?

/-- The storage word at an item: by number if it can be read as one, else by its text. -/
def storageAt? (p : Printer) (storage : Table Key Value) (v : Value) : Option Value :=
  match (asIndex? v).bind fun n => storage.get? (.at n) with
  | some found => some found
  | none => storage.get? (.named (p.value v))

/-- Whether a stored item is zero; a symbolic word is only if it is the constant. -/
def isZero : Value → Except Fault Bool
  | .word t => .ok (t = .const 0)
  | .prop _ => .error .illSorted
  | v => do
    match ← v.eq (.int 0) with
    | .settled b => return b
    | .symbolic _ => return false

def storeNumber (p : Printer) (storage : Table Key Value) (place : Value) (n : Int) : Int :=
  let fresh := if n = 0 then Fee.storageReset else Fee.storageSet
  match storageAt? p storage place with
  | none => fresh
  | some old =>
    match isZero old with
    | .ok zero => if zero && n ≠ 0 then Fee.storageSet else Fee.storageReset
    | .error _ => fresh

/-- The solver's choice between the two fees of storing: the larger one if nothing else is
possible. -/
def storeFee (ctx : Context) (f : Formula) : Exec Int := do
  Exec.assert f
  let v ← Exec.verdict ctx
  Exec.popScope
  return if v.isUnsat then Fee.storageSet else Fee.storageReset

def storeOver (ctx : Context) (place value : Value) : Exec Int := do
  match storageAt? ctx.print (← Exec.getWorld).storage place with
  | none => throw .missingKey
  | some old =>
    Exec.pushScope
    let wasZero ← Exec.ofExcept (old.eq (.int 0))
    let nonzero ← Exec.ofExcept (value.ne (.int 0))
    storeFee ctx (.not (.and wasZero.formula nonzero.formula))

/-- If the place is empty, or its content cannot be asked about, only the new word counts. -/
def storeSymbol (ctx : Context) (place value : Value) : Exec Int :=
  tryCatch (storeOver ctx place value) fun _ => do
    Exec.pushScope
    let nonzero ← Exec.ofExcept (value.ne (.int 0))
    storeFee ctx nonzero.not

def callValue (ctx : Context) (amount : Value) : Exec Int := do
  match amount.toInt? with
  | some n => return if n = 0 then 0 else Fee.callValue
  | none =>
    let free ← Exec.inquire ctx (.whether do return (← amount.ne (.int 0)).not)
    return if free then 0 else Fee.callValue

def newAccount (p : Printer) (world : World) (address : Value) : Int :=
  let key := match address.toInt? with
    | some n => Key.at (n.fmod (Int.pow 2 160))
    | none => .named (p.value address)
  if world.accounts.contains key then 0 else Fee.newAccount

def dynamic (ctx : Context) (op : Operation) : Exec Int := do
  let path ← Exec.getPath
  let concrete (v : Value) (f : Int → Except Fault Int) : Exec Int :=
    match v.toInt? with
    | some n => Exec.ofExcept (f n)
    | none => return 0
  match op, path.stack with
  | .log _, _ :: size :: _ => concrete size fun n => .ok (Fee.logData * n)
  | .exp, _ :: exponent :: _ =>
    concrete exponent fun n =>
      .ok (if 0 < n then Fee.expByte * (1 + Double.log256 n.toNat) else 0)
  | .extCodeCopy, _ :: _ :: third :: _ =>
    concrete third fun n => return Fee.copy * (← copyWords n)
  | .callDataCopy, _ :: _ :: _ :: fourth :: _ | .codeCopy, _ :: _ :: _ :: fourth :: _ =>
    concrete fourth fun n => return Fee.copy * (← copyWords n)
  | .sstore, place :: value :: _ =>
    match value.toInt? with
    | some n => return storeNumber ctx.print path.world.storage place n
    | none => storeSymbol ctx place value
  | .selfDestruct, _ :: second :: _ => return newAccount ctx.print path.world second
  | .call, _ :: _ :: amount :: _ | .callCode, _ :: _ :: amount :: _
  | .delegateCall, _ :: _ :: amount :: _ => return Fee.call + (← callValue ctx amount)
  | .sha3, stack => if stack.length < 2 then throw .missingItem else return 0
  | _, _ => return 0

def memory (words : Nat) : Int := Fee.memory * words + ((words * words / 512 : Nat) : Int)

def charge (ctx : Context) (instruction : Instruction) : Exec Unit := do
  let extra ← dynamic ctx instruction.operation
  let path ← Exec.getPath
  let held := memory path.words.size
  let fee := Fee.ofName instruction.name + extra + (held - path.analysis.memoryGas)
  Exec.modifyAnalysis fun a => { a with gas := a.gas + fee, memoryGas := held }

end Gas

def recipientText (ctx : Context) (v : Value) : Except Fault String :=
  if v.isConcrete || v.isExpression then .ok (ctx.print.value (ctx.simplify.value v))
  else .error .illSorted

def Exec.noteTransfer (flow : Flow) : Exec Unit := do
  let pc ← Exec.pc
  Exec.modifyAnalysis fun a =>
    { a with transferPcs := a.transferPcs ++ [pc], flows := a.flows ++ [flow] }

def Exec.peek (n : Nat) : Exec Value := do
  match (← Exec.getPath).stack[n]? with
  | some v => return v
  | none => throw .missingItem

def Exec.checkReentrancy (ctx : Context) : Exec Bool := do
  let path ← Exec.getPath
  let amount ← Exec.peek 2
  let extra ← Exec.ofExcept (entryConditions path.conditions path.world.storage amount)
  if on ctx.settings.debugMode then
    Exec.say .info ("=>>>>>> New PC: " ++ ctx.print.conditions extra)
  let gas ← Exec.peek 0
  let answer ← Exec.ofExcept
    (mayReenter ctx path.conditions extra gas amount)
  if on ctx.settings.debugMode then
    Exec.say .info ("Reentrancy_bug? " ++ if answer then "True" else "False")
  return answer

def Exec.noteMove (ctx : Context) : Operation → Exec Unit
  | .call => do
    let recipient ← Exec.peek 1
    let amount ← Exec.peek 2
    if amount.toInt? = some 0 then return
    let recipient ← Exec.ofExcept (recipientText ctx recipient)
    let answer ← Exec.checkReentrancy ctx
    Exec.modifyAnalysis fun a => { a with reentrancy := a.reentrancy ++ [answer] }
    Exec.noteTransfer ⟨"Ia", recipient, ctx.print.value amount⟩
  | .selfDestruct => do
    let recipient ← Exec.ofExcept (recipientText ctx (← Exec.peek 0))
    Exec.noteTransfer ⟨"Ia", recipient, "all_remaining"⟩
  | _ => return

def Exec.updateAnalysis (ctx : Context) (instruction : Instruction) : Exec Unit := do
  Gas.charge ctx instruction
  Exec.noteMove ctx instruction.operation

end EvmAudit
