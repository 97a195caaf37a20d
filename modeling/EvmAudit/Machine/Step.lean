import EvmAudit.Machine.Comparison
import EvmAudit.Machine.Transfer

/-! One instruction of a block. -/

namespace EvmAudit

/-! Exit codes of recorded tests. -/
namespace ExitCode

def pass : Int := 100
def fail : Int := 101
def unknownInstruction : Int := 103
def failure : Int := 104

end ExitCode

namespace Exec

/-- What distinguishes an execution of an instruction besides the state: the block it belongs to,
the call that led here, and the function of the source. -/
structure Site where
  block : Int
  caller : Int := -1
  function : String := "fallback"
  deriving Inhabited

def markVisited : Exec Unit := do
  let at_ ← pc
  modifyShared fun s =>
    if s.visitedPcs.contains at_ then s else { s with visitedPcs := at_ :: s.visitedPcs }

def noteReentrancy : Exec Unit := do
  if (← getPath).analysis.reentrancy.getLast? = some true then
    let at_ ← pc
    modifyProblems fun p => { p with reentrancy := p.reentrancy ++ [at_] }

/-- An unknown mnemonic ends the whole program while a recorded test is run. -/
def unknown (ctx : Context) (name : String) : Exec Unit := do
  if ctx.settings.unitTest = 2 ∨ ctx.settings.unitTest = 3 then
    say .critical ("Unknown instruction: " ++ name)
    throw (.exit (some ExitCode.unknownInstruction))
  throw (.unknownInstruction name)

def perform (ctx : Context) (site : Site) (name : String) : Operation → Exec Unit
  | .invalid => pure ()
  | .assertFail => assertFail ctx site.caller
  | .stop => advance 1
  | .add => add ctx site.block
  | .mul => mul ctx
  | .sub => sub ctx site.block
  | .div => div ctx
  | .sdiv => sdiv ctx
  | .mod => mod ctx
  | .smod => smod ctx
  | .addMod => addMod ctx
  | .mulMod => mulMod ctx
  | .exp => exp ctx
  | .signExtend => signExtend ctx
  | .lt => lt ctx
  | .gt => gt ctx
  | .slt => slt ctx
  | .sgt => sgt ctx
  | .eq => eq ctx
  | .isZero => isZero ctx
  | .and => bitwise ctx Value.bitAnd
  | .or => bitwise ctx Value.bitOr
  | .xor => bitwise ctx Value.bitXor
  | .not => not ctx
  | .byte => byte ctx
  | .sha3 => sha3 ctx
  | .address => address
  | .balance => balance ctx
  | .caller => pushPart (·.world.sender)
  | .origin => pushPart (·.world.origin)
  | .callValue => pushPart (·.world.value)
  | .callDataLoad => callDataLoad ctx site.function
  | .callDataSize => callDataSize
  | .callDataCopy => ignore 3
  | .codeSize => codeSize ctx
  | .codeCopy => codeCopy ctx
  | .returnDataCopy => ignore 3
  | .returnDataSize => returnDataSize
  | .gasPrice => pushPart (·.world.gasPrice)
  | .extCodeSize => extCodeSize ctx
  | .extCodeCopy => extCodeCopy ctx
  | .blockHash => blockHash
  | .coinbase => pushPart (·.world.coinbase)
  | .timestamp => pushPart (·.world.timestamp)
  | .number => pushPart (·.world.number)
  | .difficulty => pushPart (·.world.difficulty)
  | .gasLimit => pushPart (·.world.gasLimit)
  | .pop => popItem
  | .mload => mload ctx
  | .mstore => mstore ctx
  | .mstore8 => mstore8 ctx
  | .sload => sload ctx
  | .sstore => sstore ctx
  | .jump => jump ctx site.block
  | .jumpIf => jumpIf ctx site.block
  | .pc => programCounter
  | .msize => memorySize
  | .gas => gas
  | .jumpDest => advance 1
  | .push width operand => pushOperand ctx width operand
  | .dup depth => dup depth
  | .swap depth => swap depth
  | .log topics => log topics
  | .create => unknownResult 3
  | .call => call ctx
  | .callCode => callCode ctx
  | .delegateCall | .staticCall => delegateCall ctx
  | .halt => halt
  | .revert => revert
  | .selfDestruct => selfDestruct
  | .unknown => unknown ctx name

def isFree : Operation → Bool
  | .invalid | .assertFail => true
  | _ => false

/-- Charges an instruction and notes a transfer that can be entered again, unless it is free. -/
def prepare (ctx : Context) (instruction : Instruction) : Exec Unit := do
  if isFree instruction.operation then return
  updateAnalysis ctx instruction
  if instruction.operation = .call then noteReentrancy

def step (ctx : Context) (site : Site) (instruction : Instruction) : Exec Unit := do
  markVisited
  prepare ctx instruction
  perform ctx site instruction.name instruction.operation

end Exec

end EvmAudit
