import EvmAudit.Text.Blank
import EvmAudit.Value

/-! Basic blocks: a run of instructions, how it ends, and where control goes from there. -/

namespace EvmAudit

inductive Ending where
  | terminal
  | unconditional
  | conditional
  | fallsTo
  | other (name : String)
  deriving DecidableEq, Repr, Inhabited

def Ending.text : Ending → String
  | .terminal => "terminal"
  | .unconditional => "unconditional"
  | .conditional => "conditional"
  | .fallsTo => "falls_to"
  | .other name => name

def Ending.ofText : String → Ending
  | "terminal" => .terminal
  | "unconditional" => .unconditional
  | "conditional" => .conditional
  | "falls_to" => .fallsTo
  | name => .other name

/-- The jump target is the last one that an execution of the block found, `-1` for one that is not
settled; the branch is the condition under which that jump is taken. -/
structure Block where
  start : Int
  stop : Int
  instructions : List String := []
  ending : Option Ending := none
  fallsTo : Option Int := none
  target : Value := .int 0
  branch : Option Value := none
  deriving DecidableEq, Inhabited

namespace Block

def addInstruction (b : Block) (instruction : String) : Block :=
  { b with instructions := b.instructions ++ [instruction] }

def setTarget (b : Block) (address : Value) : Block :=
  { b with target := if address.isConcrete then address else .int (-1) }

def targetAddress (b : Block) : Int := b.target.toInt?.getD (-1)

def getEnding (b : Block) : Except Fault Ending :=
  b.ending.elim (.error .missingPart) .ok

def getFallsTo (b : Block) : Except Fault Int :=
  b.fallsTo.elim (.error .missingPart) .ok

def getBranch (b : Block) : Except Fault Value :=
  b.branch.elim (.error .missingPart) .ok

def mayRevert (b : Block) : Bool :=
  b.instructions.any fun text => Text.startsWith text "REVERT"

def display (b : Block) : Except Fault String := do
  let ending ← b.getEnding
  return "================\nstart address: " ++ toString b.start ++ "\nend address: " ++
    toString b.stop ++ "\nend statement type: " ++ ending.text ++ "\n" ++
    String.join (b.instructions.map (· ++ "\n"))

end Block

end EvmAudit
