import EvmAudit.Trial.Audit
import EvmAudit.Trial.Blocks
import EvmAudit.Trial.Fees
import EvmAudit.Trial.Findings
import EvmAudit.Trial.Inputs
import EvmAudit.Trial.Values

/-! Trials of the parts of the library, each of any size. -/

namespace EvmAudit.Trial

inductive Subject where
  | arithmetic
  | symbolicArithmetic
  | environment
  | branches
  | fees
  | values
  | blocks
  | contracts
  | findings
  | inputs
  deriving DecidableEq, Repr, Inhabited

def first (n : Nat) : Subject → Except Fault Document
  | .arithmetic => coverage Assembly.arithmeticBody n
  | .symbolicArithmetic => coverage Assembly.symbolicBody n
  | .environment => coverage Assembly.environmentBody n
  | .branches => branching n
  | .fees => do return (← fees n {}).1
  | .values => values n
  | .blocks => blocks n
  | .contracts => do return .array (← contracts n)
  | .findings => do return .array (← findings n)
  | .inputs => do return .array (← ((inputs n).perform { workspace := surroundings }).1)

def run (n times : Nat) : Subject → Except Fault (List Document)
  | .fees => feesAgain n {} times
  | subject => do return List.replicate times (← first n subject)

end EvmAudit.Trial
