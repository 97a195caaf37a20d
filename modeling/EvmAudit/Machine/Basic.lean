import EvmAudit.Document.Reader
import EvmAudit.Graph.Basic
import EvmAudit.Machine.Bytes
import EvmAudit.Machine.Solver
import EvmAudit.Names
import EvmAudit.Operation
import EvmAudit.Settings
import EvmAudit.Source.Map

/-! The state of an execution: what belongs to the current path, and what all paths share. -/

namespace EvmAudit

/-- A place of memory or storage: an address, or a symbolic address by its text. -/
inductive Key where
  | at (n : Int)
  | named (text : String)
  deriving DecidableEq, Repr, Inhabited

def Key.ofValue (p : Printer) (v : Value) : Key :=
  match v.toInt? with
  | some n => .at n
  | none => .named (p.value v)

def worldParts : List String :=
  ["balance", "pc", "Ia", "miu_i", "value", "sender_address", "receiver_address", "gas_price",
    "origin", "currentCoinbase", "currentTimestamp", "currentNumber", "currentDifficulty",
    "currentGasLimit"]

/-- The account state that a path works on, and the data of its transaction and block. -/
structure World where
  pc : Int := 0
  balance : Table String Value := {}
  storage : Table Key Value := {}
  /-- The number of memory words in use. -/
  activeWords : Value := .int 0
  value : Value := .absent
  sender : Value := .absent
  receiver : Value := .absent
  gasPrice : Value := .absent
  origin : Value := .absent
  coinbase : Value := .absent
  timestamp : Value := .absent
  number : Value := .absent
  difficulty : Value := .absent
  gasLimit : Value := .absent
  /-- Accounts that exist. -/
  accounts : List Key := worldParts.map .named
  deriving Inhabited

structure Flow where
  source : String
  destination : String
  amount : String
  deriving DecidableEq, Repr, Inhabited

structure Analysis where
  gas : Int := 0
  memoryGas : Int := 0
  flows : List Flow := [⟨"Is", "Ia", "Iv"⟩]
  reentrancy : List Bool := []
  /-- The program counters of the transfers. -/
  transferPcs : List Int := []
  /-- The program counter at which a path condition was added, by the condition's index. -/
  conditionPcs : Table Nat Int := {}
  deriving DecidableEq, Inhabited

structure Path where
  /-- The top of the stack is first. -/
  stack : List Value := []
  /-- Words by address. -/
  words : Table Key Value := {}
  /-- Bytes, for hashing. -/
  bytes : Bytes := {}
  calls : List Int := []
  overflowPcs : List Int := []
  analysis : Analysis := {}
  /-- The word that stands for the hash of each content. -/
  hashes : Table String Value := {}
  world : World := {}
  conditions : List Condition := []
  /-- The symbolic words in use, by name. -/
  vars : Table String Value := {}
  deriving Inhabited

/-- Program counters that the detectors report on. -/
structure Problems where
  transfers : List (List Int) := []
  reentrancy : List Int := []
  conditionPcs : List (Table Nat Int) := []
  assertions : List Int := []
  underflows : List Int := []
  overflows : List Int := []
  deriving Inhabited

structure TraceRow where
  block : Int
  text : String
  caller : Int
  function : String
  cause : Option Fault
  pc : Int
  stack : List Value
  gas : Int
  deriving Inhabited

structure Shared where
  graph : Graph := {}
  solver : Solver := {}
  names : Names := {}
  /-- Names of parameters met so far, which count as variables of the source. -/
  varNames : List String := []
  visitedPcs : List Int := []
  visitedEdges : Table (Int × Int) Int := {}
  /-- Whether a call is followed by a change of storage. -/
  affected : Table Int Bool := {}
  revertible : List Int := []
  problems : Problems := {}
  flows : List (List Flow) := []
  conditions : List (List Condition) := []
  storages : List (Table Key Value) := []
  reentrancy : List (List Bool) := []
  paths : Nat := 0
  testCases : Nat := 0
  /-- Gas and memory gas at the end of each path. -/
  ends : List (Int × Int) := []
  trace : List TraceRow := []
  executed : Nat := 0
  timedOut : Bool := false
  /-- Addresses whose code is run, when they are collected; none for a symbolic one. -/
  recipients : Option (List (Option String)) := none
  requests : List String := []
  log : List LogLine := []
  deriving Inhabited

structure Machine where
  path : Path := {}
  shared : Shared := {}
  deriving Inhabited

structure Remote where
  contract : String
  /-- Replies, each for the requests that contain a text. -/
  replies : List (String × String)
  deriving Inhabited

/-- What a run works with. The decision procedure, the simplifier and the printer are parameters, so
that statements can ask of them what they need. -/
structure Context where
  settings : Settings := {}
  decide : List Formula → Verdict := decideSat
  simplify : Simplifier := {}
  print : Printer := {}
  /-- The number of bytes that memory has no room for. -/
  room : Int := Int.pow 2 34
  /-- Memory size is asked for somewhere in the listing. -/
  tracksSize : Bool := false
  source : Option SourceMap := none
  /-- The code file. -/
  code : Option String := none
  /-- The account state to start from. -/
  account : Option String := none
  remote : Option Remote := none
  /-- The instruction before which time runs out, counted from one. -/
  deadline : Option Nat := none
  /-- The base of the verdict of a recorded test. -/
  verdict : Option Int := none
  deriving Inhabited

/-- Computations that change the state, and keep their changes when they fail. -/
abbrev Exec := ExceptT Fault (StateM Machine)

namespace Exec

def ofExcept {α : Type} (x : Except Fault α) : Exec α := ExceptT.mk (pure x)

def getPath : Exec Path := do return (← get).path

def getShared : Exec Shared := do return (← get).shared

def modifyPath (f : Path → Path) : Exec Unit := modify fun m => { m with path := f m.path }

def modifyShared (f : Shared → Shared) : Exec Unit :=
  modify fun m => { m with shared := f m.shared }

def modifyWorld (f : World → World) : Exec Unit :=
  modifyPath fun p => { p with world := f p.world }

def getWorld : Exec World := do return (← getPath).world

def modifyAnalysis (f : Analysis → Analysis) : Exec Unit :=
  modifyPath fun p => { p with analysis := f p.analysis }

/-! ### The stack and the program counter -/

def pc : Exec Int := do return (← getWorld).pc

def advance (n : Int) : Exec Unit := modifyWorld fun w => { w with pc := w.pc + n }

def need (n : Nat) : Exec Unit := do
  if (← getPath).stack.length < n then throw .stackUnderflow

def push (v : Value) : Exec Unit := modifyPath fun p => { p with stack := v :: p.stack }

def pop : Exec Value := do
  match (← getPath).stack with
  | [] => throw .missingItem
  | v :: rest =>
    modifyPath fun p => { p with stack := rest }
    return v

def drop : Nat → Exec Unit
  | 0 => pure ()
  | n + 1 => do
    let _ ← pop
    drop n

/-! ### The solver -/

def modifySolver (f : Solver → Solver) : Exec Unit :=
  modifyShared fun s => { s with solver := f s.solver }

def pushScope : Exec Unit := modifySolver Solver.push

def popScope : Exec Unit := do
  match (← getShared).solver.pop? with
  | some s => modifySolver fun _ => s
  | none => throw .illSorted

def assert (f : Formula) : Exec Unit := modifySolver (·.add f)

def assertThat (c : Condition) : Exec Unit := assert c.formula

def verdict (ctx : Context) : Exec Verdict := do
  let v := ctx.decide (← getShared).solver.assertions
  modifySolver fun s => { s with hasModel := v.isSat }
  return v

/-- What is done when a check fails: the innermost scope is closed, unless it is to stay open. -/
def failCheck {α : Type} (closing : Bool) (cause : Fault) : Exec α := do
  if closing then popScope
  throw cause

/-- Whether the assertions contradict each other. Without an answer the check fails. -/
def isUnsat (ctx : Context) : Exec Bool := do
  match ← verdict ctx with
  | .unsat => return true
  | .sat _ => return false
  | .unknown => failCheck true (.undecided "timeout")

/-! ### Names -/

def fresh (f : Names → String × Names) : Exec String := do
  let (name, names) := f (← getShared).names
  modifyShared fun s => { s with names }
  return name

/-- The word of a name: the one in use, or else a new symbolic word that is in use from now on. -/
def wordNamed (name : String) : Exec Value := do
  match (← getPath).vars.get? name with
  | some v => return v
  | none =>
    modifyPath fun p => { p with vars := p.vars.insert name (.var name) }
    return .var name

def declare (name : String) : Exec Unit :=
  modifyPath fun p => { p with vars := p.vars.insert name (.var name) }

def addCondition (c : Condition) : Exec Unit :=
  modifyPath fun p => { p with conditions := p.conditions ++ [c] }

def noteCondition (pc : Int) : Exec Unit :=
  modifyPath fun p =>
    { p with analysis := { p.analysis with
        conditionPcs := p.analysis.conditionPcs.insert (p.conditions.length - 1) pc } }

def say (level : Level) (text : String) : Exec Unit :=
  modifyShared fun s => { s with log := ⟨level, text⟩ :: s.log }

end Exec

end EvmAudit
