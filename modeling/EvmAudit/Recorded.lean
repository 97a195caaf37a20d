import EvmAudit.Source.Load
import EvmAudit.Value

/-! Recorded tests: the code of a run and the state that it should leave. The recorded state and gas
cannot be read, so a comparison with a run has no verdict. -/

namespace EvmAudit

/-- The document of a recorded test. -/
structure RecordedTest where
  data : Document
  deriving Inhabited

namespace RecordedTest

def code (t : RecordedTest) : Except Fault Document := do
  match ← t.data.path ["exec", "code"] with
  | .text s => return .text (Text.slice s 2 s.length)
  | .array items => return .array (items.drop 2)
  | _ => throw .unsupportedOperand

/-- Accounts have no order, so there is no first one whose storage could be read. -/
def storage (t : RecordedTest) : Except Fault Unit := do
  match ← t.data.get "post" with
  | .object _ => throw .unsupportedOperand
  | _ => throw .missingPart

def gas (_ : RecordedTest) : Except Fault Unit := throw .unboundName

/-- Whether the run is one that ends in an exception: it records no state or no gas. -/
def endsInException (t : RecordedTest) : Bool :=
  match t.data with
  | .object members =>
    (Document.lookup "post" members).isNone || (Document.lookup "gas" members).isNone
  | _ => true

def compareStorage (t : RecordedTest) : Except Fault Unit := t.storage

def compareGas (t : RecordedTest) : Except Fault Unit := t.gas

def compareConcrete (t : RecordedTest) : Except Fault Unit := do
  t.compareStorage
  t.compareGas

def compareSymbolic (t : RecordedTest) : Except Fault Unit := t.storage

def compare (t : RecordedTest) (s : Settings) : Except Fault Unit :=
  if s.unitTest = 2 then t.compareConcrete
  else if s.unitTest = 3 then t.compareSymbolic
  else .ok ()

def writeCode (code : String) : Shell Unit := Shell.writeFile "bytecode" (code ++ "\n")

end RecordedTest

end EvmAudit
