import EvmAudit.Machine.Reentrancy

/-! Renaming the variables of a finished path, so that a second path can be put after it. A storage
word that the path did not write keeps its name: both paths mean the same word by it. -/

namespace EvmAudit

abbrev Renaming := Table String String

def oldName (name : String) : String := name ++ "_old"

namespace Renaming

/-- Renames one variable of a value: as before if it was renamed before, else if it may be. -/
def step (mayRename : String → Except Fault Bool) (state : Renaming × Value) (name : String) :
    Except Fault (Renaming × Value) := do
  let (r, v) := state
  match r.get? name with
  | some new => return (r, v.rename name new)
  | none =>
    if ← mayRename name then return (r.insert name (oldName name), v.rename name (oldName name))
    else return (r, v)

def apply (mayRename : String → Except Fault Bool) (r : Renaming) (v : Value) :
    Except Fault (Renaming × Value) :=
  v.vars.foldlM (step mayRename) (r, v)

def applyAll (mayRename : String → Except Fault Bool) (r : Renaming) :
    List Value → Except Fault (Renaming × List Value)
  | [] => .ok (r, [])
  | v :: rest => do
    let (r, v) ← apply mayRename r v
    let (r, rest) ← applyAll mayRename r rest
    return (r, v :: rest)

def inConditions (storage : Table Key Value) (name : String) : Except Fault Bool := do
  if isStorageName name then return storage.contains (← storagePlace name)
  else return true

/-- In storage, a name of the form with underscores ends in the place that it stands for. -/
def inStorage (storage : Table Key Value) (name : String) : Except Fault Bool :=
  if Text.startsWith name "Ia_store_" then
    match ((Text.splitAt '_' name).getLast?).bind (Numeral.read 10) with
    | some n => .ok (storage.contains (.at n))
    | none => .error .badNumeral
  else .ok true

end Renaming

def renamePath (conditions : List Value) (storage : Table Key Value) :
    Except Fault (List Value × Table Key Value) := do
  let (r, conditions) ← Renaming.applyAll (Renaming.inConditions storage) {} conditions
  let (_, values) ← Renaming.applyAll (Renaming.inStorage storage) r storage.values
  return (conditions, ⟨storage.keys.zip values⟩)

end EvmAudit
