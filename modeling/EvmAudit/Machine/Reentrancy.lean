import EvmAudit.Machine.Basic

/-! Whether a transfer can be entered again: the path condition, with every storage word in it at
its present value, together with enough gas and a large enough amount. -/

namespace EvmAudit

/-- The name by which a word or formula is known: a variable's own, or that of its operation. -/
def Value.headName : Value → Except Fault String
  | .text s => .ok s
  | .word (.var name) => .ok name
  | .word _ | .prop _ | .ratio _ => .ok ""
  | _ => .error .missingPart

def isStorageName (name : String) : Bool := Text.startsWith name "Ia_store"

def storagePlace (name : String) : Except Fault Key :=
  match (Text.splitAt '-' name)[1]? with
  | none => .error .missingItem
  | some place =>
    match Numeral.read 10 place with
    | some n => .ok (.at n)
    | none => .ok (.named place)

/-- The equations that give the storage words among some names their present value. -/
def storageEquations (storage : Table Key Value) : List String → Except Fault (List Condition)
  | [] => .ok []
  | name :: rest => do
    let here ← if isStorageName name then do
        match storage.get? (← storagePlace name) with
        | some v => return [← (Value.var name).eq v]
        | none => return []
      else pure []
    return here ++ (← storageEquations storage rest)

def conditionVars (cs : List Condition) : List String :=
  cs.flatMap fun c => match c with
    | .settled _ => []
    | .symbolic f => f.vars

def stipend : Int := 2300

/-- An amount that is a storage word has to be other than zero, if it was written. -/
def nonzeroStored (storage : Table Key Value) (amount : Value) : Except Fault (List Condition) := do
  if amount.isConcrete then return []
  let name ← amount.headName
  if !isStorageName name then return []
  match storage.get? (← storagePlace name) with
  | some v => return [← v.ne (.int 0)]
  | none => return []

def entryConditions (cs : List Condition) (storage : Table Key Value) (amount : Value) :
    Except Fault (List Condition) := do
  let equations ← storageEquations storage (conditionVars cs)
  return equations ++ (← nonzeroStored storage amount)

/-- Whether the conditions leave room for a call with more gas than a plain transfer gives, and with
more value than came in. -/
def mayReenter (ctx : Context) (cs extra : List Condition) (gas amount : Value) :
    Except Fault Bool := do
  let enoughGas ← gas.gt (.int stipend)
  let enoughValue ← amount.gt (.var "Iv")
  let all := cs ++ extra ++ [enoughGas, enoughValue]
  return !(ctx.decide (all.map Condition.formula)).isUnsat

end EvmAudit
