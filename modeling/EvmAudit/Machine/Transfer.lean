import EvmAudit.Machine.Flow
import EvmAudit.Machine.Gas

/-! Calls, creation and self-destruction. -/

namespace EvmAudit.Exec

def unknownResult (n : Nat) : Exec Unit := do
  need n
  advance 1
  drop n
  push (.var (← fresh Names.freshArbitrary))

def noteCall : Exec Unit := do
  let at_ ← pc
  modifyPath fun p => { p with calls := p.calls ++ [at_] }
  let calls := (← getPath).calls
  let mark (t : Table Int Bool) (c : Int) : Table Int Bool :=
    if t.contains c then t else t.insert c false
  modifyShared fun s => { s with affected := calls.foldl mark s.affected }

def noteRecipient (ctx : Context) (recipient : Value) : Exec Unit := do
  if on ctx.settings.useGlobalStorage then
    match (← getShared).recipients with
    | none => throw .unboundName
    | some known =>
      let found := recipient.toInt?.map Numeral.hex
      if !known.contains found then
        modifyShared fun s => { s with recipients := some (known ++ [found]) }

def balanceOf (owner : String) : Exec Value := do
  match (← getWorld).balance.get? owner with
  | some v => return v
  | none => throw .missingKey

def setBalance (owner : String) (v : Value) : Exec Unit :=
  modifyWorld fun w => { w with balance := w.balance.insert owner v }

/-- Whether the contract can pay. If it can, that it does becomes a condition of the path. -/
def pay (ctx : Context) (amount : Value) : Exec Bool := do
  let held ← balanceOf "Ia"
  let enough ← ofExcept (amount.le held)
  if ← inquire ctx (.whether (.ok enough.formula)) then
    push (.int 1)
    assertThat enough
    addCondition enough
    noteCondition ((← pc) - 1)
    return true
  else
    push (.int 0)
    return false

/-- The recipient's account, with a balance that is not known but not negative. -/
def creditUnknown (recipient amount : Value) : Exec Unit := do
  let owner ← match recipient.toInt? with
    | some n => pure ("concrete_address_" ++ toString n)
    | none => fresh Names.freshAddress
  let name ← fresh Names.freshArbitrary
  declare name
  let old := Value.var name
  let known ← ofExcept (old.ge (.int 0))
  assertThat known
  addCondition known
  setBalance owner (← ofExcept (old.add amount))

def addressMask : Word := BitVec.ofNat 256 (Nat.pow 2 160 - 1)

def moveValue (ctx : Context) (recipient amount : Value) : Exec Unit := do
  let held ← balanceOf "Ia"
  setBalance "Ia" (← ofExcept (held.sub amount))
  let sender ← match (← getPath).vars.get? Names.caller with
    | some v => pure v
    | none => throw .missingKey
  let senderAddress ← ofExcept (sender.bitAnd (.word (.const addressMask)))
  let other ← ofExcept (recipient.ne senderAddress)
  if ← inquire ctx (.whether (.ok other.formula)) then creditUnknown recipient amount
  else
    let old ← balanceOf "Is"
    setBalance "Is" (← ofExcept (old.add amount))

def call (ctx : Context) : Exec Unit := do
  need 7
  noteCall
  advance 1
  drop 1
  let recipient ← pop
  let amount ← pop
  drop 4
  if amount.toInt? = some 0 then push (.int 1)
  else if ← pay ctx amount then moveValue ctx recipient amount

def callCode (ctx : Context) : Exec Unit := do
  need 7
  noteCall
  advance 1
  drop 1
  noteRecipient ctx (← pop)
  let amount ← pop
  drop 4
  if amount.toInt? = some 0 then push (.int 1)
  else
    let _ ← pay ctx amount

def delegateCall (ctx : Context) : Exec Unit := do
  need 6
  advance 1
  drop 1
  noteRecipient ctx (← pop)
  drop 4
  push (.var (← fresh Names.freshArbitrary))

def payOut (recipient : Value) : Exec Unit := do
  let amount ← balanceOf "Ia"
  setBalance "Ia" (.int 0)
  creditUnknown recipient amount

def selfDestruct : Exec Unit := do
  advance 1
  let recipient ← pop
  payOut recipient

end EvmAudit.Exec
