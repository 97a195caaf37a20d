import EvmAudit.Machine.Basic

/-! The state before the first instruction: symbolic, or taken from an account description. -/

namespace EvmAudit

structure Opening where
  senderBalance : Value := .absent
  contractBalance : Value := .absent
  value : Value := .absent
  sender : Value := .absent
  receiver : Value := .absent
  gasPrice : Value := .absent
  origin : Value := .absent
  coinbase : Value := .absent
  number : Value := .absent
  difficulty : Value := .absent
  gasLimit : Value := .absent

namespace Opening

def symbolic : Opening where
  senderBalance := .var "init_Is"
  contractBalance := .var "init_Ia"
  value := .var "Iv"
  sender := .var Names.caller
  receiver := .var Names.address

def entry (d : Document) (part name : String) : Except Fault Value := do
  let v ← d.path [part, name]
  if v.isTruthy then
    match v with
    | .text s =>
      match Numeral.read 16 s with
      | some n => return .int n
      | none => throw .badNumeral
    | _ => throw .unsupportedOperand
  else return .absent

def ofDocument (d : Document) : Except Fault Opening := do
  let senderBalance ← entry d "Is" "balance"
  let contractBalance ← entry d "Ia" "balance"
  let value := if (← d.path ["exec", "value"]).isTruthy then Value.int 0 else .absent
  let sender ← entry d "Is" "address"
  let receiver ← entry d "Ia" "address"
  let gasPrice ← entry d "exec" "gasPrice"
  let origin ← entry d "exec" "origin"
  let coinbase ← entry d "env" "currentCoinbase"
  let number ← entry d "env" "currentNumber"
  let difficulty ← entry d "env" "currentDifficulty"
  let gasLimit ← entry d "env" "currentGasLimit"
  return { senderBalance, contractBalance, value, sender, receiver, gasPrice, origin, coinbase,
           number, difficulty, gasLimit }

end Opening

namespace Exec

def opening (ctx : Context) : Except Fault Opening :=
  if on ctx.settings.inputState then
    match ctx.account with
    | none => .error .noSuchFile
    | some text => do Opening.ofDocument (← Document.read text)
  else .ok .symbolic

def givenOr (v : Value) (name : String) : Exec Value :=
  match v.toInt? with
  | some n => if n = 0 then do declare name; return .var name else return v
  | none => do declare name; return .var name

/-- Puts the opening in place of the path's state. The first three conditions say that nothing is
negative and that the sender can pay. -/
def start (ctx : Context) : Exec Unit := do
  let o ← ofExcept (opening ctx)
  let zero : Value := .word (.const 0)
  modifyPath fun p =>
    { p with vars := (((p.vars.insert "Is" o.sender).insert "Ia" o.receiver).insert "Iv" o.value) }
  addCondition (← ofExcept (o.value.ge zero))
  addCondition (← ofExcept (o.senderBalance.ge o.value))
  addCondition (← ofExcept (o.contractBalance.ge zero))
  let senderBalance ← ofExcept (o.senderBalance.sub o.value)
  let contractBalance ← ofExcept (o.contractBalance.add o.value)
  let gasPrice ← givenOr o.gasPrice Names.gasPrice
  let origin ← givenOr o.origin Names.origin
  let coinbase ← givenOr o.coinbase "IH_c"
  let number ← givenOr o.number "IH_i"
  let difficulty ← givenOr o.difficulty "IH_d"
  let gasLimit ← givenOr o.gasLimit "IH_l"
  declare "IH_s"
  modifyWorld fun w =>
    { w with
      balance := Table.ofList [("Is", senderBalance), ("Ia", contractBalance)]
      value := o.value
      sender := o.sender
      receiver := o.receiver
      gasPrice
      origin
      coinbase
      timestamp := .var "IH_s"
      number
      difficulty
      gasLimit }

end Exec

end EvmAudit
