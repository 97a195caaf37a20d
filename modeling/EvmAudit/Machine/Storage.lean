import EvmAudit.Machine.Environment

/-! Storage, and the stack. -/

namespace EvmAudit.Exec

def setStorage (key : Key) (v : Value) : Exec Unit :=
  modifyWorld fun w => { w with storage := w.storage.insert key v }

def isOperator (c : Char) : Bool := "-+*/%|&^!><=".toList.contains c

def storageLabel (ctx : Context) : Exec String := do
  match ctx.source with
  | none => return ""
  | some m =>
    let code ← ofExcept (m.sourceCode ((← pc) - 1))
    let start := Text.trim (String.ofList (code.toList.takeWhile fun c => !isOperator c))
    return ((SourceMap.knownName? (m.varNames ++ (← getShared).varNames) start).getD "")

def loadUnknown (ctx : Context) (position : Value) : Exec Unit := do
  let position := ctx.simplify.value position
  let label ← storageLabel ctx
  let v ← wordNamed (Names.storage ctx.print position label)
  push v
  setStorage (Key.ofValue ctx.print position) v

def sload (ctx : Context) : Exec Unit := do
  need 1
  advance 1
  let position ← pop
  let storage := (← getWorld).storage
  let byNumber := position.toInt?.bind fun n => storage.get? (.at n)
  match byNumber, position.toInt?, on ctx.settings.useGlobalStorage with
  | some v, _, _ => push v
  | none, some n, true =>
    let v ← askStorage ctx n
    setStorage (.at n) (.int v)
    push (.int v)
  | none, _, _ =>
    match storage.get? (.named (ctx.print.value position)) with
    | some v => push v
    | none => loadUnknown ctx position

def sstore (ctx : Context) : Exec Unit := do
  need 2
  let calls := (← getPath).calls
  modifyShared fun s =>
    { s with affected := calls.foldl (fun t c => t.insert c true) s.affected }
  advance 1
  let position ← pop
  let v ← pop
  setStorage (Key.ofValue ctx.print position) v

def number (n : Option Int) : Exec Int :=
  match n with
  | some n => return n
  | none => throw .badNumeral

def pushOperand (ctx : Context) (width : Option Int) (operand : Operand) : Exec Unit := do
  let width ← number width
  advance (1 + width)
  match operand with
  | .missing => throw .missingItem
  | .unreadable => throw .badNumeral
  | .value n => push (if ctx.settings.unitTest = 3 then (Value.int n).lift else .int n)

def dup (depth : Option Int) : Exec Unit := do
  advance 1
  let position := (← number depth) - 1
  let stack := (← getPath).stack
  if (stack.length : Int) ≤ position then throw .stackUnderflow
  push (← ofExcept (itemAt stack position))

def setItem (xs : List Value) (i : Int) (v : Value) : List Value :=
  xs.set (if i < 0 then i + xs.length else i).toNat v

def swap (depth : Option Int) : Exec Unit := do
  advance 1
  let position ← number depth
  let stack := (← getPath).stack
  if (stack.length : Int) ≤ position then throw .stackUnderflow
  let deep ← ofExcept (itemAt stack position)
  let top ← ofExcept (itemAt stack 0)
  modifyPath fun p => { p with stack := setItem (setItem p.stack position top) 0 deep }

def popItem : Exec Unit := ignore 1

def log (topics : Nat) : Exec Unit := do
  advance 1
  drop (2 + topics)

def programCounter : Exec Unit := do
  push (.int (← pc))
  advance 1

def memorySize : Exec Unit := do
  advance 1
  push (← ofExcept ((Value.int 32).mul (← getWorld).activeWords))

end EvmAudit.Exec
