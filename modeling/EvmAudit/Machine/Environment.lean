import EvmAudit.Machine.Memory
import EvmAudit.Machine.Remote

/-! Instructions that read the transaction, the block, the call data and code. -/

namespace EvmAudit.Exec

def pushPart (f : Path → Value) : Exec Unit := do
  advance 1
  push (f (← getPath))

def address : Exec Unit := do
  advance 1
  match (← getPath).vars.get? Names.address with
  | some v => push v
  | none => throw .missingKey

def balanceKey (p : Printer) (v : Value) : String :=
  match v.toInt? with
  | some n => "concrete_address_" ++ toString n
  | none => p.value v

def balance (ctx : Context) : Exec Unit := do
  need 1
  advance 1
  let owner ← pop
  let v ← match owner.toInt?, on ctx.settings.useGlobalBlockchain with
    | some n, true => askBalance ctx n
    | _, _ => do wordNamed (← fresh Names.freshBalance)
  modifyWorld fun w => { w with balance := w.balance.insert (balanceKey ctx.print owner) v }
  push v

/-- The parameter of a function whose word a read of the call data starts at. -/
def parameterName? (ps : List Parameter) (position : Int) : Option String :=
  let index := Int.fdiv (position - 4) 32
  (ps.reverse.find? fun p => p.position = some index).map Parameter.name

def noteParameters (ps : List Parameter) (position : Int) : Exec Unit := do
  let index := Int.fdiv (position - 4) 32
  let found := (ps.filter fun p => p.position = some index).map Parameter.name
  modifyShared fun s => { s with varNames := s.varNames ++ found }

/-- The name for a word of call data: the parameter's, where the source tells it. -/
def dataName (ctx : Context) (position : Value) (function : String) : Exec String := do
  match ctx.source with
  | none => fresh Names.freshData
  | some m =>
    let code ← ofExcept (m.sourceCode ((← pc) - 1))
    match position.toInt?, m.parameters.get? function with
    | some n, some ps =>
      if Text.startsWith code "function" then
        noteParameters ps n
        match parameterName? ps n with
        | some name => return name
        | none => throw .unsetResult
      else fresh Names.freshData
    | _, _ => fresh Names.freshData

/-- The word of a name. A parameter that is named like the conditions of the path stands for
them. -/
def itemNamed (name : String) : Exec Value := do
  if name = Names.conditions then return .conditions (← getPath).conditions else wordNamed name

def callDataLoad (ctx : Context) (function : String) : Exec Unit := do
  need 1
  advance 1
  let position ← pop
  push (← itemNamed (← dataName ctx position function))

def callDataSize : Exec Unit := do
  advance 1
  push (← wordNamed Names.dataSize)

def ignore (n : Nat) : Exec Unit := do
  need n
  advance 1
  drop n

def codeText (ctx : Context) : Exec String :=
  match ctx.code with
  | none => throw .noSuchFile
  | some s =>
    let cs := Text.unifyBreaks s.toList
    return String.ofList (cs.take (cs.length - 1))

def halfLength (n : Nat) : Value :=
  .double ((Double.ofQuotient? n 2).getD .nan)

def codeSize (ctx : Context) : Exec Unit := do
  let code ← codeText ctx
  push (halfLength code.length)

def codeNumber (code : String) (start count : Int) : Except Fault Int :=
  (Numeral.read 16 (Text.slice code (start * 2) (start * 2 + count * 2))).elim
    (.error .badNumeral) .ok

def copyUnknown (ctx : Context) (owner location start count : Value) : Exec Unit := do
  let active := (← getWorld).activeWords
  let v ← wordNamed (Names.code ctx.print owner start count)
  let size ← ofExcept do wordsUpTo (← location.add count)
  let grown ← growSymbolic ctx active.lift size
  clearWords
  setWord (.named (ctx.print.value location)) v
  setActive grown

def copyCode (ctx : Context) (location start count : Value) : Exec Unit := do
  match location.toInt?, (← getWorld).activeWords.toInt?, start.toInt?, count.toInt? with
  | some a, some active, some i, some n =>
    let grown ← ofExcept (growTo active (a + n))
    let code ← codeText ctx
    let v ← ofExcept (codeNumber code i n)
    setWord (.at a) (.int v)
    setActive grown
  | _, _, _, _ => copyUnknown ctx (.text Names.address) location start count

def codeCopy (ctx : Context) : Exec Unit := do
  need 3
  advance 1
  let location ← pop
  let start ← pop
  let count ← pop
  copyCode ctx location start count

def returnDataSize : Exec Unit := do
  advance 1
  push (.var (← fresh Names.freshArbitrary))

def extCodeSize (ctx : Context) : Exec Unit := do
  need 1
  advance 1
  let owner ← pop
  match owner.toInt?, on ctx.settings.useGlobalBlockchain with
  | some n, true =>
    match ← askCode ctx n with
    | .text s => push (halfLength s.length)
    | .array items => push (halfLength items.length)
    | .object members => push (halfLength members.length)
    | _ => throw .unsupportedOperand
  | _, _ => push (← wordNamed (Names.codeSize ctx.print owner))

/-- With concrete operands, whether the chain may be asked is not known here. -/
def copyForeign (ctx : Context) (owner location start count : Value) : Exec Unit := do
  let active := (← getWorld).activeWords
  if [owner, location, active, start, count].all Value.isConcrete then throw .unboundName
  copyUnknown ctx owner location start count

def extCodeCopy (ctx : Context) : Exec Unit := do
  need 4
  advance 1
  let owner ← pop
  let location ← pop
  let start ← pop
  let count ← pop
  copyForeign ctx owner location start count

def blockHash : Exec Unit := do
  need 1
  advance 1
  let _ ← pop
  push (← wordNamed "IH_blockhash")

def gas : Exec Unit := do
  advance 1
  let name ← fresh Names.freshGas
  declare name
  push (.var name)

end EvmAudit.Exec
