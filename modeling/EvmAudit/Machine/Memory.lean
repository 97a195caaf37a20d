import EvmAudit.Machine.Arithmetic

/-! Memory: words by address, and the bytes that hashing reads. Symbolic addresses are kept by their
text; a write to one forgets everything else. -/

namespace EvmAudit

def sequenceLimit : Int := Int.pow 2 63

namespace Exec

def wordsTo (n : Int) : Except Fault Int :=
  match Double.ofInt? n with
  | none => .error .outOfRange
  | some x => .ok ((x.div ((Double.ofInt? 32).getD .nan)).ceil?.getD 0)

def growTo (current : Int) (limit : Int) : Except Fault Value := do
  let words ← wordsTo limit
  return .int (if words > current then words else current)

def largerSize (current size : Value) (exceeds : Condition) : Inquiry Value :=
  .ask (.ok exceeds.formula) (.answer (.ok current)) (.answer (Value.choose exceeds size current))

/-- The number of active words after an access that ends at a symbolic size. It is only kept track
of if the size is asked for. -/
def growSymbolic (ctx : Context) (current size : Value) : Exec Value := do
  let exceeds ← ofExcept (current.lt size)
  if ctx.tracksSize then
    inquire ctx (largerSize current size exceeds)
  else
    pushScope
    assertThat exceeds
    popScope
    return current

def wordsUpTo (last : Value) : Except Fault Value := do
  (← last.div (.int 32)).add (.int 1)

def setActive (v : Value) : Exec Unit := modifyWorld fun w => { w with activeWords := v }

def setWord (key : Key) (v : Value) : Exec Unit :=
  modifyPath fun p => { p with words := p.words.insert key v }

def clearWords : Exec Unit := modifyPath fun p => { p with words := {} }

def knownWord? (path : Path) (address : Value) : Option (Int × Int × Value) :=
  match address.toInt?, path.world.activeWords.toInt? with
  | some a, some n => (path.words.get? (.at a)).map fun v => (a, n, v)
  | _, _ => none

def mload (ctx : Context) : Exec Unit := do
  need 1
  advance 1
  let address ← pop
  let path ← getPath
  let active := path.world.activeWords
  match knownWord? path address with
  | some (a, n, v) =>
    let grown ← ofExcept (growTo n (a + 32))
    push v
    setActive grown
  | none =>
    let size ← ofExcept do wordsUpTo (← address.add (.int 31))
    let grown ← growSymbolic ctx active.lift size
    let v ← wordNamed (Names.memoryAt ctx.print address)
    push v
    setWord (Key.ofValue ctx.print address) v
    setActive grown

def extendBytes (ctx : Context) (address : Int) : Exec Unit := do
  let held : Int := (← getPath).bytes.size / 32
  let missing := (Int.fdiv (ceil32 (address + 32)) 32 - held) * 32
  if missing ≥ sequenceLimit ∨ missing < -sequenceLimit then throw .outOfRange
  if missing ≥ ctx.room then throw .outOfMemory
  modifyPath fun p => { p with bytes := p.bytes.extend missing.toNat }

def setByte (address : Int) (v : Value) : Exec Unit := do
  let size : Int := (← getPath).bytes.size
  let index := if address < 0 then address + size else address
  if index < 0 ∨ size ≤ index then throw .missingItem
  modifyPath fun p => { p with bytes := p.bytes.set index.toNat v }

def setBytes (address : Int) : Nat → Value → Exec Unit
  | 0, _ => pure ()
  | n + 1, v => do
    setByte (address + n) (← ofExcept (v.mod (.int 256)))
    setBytes address n (← ofExcept (v.div (.int 256)))

def storeBytes (ctx : Context) (address v : Value) : Exec Unit :=
  match address.toInt? with
  | some a => do
    extendBytes ctx a
    setBytes a 32 v
  | none => pure ()

def mstore (ctx : Context) : Exec Unit := do
  need 2
  advance 1
  let address ← pop
  let v ← pop
  let active := (← getWorld).activeWords
  storeBytes ctx address v
  match address.toInt?, active.toInt? with
  | some a, some n =>
    let grown ← ofExcept (growTo n (a + 32))
    setWord (.at a) v
    setActive grown
  | _, _ =>
    let size ← ofExcept do wordsUpTo (← address.add (.int 31))
    let grown ← growSymbolic ctx active size
    clearWords
    setWord (.named (ctx.print.value address)) v
    setActive grown

def mstore8 (ctx : Context) : Exec Unit := do
  need 2
  advance 1
  let address ← pop
  let v ← ofExcept ((← pop).mod (.int 256))
  let active := (← getWorld).activeWords
  match address.toInt?, active.toInt? with
  | some a, some n =>
    let grown ← ofExcept (growTo n (a + 1))
    setWord (.at a) v
    setActive grown
  | _, _ =>
    let size ← ofExcept (wordsUpTo address)
    let grown ← growSymbolic ctx active.lift size
    clearWords
    setWord (.named (ctx.print.value address)) v
    setActive grown

def hashContent (p : Printer) (bytes : List Value) : String :=
  String.ofList ((String.join (bytes.map p.value)).toList.filter
    fun c => !(Text.isBlank c || c = '+'))

def sha3 (ctx : Context) : Exec Unit := do
  need 2
  advance 1
  let start ← pop
  let size ← pop
  match both start size with
  | some (a, n) =>
    let path ← getPath
    let content := hashContent ctx.print (path.bytes.slice a (a + n))
    match path.hashes.get? content with
    | some v => push v
    | none =>
      let v := Value.var (← fresh Names.freshArbitrary)
      modifyPath fun p => { p with hashes := p.hashes.insert content v }
      push v
  | none =>
    let name ← fresh Names.freshArbitrary
    declare name
    push (.var name)

end Exec

end EvmAudit
