import EvmAudit.Machine.Arithmetic

/-! Comparison and bitwise instructions. A comparison gives the words one and zero. -/

namespace EvmAudit.Exec

def oneOrZero (c : Condition) : Value := .word (.choose c.formula (.const 1) (.const 0))

def compare (ctx : Context) (reading : Int → Int) (onInts : Int → Int → Bool)
    (onSymbols : Value → Value → Except Fault Condition) : Exec Unit :=
  binary ctx fun a b =>
    match both a b with
    | some (m, n) => return .int (if onInts (reading m) (reading n) then 1 else 0)
    | none => do return oneOrZero (← ofExcept (onSymbols a b))

def unsignedOrder (op : Comparison) (a b : Value) : Except Fault Condition := do
  return .symbolic (← Value.unsigned op a b)

def lt (ctx : Context) : Exec Unit := compare ctx toUnsigned (fun m n => m < n) (unsignedOrder .ult)
def gt (ctx : Context) : Exec Unit := compare ctx toUnsigned (fun m n => m > n) (unsignedOrder .ugt)
def slt (ctx : Context) : Exec Unit := compare ctx toSigned (fun m n => m < n) Value.lt
def sgt (ctx : Context) : Exec Unit := compare ctx toSigned (fun m n => m > n) Value.gt
def eq (ctx : Context) : Exec Unit := compare ctx id (fun m n => m = n) Value.eq

def isZero (ctx : Context) : Exec Unit :=
  unary ctx fun a =>
    match a.toInt? with
    | some n => return .int (if n = 0 then 1 else 0)
    | none => do return oneOrZero (← ofExcept (a.eq (.int 0)))

def bitwise (ctx : Context) (f : Value → Value → Except Fault Value) : Exec Unit :=
  binary ctx fun a b => ofExcept (f a b)

def not (ctx : Context) : Exec Unit :=
  unary ctx fun a => ofExcept do (← a.bitNot).bitAnd (.int (Word.count - 1))

def byteOf (v : Value) (shift : Value) : Except Fault Value := do
  (← v.bitAnd (← (Value.int 255).shiftLeft shift)).shiftRight shift

def byteInquiry (a b : Value) (place : Except Fault Value) : Inquiry Value :=
  .ask (do return .not (← Arithmetic.outsideWord a)) (.answer (.ok (.int 0)))
    (.answer do byteOf b (← place))

def byte (ctx : Context) : Exec Unit := do
  need 2
  advance 1
  let a ← pop
  let index ← ofExcept do (← (Value.int 32).sub a).sub (.int 1)
  let b ← pop
  let place : Except Fault Value := (Value.int 8).mul index
  let v ← match a.toInt?, b.toInt? with
    | some m, some _ =>
      if m ≥ 32 ∨ m < 0 then pure (.int 0) else ofExcept do byteOf b (← place)
    | _, _ => inquire ctx (byteInquiry a.lift b.lift place)
  push (ctx.simplify.value v)

end EvmAudit.Exec
