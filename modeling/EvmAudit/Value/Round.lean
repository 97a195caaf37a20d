import EvmAudit.Concurrency
import EvmAudit.Machine.Arithmetic

/-! Rounding and signs, for values of every kind. Comparisons are decided outside of the solver. -/

namespace EvmAudit.Value

def ceil32 (v : Value) : Except Fault Value := do
  let rest ← v.mod (.int 32)
  if ← (← rest.eq (.int 0)).truth then return v
  (← v.add (.int 32)).sub (← v.mod (.int 32))

def toUnsigned (v : Value) : Except Fault Value := do
  if ← (← v.lt (.int 0)).truth then v.add (.int Word.count) else return v

def toSigned (v : Value) : Except Fault Value := do
  if ← (← v.gt (.int Word.signBound)).truth then
    (← (Value.int Word.count).sub v).mul (.int (-1))
  else return v

def toSymbolic (v : Value) : Value :=
  match v.toInt? with
  | some n => .word (.const (BitVec.ofInt 256 n))
  | none => v

end EvmAudit.Value
