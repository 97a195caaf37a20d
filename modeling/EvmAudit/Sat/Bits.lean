import EvmAudit.Sat.Circuit

/-! Words of wires, lowest place first, and the arithmetic on them. -/

namespace EvmAudit.Sat

abbrev Bits := Array Literal

namespace Bits

def wire (a : Bits) (i : Nat) : Literal := a.getD i wireFalse

def ofNat (width n : Nat) : Bits :=
  (Array.range width).map fun i => if n.testBit i then wireTrue else wireFalse

def toNat? (a : Bits) : Option Nat :=
  if a.all (· < 2) then some (a.foldr (fun l n => 2 * n + l) 0) else none

def fresh (width : Nat) : Build Bits :=
  (Array.range width).mapM fun _ => freshInput

def complement (a : Bits) : Bits := a.map negated

def resize (width : Nat) (a : Bits) : Bits :=
  (Array.range width).map fun i => a.wire i

def bitwise (g : Literal → Literal → Build Literal) (a b : Bits) : Build Bits :=
  (Array.range a.size).mapM fun i => g (a.wire i) (b.wire i)

def choose (c : Literal) (a b : Bits) : Build Bits :=
  (Array.range a.size).mapM fun i => muxGate c (a.wire i) (b.wire i)

def addCarry (a b : Bits) (carry : Literal) : Build (Bits × Literal) :=
  (List.range a.size).foldlM (fun (acc, c) i => do
    let x := a.wire i
    let y := b.wire i
    let s ← xorGate (← xorGate x y) c
    let c ← majorityGate x y c
    return (acc.push s, c)) (#[], carry)

def add (a b : Bits) : Build Bits := do return (← addCarry a b wireFalse).1

def sub (a b : Bits) : Build Bits := do return (← addCarry a b.complement wireTrue).1

def neg (a : Bits) : Build Bits := sub (ofNat a.size 0) a

def ule (a b : Bits) : Build Literal :=
  (List.range a.size).foldlM (fun c i => majorityGate (b.wire i) (negated (a.wire i)) c) wireTrue

def flipTop (a : Bits) : Bits := a.modify (a.size - 1) negated

def sle (a b : Bits) : Build Literal := ule a.flipTop b.flipTop

def equal (a b : Bits) : Build Literal :=
  (List.range a.size).foldlM (fun c i => do andGate c (← iffGate (a.wire i) (b.wire i))) wireTrue

def anyOf (a : List Literal) : Build Literal := a.foldlM orGate wireFalse

def isZero (a : Bits) : Build Literal := do return negated (← anyOf a.toList)

def up (n : Nat) (a : Bits) : Bits :=
  (Array.range a.size).map fun i => if i < n then wireFalse else a.wire (i - n)

def down (n : Nat) (top : Literal) (a : Bits) : Bits :=
  (Array.range a.size).map fun i => if i + n < a.size then a.wire (i + n) else top

/-- A move by a number on wires: one stage for each of its low places, and everything out when a
higher place is set. -/
def barrel (stage : Nat → Bits → Bits) (out : Literal) (a amount : Bits) : Build Bits := do
  let low := a.size.log2
  let moved ← (List.range low).foldlM (fun acc k =>
    choose (amount.wire k) (stage (Nat.pow 2 k) acc) acc) a
  let far ← anyOf ((List.range amount.size).filterMap fun i =>
    if low ≤ i then some (amount.wire i) else none)
  choose far (Array.replicate a.size out) moved

def shl (a amount : Bits) : Build Bits := barrel up wireFalse a amount

def lshr (a amount : Bits) : Build Bits := barrel (fun n => down n wireFalse) wireFalse a amount

def ashr (a amount : Bits) : Build Bits :=
  let top := a.wire (a.size - 1)
  barrel (fun n => down n top) top a amount

def mulLost (a b : Bits) : Build (Bits × Literal) :=
  (List.range b.size).foldlM (fun (acc, lost) i => do
    let c := b.wire i
    if c = wireFalse then return (acc, lost)
    let row ← (up i a).mapM fun l => andGate c l
    let (acc, carry) ← addCarry acc row wireFalse
    let high ← anyOf ((List.range i).map fun k => a.wire (a.size - 1 - k))
    let lost ← orGate lost (← orGate carry (← andGate c high))
    return (acc, lost)) (ofNat a.size 0, wireFalse)

def mul (a b : Bits) : Build Bits :=
  (List.range b.size).foldlM (fun acc i => do
    let c := b.wire i
    if c = wireFalse then return acc
    let row ← (up i a).mapM fun l => andGate c l
    add acc row) (ofNat a.size 0)

/-- Adds a fixed multiple `n` of `a`, moved up by `i` places. Where two neighbouring digits of `n`
are set, one subtraction and a digit higher up take their place. -/
def addMultiple (a acc : Bits) (i n : Nat) : Nat → Build Bits
  | 0 => return acc
  | rest + 1 => do
    if n % 2 = 0 then addMultiple a acc (i + 1) (n / 2) rest
    else if n % 4 = 3 then
      let acc ← sub acc (up i a)
      addMultiple a acc (i + 1) (n / 2 + 1) rest
    else
      let acc ← add acc (up i a)
      addMultiple a acc (i + 1) (n / 2) rest

def scale (a : Bits) (n : Nat) : Build Bits := addMultiple a (ofNat a.size 0) 0 n a.size

def divideBy (a : Bits) (n : Nat) : Build (Bits × Bits) := do
  let width := a.size
  let extra := n.log2 + 1
  if n = Nat.pow 2 n.log2 then
    return (down n.log2 wireFalse a, (Array.range width).map fun i =>
      if i < n.log2 then a.wire i else wireFalse)
  let q ← fresh width
  let r ← fresh width
  let wide := width + extra
  let sum ← add (← scale (q.resize wide) n) (r.resize wide)
  require (← equal sum (a.resize wide))
  require (negated (← ule (ofNat width n) r))
  return (q, r)

/-- Quotient and remainder without signs. They are the numbers with `b q + r = a` and `r < b`; by
zero the quotient is all ones and the remainder is `a`. -/
def divide (a b : Bits) : Build (Bits × Bits) := do
  let width := a.size
  if let some n := b.toNat? then
    if n = 0 then return (ofNat width (Nat.pow 2 width - 1), a)
    else return ← divideBy a n
  let q ← fresh width
  let r ← fresh width
  let (p, lost) ← mulLost b q
  let (s, carry) ← addCarry p r wireFalse
  let none ← isZero b
  let exact ← andGate (negated lost) (← andGate (negated carry) (← equal s a))
  let small ← ule b r
  let good ← andGate exact (negated small)
  require (← orGate none good)
  return (← choose none (ofNat width (Nat.pow 2 width - 1)) q, ← choose none a r)

def top (a : Bits) : Literal := a.wire (a.size - 1)

def magnitude (a : Bits) : Build Bits := do choose a.top (← neg a) a

end Bits

end EvmAudit.Sat
