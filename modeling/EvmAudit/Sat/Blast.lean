import EvmAudit.Sat.Bits
import EvmAudit.Term.Basic

/-! Terms and formulas as circuits. Products and quotients of symbolic words can be left open: their
wires are then free, apart from a few laws that hold of every product and quotient. -/

namespace EvmAudit.Sat

/-- `words` holds the wires of terms met before and `names` those of variables. -/
structure Blaster where
  circuit : Circuit
  words : Std.HashMap Term Bits
  names : Std.HashMap String Bits
  openDivision : Bool

abbrev Blast := StateM Blaster

def onCircuit (b : Build α) : Blast α :=
  modifyGet fun s =>
    let c := s.circuit
    let s := { s with circuit := .empty }
    let (a, c) := b.run c
    (a, { s with circuit := c })

def wordWidth : Nat := 256

def variableBits (name : String) : Blast Bits := do
  match (← get).names[name]? with
  | some b => return b
  | none =>
    let b ← onCircuit (Bits.fresh wordWidth)
    modify fun s => { s with names := s.names.insert name b }
    return b

def mulBits (a b : Bits) : Blast Bits := do
  match a.toNat?, b.toNat? with
  | some n, _ => onCircuit (Bits.scale b n)
  | _, some n => onCircuit (Bits.scale a n)
  | none, none =>
    if (← get).openDivision then
      onCircuit do
        let p ← Bits.fresh wordWidth
        let low ← andGate (a.wire 0) (b.wire 0)
        require (← iffGate (p.wire 0) low)
        let gone ← orGate (← Bits.isZero a) (← Bits.isZero b)
        require (← orGate (negated gone) (← Bits.isZero p))
        let one := Bits.ofNat wordWidth 1
        require (← orGate (negated (← Bits.equal a one)) (← Bits.equal p b))
        require (← orGate (negated (← Bits.equal b one)) (← Bits.equal p a))
        return p
    else onCircuit (Bits.mul a b)

/-- Quotient and remainder. A word divided by itself gives one, or all bits if it is zero. -/
def divideBits (a b : Bits) : Blast (Bits × Bits) := do
  let settled := b.toNat?.isSome
  if !settled && a == b then
    onCircuit do
      let none ← Bits.isZero b
      let ones := (Bits.ofNat wordWidth 0).complement
      return (← Bits.choose none ones (Bits.ofNat wordWidth 1), Bits.ofNat wordWidth 0)
  else if (← get).openDivision && !settled then
    onCircuit do
      let q ← Bits.fresh wordWidth
      let r ← Bits.fresh wordWidth
      let none ← Bits.isZero b
      require (← orGate none (negated (← Bits.ule b r)))
      require (← Bits.ule r a)
      require (← orGate none (← Bits.ule q a))
      require (← orGate (negated none) (← Bits.equal r a))
      require (← orGate (negated none) (← Bits.isZero (Bits.complement q)))
      let less := negated (← Bits.ule b a)
      require (← orGate (negated less) (← Bits.isZero q))
      require (← orGate (negated less) (← Bits.equal r a))
      require (← orGate less (negated (← Bits.isZero q)))
      return (q, r)
  else onCircuit (Bits.divide a b)

def sdivBits (a b : Bits) : Blast Bits := do
  let x ← onCircuit a.magnitude
  let y ← onCircuit b.magnitude
  let (q, _) ← divideBits x y
  onCircuit do
    let opposite ← xorGate a.top b.top
    Bits.choose opposite (← Bits.neg q) q

/-- The remainder with the sign of the divisor, from the remainder of the magnitudes. -/
def smodBits (a b : Bits) : Blast Bits := do
  let x ← onCircuit a.magnitude
  let y ← onCircuit b.magnitude
  let (_, u) ← divideBits x y
  onCircuit do
    let none ← Bits.isZero u
    let minus ← Bits.neg u
    let both ← Bits.choose b.top (← Bits.add u b) u
    let left ← Bits.choose b.top minus (← Bits.add minus b)
    let r ← Bits.choose a.top left both
    Bits.choose none u r

def wideRemainder (width : Nat) (op : Bits → Bits → Build Bits) (a b m : Bits) : Blast Bits := do
  if (← get).openDivision then onCircuit (Bits.fresh wordWidth)
  else
    onCircuit do
      let n ← op (a.resize width) (b.resize width)
      let (_, r) ← Bits.divide n (m.resize width)
      return r.resize wordWidth

def binaryBits : Binary → Bits → Bits → Blast Bits
  | .add, a, b => onCircuit (Bits.add a b)
  | .sub, a, b => onCircuit (Bits.sub a b)
  | .mul, a, b => mulBits a b
  | .udiv, a, b | .udivTotal, a, b => do return (← divideBits a b).1
  | .urem, a, b | .uremTotal, a, b => do return (← divideBits a b).2
  | .sdiv, a, b | .sdivTotal, a, b => sdivBits a b
  | .smod, a, b | .smodTotal, a, b => smodBits a b
  | .and, a, b => onCircuit (Bits.bitwise andGate a b)
  | .or, a, b => onCircuit (Bits.bitwise orGate a b)
  | .xor, a, b => onCircuit (Bits.bitwise xorGate a b)
  | .shl, a, b => onCircuit (Bits.shl a b)
  | .ashr, a, b => onCircuit (Bits.ashr a b)
  | .lshr, a, b => onCircuit (Bits.lshr a b)

def sliceBits (shift : Int) (mask fill : Word) (a : Bits) : Bits :=
  (Array.range wordWidth).map fun i =>
    if fill.getLsbD i then wireTrue
    else if mask.getLsbD i then
      let from_ : Int := (i : Int) - shift
      if 0 ≤ from_ ∧ from_ < wordWidth then a.wire from_.toNat else wireFalse
    else wireFalse

def compareBits : Comparison → Bits → Bits → Build Literal
  | .eq, a, b => Bits.equal a b
  | .ne, a, b => do return negated (← Bits.equal a b)
  | .ule, a, b => Bits.ule a b
  | .uge, a, b => Bits.ule b a
  | .ult, a, b => do return negated (← Bits.ule b a)
  | .ugt, a, b => do return negated (← Bits.ule a b)
  | .sle, a, b => Bits.sle a b
  | .sge, a, b => Bits.sle b a
  | .slt, a, b => do return negated (← Bits.sle b a)
  | .sgt, a, b => do return negated (← Bits.sle a b)

def remembered (t : Term) (make : Blast Bits) : Blast Bits := do
  match (← get).words[t]? with
  | some b => return b
  | none =>
    let b ← make
    modify fun s => { s with words := s.words.insert t b }
    return b

mutual

def termBits : Term → Blast Bits
  | .var name => variableBits name
  | .const w => return Bits.ofNat wordWidth w.toNat
  | .neg a => remembered (.neg a) do onCircuit (Bits.neg (← termBits a))
  | .not a => do return (← termBits a).complement
  | .binary op a b => remembered (.binary op a b) do binaryBits op (← termBits a) (← termBits b)
  | .choose c a b => remembered (.choose c a b) do
    let w ← formulaWire c
    let x ← termBits a
    let y ← termBits b
    onCircuit (Bits.choose w x y)
  | .addMod a b m => remembered (.addMod a b m) do
    wideRemainder (wordWidth + 1) Bits.add (← termBits a) (← termBits b) (← termBits m)
  | .mulMod a b m => remembered (.mulMod a b m) do
    wideRemainder (2 * wordWidth) Bits.mul (← termBits a) (← termBits b) (← termBits m)
  | .slices shift mask fill a => do return sliceBits shift mask fill (← termBits a)

def formulaWire : Formula → Blast Literal
  | .literal b => return if b then wireTrue else wireFalse
  | .compare op a b => do
    let x ← termBits a
    let y ← termBits b
    onCircuit (compareBits op x y)
  | .not f => do return negated (← formulaWire f)
  | .and f g => do
    let x ← formulaWire f
    let y ← formulaWire g
    onCircuit (andGate x y)
  | .or f g => do
    let x ← formulaWire f
    let y ← formulaWire g
    onCircuit (orGate x y)
  | .iff f g => do
    let x ← formulaWire f
    let y ← formulaWire g
    onCircuit (iffGate x y)
  | .xor f g => do
    let x ← formulaWire f
    let y ← formulaWire g
    onCircuit (xorGate x y)

end

def readWord (names : Array Nat) (m : Array Bool) (b : Bits) : Word :=
  BitVec.ofNat wordWidth (b.foldr (fun l n =>
    let v := m.getD (names.getD (atomOf l) 0) false
    2 * n + (if holdsWhen l v then 1 else 0)) 0)

inductive BlastOutcome where
  | model (values : List (String × Word))
  | contradiction
  | gaveUp

def blast (openDivision : Bool) (fs : List Formula) (fuel : Nat) : BlastOutcome :=
  let start : Blaster := ⟨.empty, {}, {}, openDivision⟩
  let (roots, s) := (fs.mapM formulaWire).run start
  let roots := s.circuit.required ++ roots.toArray
  if roots.contains wireFalse then .contradiction
  else
    let (n, names, clauses) := s.circuit.toClauses roots
    match search n clauses fuel with
    | .contradiction => .contradiction
    | .gaveUp => .gaveUp
    | .satisfied m => .model (s.names.toList.map fun (name, b) => (name, readWord names m b))

end EvmAudit.Sat
