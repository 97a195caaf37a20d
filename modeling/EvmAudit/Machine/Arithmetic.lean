import EvmAudit.Machine.Inquiry

/-! The arithmetic instructions. Concrete operands are computed exactly, with the quotients of
division as doubles; for symbolic ones the solver settles the cases that it can. -/

namespace EvmAudit

def toUnsigned (n : Int) : Int := if n < 0 then n + Word.count else n

/-- Numbers above the sign bound stand for negative ones; the bound itself stays. -/
def toSigned (n : Int) : Int := if n > Word.signBound then -(Word.count - n) else n

def ceil32 (n : Int) : Int := if n.fmod 32 = 0 then n else n + 32 - n.fmod 32

def powMod (base e m : Nat) : Nat :=
  if h : e = 0 then 1 % m
  else
    let half := powMod (base * base % m) (e / 2) m
    if e % 2 = 1 then base * half % m else half
termination_by e
decreasing_by omega

/-- Powers of words. A negative exponent takes the inverse, which an odd base has: its powers repeat
after `2 ^ 254` steps. -/
def wordPower (base exponent : Int) : Except Fault Int :=
  let b := (base.fmod Word.count).toNat
  if 0 ≤ exponent then .ok (powMod b exponent.toNat Word.count)
  else if b % 2 = 1 then .ok (powMod b (exponent.fmod (Int.pow 2 254)).toNat Word.count)
  else .error .noInverse

namespace Graph

/-- Whether the block's jump, or the block behind it, leads to giving back all effects. -/
def branchReverts (g : Graph) (block : Int) : Except Fault Bool := do
  let lookup (key : Int) : Except Fault Block := (g.blocks.get? key).elim (.error .missingKey) .ok
  let here ← lookup block
  let next ← here.getFallsTo
  if (← lookup here.targetAddress).mayRevert then return true
  return (← lookup next).mayRevert

/-- Whether a wrap in this block is worth a report: it is not if it is given back. -/
def checksWrap (g : Graph) (block : Int) : Except Fault Bool :=
  match g.endings.get? block with
  | none => .error .missingKey
  | some .conditional => do return !(← g.branchReverts block)
  | some _ => .ok true

end Graph

namespace Arithmetic

def sum (a b : Value) : Except Fault Value := do
  if a.isConcrete != b.isConcrete then a.lift.add b.lift
  else (← a.add b).mod (.int Word.count)

def difference (a b : Value) : Except Fault Value := do
  if a.isConcrete != b.isConcrete then a.lift.sub b.lift
  else (← a.sub b).mod (.int Word.count)

def product (a b : Value) : Except Fault Value := do
  let (a, b) := if a.isConcrete != b.isConcrete then (a.lift, b.lift) else (a, b)
  (← a.mul b).bitAnd (.int (Word.count - 1))

def quotient (a b : Int) : Except Fault Value :=
  if b = 0 then .ok (.int 0) else (Value.int (toUnsigned a)).div (.int (toUnsigned b))

def remainder (a b : Int) : Except Fault Value := do
  if b = 0 then return .int 0
  (← (Value.int (toUnsigned a)).mod (.int (toUnsigned b))).bitAnd (.int (Word.count - 1))

def leastSigned : Int := -(Int.pow 2 255)

def signedQuotient (a b : Int) : Except Fault Value := do
  let a := toSigned a
  let b := toSigned b
  if b = 0 then return .int 0
  if a = leastSigned ∧ b = -1 then return .int leastSigned
  let sign : Int := match ← (← (Value.int a).div (.int b)).lt (.int 0) with
    | .settled true => -1
    | _ => 1
  (Value.int sign).mul (← (Value.int a.natAbs).div (.int b.natAbs))

def signedRemainder (a b : Int) : Except Fault Value := do
  if b = 0 then return .int 0
  let a := toSigned a
  let b := toSigned b
  (Value.int (if a < 0 then -1 else 1)).mul (← (Value.int a.natAbs).mod (.int b.natAbs))

def signExtension (byte n : Int) : Value :=
  if byte ≥ 32 ∨ byte < 0 then .int n
  else
    let bit := Int.pow 2 (8 * byte + 7).toNat
    if Value.intAnd n bit ≠ 0 then .int (Value.intOr n (Word.count - bit))
    else .int (Value.intAnd n (bit - 1))

def magnitude (v : Value) : Except Fault Value := do
  Value.choose (← v.ge (.int 0)) v (← v.negate)

def outsideWord (v : Value) : Except Fault Formula := do
  return .or (← v.ge (.int 32)).formula (← v.lt (.int 0)).formula

end Arithmetic

namespace Inquiry

def unlessZero (divisor : Value) (x : Inquiry Value) : Inquiry Value :=
  .ask (do return (← divisor.eq (.int 0)).not) (.answer (.ok (.int 0))) x

def quotient (a b : Value) : Inquiry Value := unlessZero b (.answer (Value.onWords .udiv a b))

def remainder (a b : Value) : Inquiry Value := unlessZero b (.answer (Value.onWords .urem a b))

def signedQuotient (a b : Value) : Inquiry Value :=
  let quotient (sign : Int) : Inquiry Value := .answer do
    (Value.int sign).mul (← (← Arithmetic.magnitude a).div (← Arithmetic.magnitude b))
  unlessZero b <| .ask
    (do
      let least ← a.eq (.int Arithmetic.leastSigned)
      let minusOne ← b.eq (.int (-1))
      return .not (.and least.formula minusOne.formula))
    (.answer (.ok (.int Arithmetic.leastSigned)))
    (.ask (do return (← (← a.div b).lt (.int 0)).formula) (quotient 1) (quotient (-1)))

/-- The remainder of magnitudes. Its sign is negative if the dividend can be. -/
def signedRemainder (a b : Value) : Inquiry Value :=
  let sign (n : Int) : Inquiry Value := .answer (.ok (Value.int n).lift)
  unlessZero b <|
    .andThen (.ask (do return (← a.lt (.int 0)).formula) (sign 1) (sign (-1))) fun sign => do
      sign.mul (← (← Arithmetic.magnitude a).mod (← Arithmetic.magnitude b))

def wordOf : Value → Except Fault Term
  | .word t => .ok t
  | _ => .error .illSorted

def modular (onTerms : Term → Term → Term → Term) (a b m : Value) : Inquiry Value :=
  unlessZero m (.answer do
    return .word (onTerms (← wordOf a.lift) (← wordOf b.lift) (← wordOf m)))

/-- The bits above the sign bit are set if that bit is, and cleared if it may be clear. -/
def extension (byte v : Value) : Inquiry Value :=
  match (do (← (Value.int 8).mul byte).add (.int 7) : Except Fault Value) with
  | .error cause => .answer (.error cause)
  | .ok place =>
    let bit := (Value.int 1).shiftLeft place
    .ask (do return (← (← v.bitAnd (← bit)).eq (.int 0)).formula)
      (.answer do v.bitOr (← (Value.int Word.count).sub (← bit)))
      (.answer do v.bitAnd (← (← bit).sub (.int 1)))

def signExtension (byte v : Value) : Inquiry Value :=
  .ask (do return .not (← Arithmetic.outsideWord byte)) (.answer (.ok v)) (.extension byte v)

end Inquiry

namespace Exec

def binary (ctx : Context) (f : Value → Value → Exec Value) : Exec Unit := do
  need 2
  advance 1
  let a ← pop
  let b ← pop
  let v ← f a b
  push (ctx.simplify.value v)

def unary (ctx : Context) (f : Value → Exec Value) : Exec Unit := do
  need 1
  advance 1
  let a ← pop
  let v ← f a
  push (ctx.simplify.value v)

def checksWrap (block : Int) : Exec Bool := do ofExcept ((← getShared).graph.checksWrap block)

def modifyProblems (f : Problems → Problems) : Exec Unit :=
  modifyShared fun s => { s with problems := f s.problems }

def noteOverflow : Exec Unit := do
  let at_ := (← pc) - 1
  modifyProblems fun p => { p with overflows := p.overflows ++ [at_] }
  modifyPath fun p => { p with overflowPcs := p.overflowPcs ++ [at_] }

def noteUnderflow : Exec Unit := do
  let at_ := (← pc) - 1
  modifyProblems fun p => { p with underflows := p.underflows ++ [at_] }

def add (ctx : Context) (block : Int) : Exec Unit :=
  binary ctx fun a b => do
    let computed := ctx.simplify.value (← ofExcept (Arithmetic.sum a b))
    let first := if a.isConcrete && b.isSymbolic then a.lift else a
    if ← checksWrap block then
      if computed.isSymbolic || first.isSymbolic then
        if ← inquire ctx (.whether (Value.unsigned .ugt first computed)) then noteOverflow
    return computed

def sub (ctx : Context) (block : Int) : Exec Unit :=
  binary ctx fun a b => do
    let computed := ctx.simplify.value (← ofExcept (Arithmetic.difference a b))
    let mixed := a.isConcrete != b.isConcrete
    let first := if mixed then a.lift else a
    let second := if mixed then b.lift else b
    if ← checksWrap block then
      if first.isSymbolic || second.isSymbolic then
        if ← inquire ctx (.whether (Value.unsigned .ugt second first)) then noteUnderflow
    return computed

def mul (ctx : Context) : Exec Unit := binary ctx fun a b => ofExcept (Arithmetic.product a b)

def both (a b : Value) : Option (Int × Int) :=
  match a.toInt?, b.toInt? with
  | some m, some n => some (m, n)
  | _, _ => none

/-- Numbers are computed with; for anything else the solver is asked, with all numbers as words. -/
def settle (ctx : Context) (onInts : Int → Int → Except Fault Value)
    (onSymbols : Value → Value → Inquiry Value) : Exec Unit :=
  binary ctx fun a b =>
    match both a b with
    | some (m, n) => ofExcept (onInts m n)
    | none => inquire ctx (onSymbols a.lift b.lift)

def div (ctx : Context) : Exec Unit := settle ctx Arithmetic.quotient .quotient

def mod (ctx : Context) : Exec Unit := settle ctx Arithmetic.remainder .remainder

def sdiv (ctx : Context) : Exec Unit := settle ctx Arithmetic.signedQuotient .signedQuotient

def smod (ctx : Context) : Exec Unit := settle ctx Arithmetic.signedRemainder .signedRemainder

def modular (ctx : Context) (onInts : Int → Int → Int) (onTerms : Term → Term → Term → Term) :
    Exec Unit := do
  need 3
  advance 1
  let a ← pop
  let b ← pop
  let m ← pop
  let v ← match a.toInt?, b.toInt?, m.toInt? with
    | some x, some y, some n => pure (.int (if n = 0 then 0 else (onInts x y).fmod n))
    | _, _, _ => inquire ctx (.modular onTerms a b m)
  push (ctx.simplify.value v)

def addMod (ctx : Context) : Exec Unit := modular ctx (· + ·) .addMod

def mulMod (ctx : Context) : Exec Unit := modular ctx (· * ·) .mulMod

def exp (ctx : Context) : Exec Unit :=
  binary ctx fun a b =>
    match both a b with
    | some (m, n) => do return .int (← ofExcept (wordPower m n))
    | none => do return .var (← fresh Names.freshArbitrary)

def signExtend (ctx : Context) : Exec Unit :=
  settle ctx (fun byte n => .ok (Arithmetic.signExtension byte n)) .signExtension

end Exec

end EvmAudit
