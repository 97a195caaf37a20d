import EvmAudit.Double.Basic

/-! The shortest decimal that reads back as the same double, and its two notations. -/

namespace EvmAudit

structure Decimal where
  digits : Nat
  exponent : Int
  deriving DecidableEq

namespace Decimal

def toRat (d : Decimal) : Rat :=
  match d.exponent with
  | .ofNat k => ((d.digits * Nat.pow 10 k : Nat) : Rat)
  | .negSucc k => mkRat d.digits (Nat.pow 10 (k + 1))

def trim : Nat → Decimal → Decimal
  | 0, d => d
  | fuel + 1, d =>
    if d.digits ≠ 0 ∧ d.digits % 10 = 0 then trim fuel ⟨d.digits / 10, d.exponent + 1⟩ else d

end Decimal

def decimalDigits (n : Nat) : String := toString n

namespace Double

def leadingPower (q : Rat) : Int :=
  let guess : Int := ((decimalDigits q.num.natAbs).length : Int) - (decimalDigits q.den).length
  if q < (Decimal.mk 1 guess).toRat then guess - 1 else guess

/-- Of the two neighbours of `q` with `n` digits, the nearer one that reads back as `x`. -/
def candidate? (x : Double) (q : Rat) (power : Int) (n : Nat) : Option Decimal :=
  let e := power - (n - 1 : Int)
  let unit := (Decimal.mk 1 e).toRat
  let low := (q / unit).floor.toNat
  let reads (d : Decimal) : Bool := ofRat false d.toRat = x
  let lower : Decimal := ⟨low, e⟩
  let upper : Decimal := ⟨low + 1, e⟩
  let nearLower := q - lower.toRat ≤ upper.toRat - q
  let (first, second) := if nearLower then (lower, upper) else (upper, lower)
  if reads first then some first else if reads second then some second else none

def shortest (x : Double) : Decimal :=
  let q := x.toRat
  let power := leadingPower q
  let found := (List.range 17).findSome? fun i => candidate? x q power (i + 1)
  (found.getD ⟨0, 0⟩).trim 20

def zeros (n : Nat) : String := String.ofList (List.replicate n '0')

/-- Digits with the point behind the first `point` of them; at least one digit on each side. -/
def positional (digits : String) (point : Int) : String :=
  let n : Int := digits.length
  if point ≤ 0 then "0." ++ zeros (-point).toNat ++ digits
  else if n ≤ point then digits ++ zeros (point - n).toNat ++ ".0"
  else (digits.take point.toNat).toString ++ "." ++ (digits.drop point.toNat).toString

def twoDigits (n : Nat) : String :=
  if n < 10 then "0" ++ decimalDigits n else decimalDigits n

def scientific (digits : String) (power : Int) : String :=
  let head := (digits.take 1).toString
  let tail := (digits.drop 1).toString
  head ++ (if tail.isEmpty then "" else "." ++ tail) ++ "e" ++
    (if power < 0 then "-" else "+") ++ twoDigits power.natAbs

/-- Positional between a ten-thousandth and ten to the sixteenth, scientific outside. -/
def text : Double → String
  | .nan => "nan"
  | .infinite s => if s then "-inf" else "inf"
  | .finite s m e =>
    let sign := if s then "-" else ""
    if m = 0 then sign ++ "0.0"
    else
      let d := shortest (.finite false m e)
      let digits := decimalDigits d.digits
      let power : Int := d.exponent + digits.length - 1
      sign ++ if -4 ≤ power ∧ power < 16 then positional digits (power + 1)
        else scientific digits power

end Double

end EvmAudit
