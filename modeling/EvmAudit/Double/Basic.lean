/-! Double-precision numbers as signed multiples of powers of two. Every operation takes the exact
rational result and rounds it to the nearest double, ties to the even mantissa. -/

namespace EvmAudit

/-- `finite s m e` is `m · 2 ^ e`, negated when `s` holds; results of the operations below have a
mantissa under `2 ^ 53` and an exponent of at least `-1074`. -/
inductive Double where
  | finite (negative : Bool) (mantissa : Nat) (exponent : Int)
  | infinite (negative : Bool)
  | nan
  deriving DecidableEq, Hashable, Inhabited

def roundDiv (num den : Nat) : Nat :=
  let q := num / den
  let r := num % den
  if den < 2 * r ∨ (den = 2 * r ∧ q % 2 = 1) then q + 1 else q

namespace Double

def zero (negative : Bool) : Double := .finite negative 0 (-1074)

def scaled (num den : Nat) (e : Int) : Nat :=
  match e with
  | .ofNat k => roundDiv num (den * Nat.pow 2 k)
  | .negSucc k => roundDiv (num * Nat.pow 2 (k + 1)) den

/-- The exponent that leaves 53 bits before the point, bounded by the least one. -/
def exponentFor (num den : Nat) : Int :=
  let guess : Int := (num.log2 : Int) - den.log2 - 52
  let below : Bool := match guess with
    | .ofNat k => num < den * Nat.pow 2 k * Nat.pow 2 52
    | .negSucc k => num * Nat.pow 2 (k + 1) < den * Nat.pow 2 52
  max (if below then guess - 1 else guess) (-1074)

def ofRatio (negative : Bool) (num den : Nat) : Double :=
  if num = 0 then zero negative
  else
    let e := exponentFor num den
    let m := scaled num den e
    let (m, e) := if m = Nat.pow 2 53 then (Nat.pow 2 52, e + 1) else (m, e)
    if e > 971 then .infinite negative else .finite negative m e

def ofRat (negative : Bool) (q : Rat) : Double :=
  if q.num = 0 then zero negative else ofRatio (q.num < 0) q.num.natAbs q.den

def pow2 (e : Int) : Rat :=
  match e with
  | .ofNat k => ((Nat.pow 2 k : Nat) : Rat)
  | .negSucc k => mkRat 1 (Nat.pow 2 (k + 1))

def toRat : Double → Rat
  | .finite s m e => (if s then -1 else 1) * (m : Rat) * pow2 e
  | _ => 0

def isNegative : Double → Bool
  | .finite s _ _ => s
  | .infinite s => s
  | .nan => false

def isZero : Double → Bool
  | .finite _ m _ => m == 0
  | _ => false

def neg : Double → Double
  | .finite s m e => .finite (!s) m e
  | .infinite s => .infinite !s
  | .nan => .nan

def abs : Double → Double
  | .finite _ m e => .finite false m e
  | .infinite _ => .infinite false
  | .nan => .nan

def add : Double → Double → Double
  | .nan, _ | _, .nan => .nan
  | .infinite s, .infinite t => if s = t then .infinite s else .nan
  | .infinite s, _ => .infinite s
  | _, .infinite t => .infinite t
  | x, y => ofRat (x.isNegative && y.isNegative) (x.toRat + y.toRat)

def sub (x y : Double) : Double := add x y.neg

def mul (x y : Double) : Double :=
  let s := x.isNegative != y.isNegative
  match x, y with
  | .nan, _ | _, .nan => .nan
  | .infinite _, y => if y.isZero then .nan else .infinite s
  | x, .infinite _ => if x.isZero then .nan else .infinite s
  | x, y => ofRat s (x.toRat * y.toRat)

def div (x y : Double) : Double :=
  let s := x.isNegative != y.isNegative
  match x, y with
  | .nan, _ | _, .nan => .nan
  | .infinite _, .infinite _ => .nan
  | .infinite _, _ => .infinite s
  | _, .infinite _ => zero s
  | x, y => if y.isZero then .nan else ofRat s (x.toRat / y.toRat)

def truncRat (q : Rat) : Int := q.num.tdiv q.den

def mod (x y : Double) : Double :=
  match x, y with
  | .nan, _ | _, .nan => .nan
  | .infinite _, _ => .nan
  | x, .infinite t =>
    if x.isZero then zero t else if x.isNegative = t then x else .infinite t
  | x, y =>
    if y.isZero then .nan
    else
      let r := x.toRat - truncRat (x.toRat / y.toRat) * y.toRat
      if r.num = 0 then zero y.isNegative
      else if (r.num < 0) = (y.isNegative = true) then ofRat false r
      else add (ofRat false r) y

def compare? : Double → Double → Option Ordering
  | .nan, _ | _, .nan => none
  | .infinite s, .infinite t => some (if s = t then .eq else if s then .lt else .gt)
  | .infinite s, _ => some (if s then .lt else .gt)
  | _, .infinite t => some (if t then .gt else .lt)
  | x, y =>
    let a := x.toRat
    let b := y.toRat
    some (if a < b then .lt else if a = b then .eq else .gt)

def ofInt? (n : Int) : Option Double :=
  match ofRatio (n < 0) n.natAbs 1 with
  | .infinite _ => none
  | x => some x

/-- The nearest double to a quotient of integers, unless it is out of range. -/
def ofQuotient? (a b : Int) : Option Double :=
  match ofRatio ((a < 0) != (b < 0)) a.natAbs b.natAbs with
  | .infinite _ => none
  | x => some x

def toBits : Double → Nat
  | .finite s m e =>
    let sign := if s then Nat.pow 2 63 else 0
    if m < Nat.pow 2 52 then sign + m
    else sign + (e + 1075).toNat * Nat.pow 2 52 + (m - Nat.pow 2 52)
  | .infinite s => (if s then Nat.pow 2 63 else 0) + 2047 * Nat.pow 2 52
  | .nan => 2047 * Nat.pow 2 52 + Nat.pow 2 51

def ofBits (bits : Nat) : Double :=
  let s := bits / Nat.pow 2 63 % 2 = 1
  let e : Nat := bits / Nat.pow 2 52 % Nat.pow 2 11
  let m := bits % Nat.pow 2 52
  if e = 2047 then (if m = 0 then .infinite s else .nan)
  else if e = 0 then .finite s m (-1074)
  else .finite s (m + Nat.pow 2 52) ((e : Int) - 1075)

def trunc? : Double → Option Int
  | .finite s m e => some (truncRat (toRat (.finite s m e)))
  | _ => none

def ceil? : Double → Option Int
  | .finite s m e => some (toRat (.finite s m e)).ceil
  | _ => none

def floor? : Double → Option Int
  | .finite s m e => some (toRat (.finite s m e)).floor
  | _ => none

/-- The nearest double to the value rounded to `places` decimals, a half to the even neighbour. -/
def roundPlaces (places : Nat) : Double → Double
  | .finite s m e =>
    let q := (toRat (.finite false m e)) * ((Nat.pow 10 places : Nat) : Rat)
    ofRatio s (roundDiv q.num.natAbs q.den) (Nat.pow 10 places)
  | x => x

end Double

end EvmAudit
