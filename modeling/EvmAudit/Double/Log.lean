import EvmAudit.Double.Basic

/-! Logarithms to base 256 as doubles give them: the quotient of two rounded natural logarithms,
which just under a power reaches the power's exponent. -/

namespace EvmAudit.Double

def logTwo : Rat :=
  mkRat 69314718055994530941723212145817656807550013436025525412068000949339362196969472
    (Nat.pow 10 80)

def logBelowOne (ε : Rat) : Rat := -(ε + ε * ε / 2 + ε * ε * ε / 3)

/-- Whether the quotient of logarithms of `q`, just under `256 ^ k`, comes out as `k`. -/
def reaches (k : Nat) (q : Rat) : Bool :=
  let power : Rat := ((Nat.pow 256 k : Nat) : Rat)
  let ε := (power - q) / power
  if ε * ((Nat.pow 2 40 : Nat) : Rat) < 1 then
    let top := ofRat false (8 * (k : Rat) * logTwo + logBelowOne ε)
    let unit := ofRat false (8 * logTwo)
    match (top.div unit).floor? with
    | some n => (k : Int) ≤ n
    | none => false
  else false

def log256 (n : Nat) : Nat :=
  let q := match ofInt? n with
    | some x => x.toRat
    | none => n
  let k := q.num.natAbs.log2 / 8
  if reaches (k + 1) q then k + 1 else k

end EvmAudit.Double
