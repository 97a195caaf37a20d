/-! The 256-bit words of the machine, with the division and shift conventions of the theory of
bit-vectors: every operation is total. -/

namespace EvmAudit

abbrev Word := BitVec 256

namespace Word

def count : Nat := Nat.pow 2 256

def signBound : Nat := Nat.pow 2 255

def ones : Word := BitVec.allOnes 256

def shiftLeft (a b : Word) : Word :=
  if b.toNat < 256 then a <<< b.toNat else 0

def shiftRight (a b : Word) : Word :=
  if b.toNat < 256 then a >>> b.toNat else 0

/-- The sign fills the vacated places, and all of them once the amount reaches the width. -/
def shiftRightSigned (a b : Word) : Word :=
  a.sshiftRight (min b.toNat 255)

/-- The sum is taken in double width, so it does not wrap; its remainder is the signed one. -/
def addMod (a b m : Word) : Word :=
  ((a.setWidth 512 + b.setWidth 512).smod (m.setWidth 512)).setWidth 256

/-- The product is taken in double width, so it does not wrap; its remainder is the unsigned one. -/
def mulMod (a b m : Word) : Word :=
  ((a.setWidth 512 * b.setWidth 512).umod (m.setWidth 512)).setWidth 256

end Word

end EvmAudit
