import EvmAudit.Text.Blank
import EvmAudit.Text.Digit

/-! Integers written in a base: blanks around, a sign, the mark of the base, and digits that may be
parted by single underscores. -/

namespace EvmAudit.Numeral

def digit? (base : Nat) (c : Char) : Option Nat :=
  let d :=
    if 'a' ≤ c && c ≤ 'z' then c.toNat - 87
    else if 'A' ≤ c && c ≤ 'Z' then c.toNat - 55
    else (Text.decimalValue? c).getD base
  if d < base then some d else none

def restDigits (base acc : Nat) : List Char → Option Nat
  | [] => some acc
  | '_' :: c :: cs => (digit? base c).bind fun d => restDigits base (acc * base + d) cs
  | c :: cs => (digit? base c).bind fun d => restDigits base (acc * base + d) cs

def digits (base : Nat) : List Char → Option Nat
  | [] => none
  | c :: cs => (digit? base c).bind fun d => restDigits base d cs

def markOf? : Nat → Option Char
  | 16 => some 'x'
  | 8 => some 'o'
  | 2 => some 'b'
  | _ => none

def dropMark (base : Nat) : List Char → List Char
  | '0' :: m :: cs =>
    if markOf? base = some m.toLower then
      match cs with
      | '_' :: cs => cs
      | cs => cs
    else '0' :: m :: cs
  | cs => cs

def decimalLimit : Nat := 4300

def tooLong (base : Nat) (cs : List Char) : Bool :=
  base == 10 && decide (decimalLimit < (cs.filter (· != '_')).length)

def magnitude (base : Nat) (cs : List Char) : Option Nat :=
  if tooLong base cs then none else digits base (dropMark base cs)

def read (base : Nat) (s : String) : Option Int :=
  match (Text.trim s).toList with
  | '-' :: cs => (magnitude base cs).map fun n => -(n : Int)
  | '+' :: cs => (magnitude base cs).map fun n => (n : Int)
  | cs => (magnitude base cs).map fun n => (n : Int)

/-- The base is told by the mark; a decimal numeral does not start with a superfluous zero. -/
def readMarked (s : String) : Option Int :=
  let value (cs : List Char) : Option Nat :=
    match cs with
    | '0' :: 'x' :: _ | '0' :: 'X' :: _ => magnitude 16 cs
    | '0' :: 'o' :: _ | '0' :: 'O' :: _ => magnitude 8 cs
    | '0' :: 'b' :: _ | '0' :: 'B' :: _ => magnitude 2 cs
    | '0' :: cs => (magnitude 10 ('0' :: cs)).bind fun n => if n = 0 then some 0 else none
    | cs => magnitude 10 cs
  match (Text.trim s).toList with
  | '-' :: cs => (value cs).map fun n => -(n : Int)
  | '+' :: cs => (value cs).map fun n => (n : Int)
  | cs => (value cs).map fun n => (n : Int)

def hexDigit (d : Nat) : Char := if d < 10 then Char.ofNat (48 + d) else Char.ofNat (87 + d)

def hexDigits (n : Nat) : String := String.ofList (Nat.toDigits 16 n)

def hex (n : Int) : String :=
  if n < 0 then "-0x" ++ hexDigits n.natAbs else "0x" ++ hexDigits n.natAbs

end EvmAudit.Numeral
