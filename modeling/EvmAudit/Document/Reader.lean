import EvmAudit.Document.Basic
import EvmAudit.Text.Numeral

/-! Reading a document from its text. A reader returns what it read and the rest of the text; fuel
is the length of the text, as every step takes at least one character. -/

namespace EvmAudit.Document

def isSpace (c : Char) : Bool := c == ' ' || c == '\t' || c == '\n' || c == '\r'

def skipSpace (cs : List Char) : List Char := cs.dropWhile isSpace

def unit? : List Char → Option (Nat × List Char)
  | a :: b :: c :: d :: rest => do
    let a ← Numeral.digit? 16 a
    let b ← Numeral.digit? 16 b
    let c ← Numeral.digit? 16 c
    let d ← Numeral.digit? 16 d
    some (((a * 16 + b) * 16 + c) * 16 + d, rest)
  | _ => none

/-- The character of a code unit; a half of a pair that stands alone becomes the replacement
character. -/
def charOf (n : Nat) : Char := if n.isValidChar then Char.ofNat n else '�'

def joined? (high : Nat) : List Char → Option (Char × List Char)
  | '\\' :: 'u' :: rest =>
    match unit? rest with
    | some (low, rest) =>
      if 0xdc00 ≤ low && low < 0xe000 then
        some (charOf (0x10000 + (high - 0xd800) * 0x400 + (low - 0xdc00)), rest)
      else none
    | none => none
  | _ => none

def escape? : List Char → Option (Char × List Char)
  | '"' :: rest => some ('"', rest)
  | '\\' :: rest => some ('\\', rest)
  | '/' :: rest => some ('/', rest)
  | 'b' :: rest => some ('\x08', rest)
  | 'f' :: rest => some ('\x0c', rest)
  | 'n' :: rest => some ('\n', rest)
  | 'r' :: rest => some ('\r', rest)
  | 't' :: rest => some ('\t', rest)
  | 'u' :: rest =>
    match unit? rest with
    | none => none
    | some (n, rest) =>
      if 0xd800 ≤ n && n < 0xdc00 then some ((joined? n rest).getD (charOf n, rest))
      else some (charOf n, rest)
  | _ => none

def quoted (acc : List Char) : Nat → List Char → Option (String × List Char)
  | 0, _ => none
  | fuel + 1, cs =>
    match cs with
    | [] => none
    | '"' :: rest => some (String.ofList acc.reverse, rest)
    | '\\' :: rest =>
      match escape? rest with
      | some (c, rest) => quoted (c :: acc) fuel rest
      | none => none
    | c :: rest => if c.toNat < 32 then none else quoted (c :: acc) fuel rest

def natOf (cs : List Char) : Nat := cs.foldl (fun n c => 10 * n + (c.toNat - 48)) 0

def isDigit (c : Char) : Bool := '0' ≤ c && c ≤ '9'

/-- `digits · 10 ^ power`, rounded; powers far outside the range of doubles need not be taken. -/
def doubleOf (negative : Bool) (digits : Nat) (power : Int) : Double :=
  if digits = 0 then .zero negative
  else if power + (digits.log2 : Int) > 5000 then .infinite negative
  else if power + (digits.log2 : Int) < -5000 then .zero negative
  else match power with
    | .ofNat k => .ofRatio negative (digits * Nat.pow 10 k) 1
    | .negSucc k => .ofRatio negative digits (Nat.pow 10 (k + 1))

def exponent? : List Char → Option (Int × List Char)
  | e :: cs =>
    if e == 'e' || e == 'E' then
      let (negative, cs) := match cs with
        | '-' :: cs => (true, cs)
        | '+' :: cs => (false, cs)
        | cs => (false, cs)
      let ds := cs.takeWhile isDigit
      if ds.isEmpty then none
      else
        let n : Int := natOf (ds.take 12)
        some (if negative then -n else n, cs.dropWhile isDigit)
    else none
  | [] => none

def fraction? : List Char → Option (List Char × List Char)
  | '.' :: cs =>
    let ds := cs.takeWhile isDigit
    if ds.isEmpty then none else some (ds, cs.dropWhile isDigit)
  | _ => none

def number? (cs : List Char) : Option (Document × List Char) :=
  let (negative, cs) := match cs with
    | '-' :: cs => (true, cs)
    | cs => (false, cs)
  let whole := match cs with
    | '0' :: _ => ['0']
    | cs => cs.takeWhile isDigit
  if whole.isEmpty then none
  else
    let rest := cs.drop whole.length
    let (places, afterFraction) := (fraction? rest).getD ([], rest)
    match exponent? afterFraction with
    | some (power, rest) =>
      some (.double (doubleOf negative (natOf (whole ++ places)) (power - places.length)), rest)
    | none =>
      if places.isEmpty then
        let n : Int := natOf whole
        some (.int (if negative then -n else n), rest)
      else
        some (.double (doubleOf negative (natOf (whole ++ places)) (-(places.length : Int))),
          afterFraction)

def literals : List (String × Document) :=
  [("null", .null), ("true", .bool true), ("false", .bool false), ("NaN", .double .nan),
    ("Infinity", .double (.infinite false)), ("-Infinity", .double (.infinite true))]

def literal? (cs : List Char) : Option (Document × List Char) :=
  literals.findSome? fun (name, d) => (Text.dropStart? name.toList cs).map fun rest => (d, rest)

mutual

def value? : Nat → List Char → Option (Document × List Char)
  | 0, _ => none
  | fuel + 1, cs =>
    match cs with
    | '"' :: rest => (quoted [] fuel rest).map fun (s, rest) => (.text s, rest)
    | '[' :: rest =>
      match skipSpace rest with
      | ']' :: rest => some (.array [], rest)
      | rest => elements? [] fuel rest
    | '\x7b' :: rest =>
      match skipSpace rest with
      | '\x7d' :: rest => some (.object [], rest)
      | rest => members? [] fuel rest
    | cs => (literal? cs).orElse fun _ => number? cs

def elements? (acc : List Document) : Nat → List Char → Option (Document × List Char)
  | 0, _ => none
  | fuel + 1, cs =>
    match value? fuel (skipSpace cs) with
    | none => none
    | some (d, rest) =>
      match skipSpace rest with
      | ',' :: rest => elements? (d :: acc) fuel rest
      | ']' :: rest => some (.array (d :: acc).reverse, rest)
      | _ => none

def members? (acc : List (String × Document)) : Nat → List Char → Option (Document × List Char)
  | 0, _ => none
  | fuel + 1, cs =>
    match skipSpace cs with
    | '"' :: rest =>
      match quoted [] fuel rest with
      | none => none
      | some (name, rest) =>
        match skipSpace rest with
        | ':' :: rest =>
          match value? fuel (skipSpace rest) with
          | none => none
          | some (d, rest) =>
            match skipSpace rest with
            | ',' :: rest => members? (put name d acc) fuel rest
            | '\x7d' :: rest => some (.object (put name d acc), rest)
            | _ => none
        | _ => none
    | _ => none

end

def read? (s : String) : Option Document :=
  let cs := s.toList
  match value? (cs.length + 1) (skipSpace cs) with
  | some (d, rest) => if (skipSpace rest).isEmpty then some d else none
  | none => none

def read (s : String) : Except Fault Document :=
  match read? s with
  | some d => .ok d
  | none => .error .badDocument

end EvmAudit.Document
