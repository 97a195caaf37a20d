import EvmAudit.Text.Numeral

/-! Texts in quotes, as they stand in printed collections. -/

namespace EvmAudit.Text

def padded (width : Nat) (digits : String) : String :=
  "".pushn '0' (width - digits.length) ++ digits

def isHidden (c : Char) : Bool :=
  let n := c.toNat
  n < 32 || (127 ≤ n && n ≤ 160) || n == 0xad || (0x2000 ≤ n && n ≤ 0x200f) ||
    (0x2028 ≤ n && n ≤ 0x202f) || (0x205f ≤ n && n ≤ 0x206f) || n == 0x3000 || n == 0xfeff ||
    (0xe000 ≤ n && n ≤ 0xf8ff) || 0xe0000 ≤ n

def quotedChar (quote c : Char) : String :=
  if c = quote || c = '\\' then "\\" ++ c.toString
  else if c = '\n' then "\\n"
  else if c = '\r' then "\\r"
  else if c = '\t' then "\\t"
  else if isHidden c then
    let digits := Numeral.hexDigits c.toNat
    if c.toNat < 0x100 then "\\x" ++ padded 2 digits
    else if c.toNat < 0x10000 then "\\u" ++ padded 4 digits
    else "\\U" ++ padded 8 digits
  else c.toString

/-- Single quotes surround a text, unless it holds single quotes and no double ones. -/
def quoted (s : String) : String :=
  let single := Char.ofNat 39
  let quote := if s.toList.contains single && !s.toList.contains '"' then '"' else single
  quote.toString ++ String.join (s.toList.map (quotedChar quote)) ++ quote.toString

def quotedList (xs : List String) : String := "[" ++ ", ".intercalate (xs.map quoted) ++ "]"

end EvmAudit.Text
