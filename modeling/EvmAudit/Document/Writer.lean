import EvmAudit.Document.Basic
import EvmAudit.Double.Decimal
import EvmAudit.Text.Numeral

/-! Writing a document as ASCII text, on one line or indented. -/

namespace EvmAudit.Document

def unitText (n : Nat) : String :=
  let ds := (Nat.toDigits 16 n)
  "\\u" ++ String.ofList (List.replicate (4 - ds.length) '0' ++ ds)

def escaped (c : Char) : String :=
  if c = '"' then "\\\"" else if c = '\\' then "\\\\" else if c = '\n' then "\\n"
  else if c = '\r' then "\\r" else if c = '\t' then "\\t" else if c = '\x0c' then "\\f"
  else if c = '\x08' then "\\b"
  else
    let n := c.toNat
    if 32 ≤ n && n < 127 then c.toString
    else if n < 0x10000 then unitText n
    else unitText (0xd800 + (n - 0x10000) / 0x400) ++ unitText (0xdc00 + (n - 0x10000) % 0x400)

def quote (s : String) : String :=
  "\"" ++ s.toList.foldl (fun acc c => acc ++ escaped c) "" ++ "\""

def doubleText : Double → String
  | .nan => "NaN"
  | .infinite s => if s then "-Infinity" else "Infinity"
  | x => x.text

structure Layout where
  separator : String
  colon : String
  /-- Spaces of each level, when items stand on lines of their own. -/
  indent : Option Nat

def Layout.line : Layout := ⟨", ", ": ", none⟩

def Layout.indented (n : Nat) : Layout := ⟨",", ": ", some n⟩

def Layout.newline (l : Layout) (depth : Nat) : String :=
  match l.indent with
  | none => ""
  | some n => "\n" ++ String.ofList (List.replicate (n * depth) ' ')

mutual

def textAt (l : Layout) (depth : Nat) : Document → String
  | .null => "null"
  | .bool b => if b then "true" else "false"
  | .int n => toString n
  | .double x => doubleText x
  | .text s => quote s
  | .array [] => "[]"
  | .array (d :: ds) =>
    "[" ++ l.newline (depth + 1) ++ textAt l (depth + 1) d ++ itemsAt l (depth + 1) ds ++
      l.newline depth ++ "]"
  | .object [] => "\x7b\x7d"
  | .object ((name, d) :: ms) =>
    "\x7b" ++ l.newline (depth + 1) ++ quote name ++ l.colon ++ textAt l (depth + 1) d ++
      membersAt l (depth + 1) ms ++ l.newline depth ++ "\x7d"

def itemsAt (l : Layout) (depth : Nat) : List Document → String
  | [] => ""
  | d :: ds => l.separator ++ l.newline depth ++ textAt l depth d ++ itemsAt l depth ds

def membersAt (l : Layout) (depth : Nat) : List (String × Document) → String
  | [] => ""
  | (name, d) :: ms =>
    l.separator ++ l.newline depth ++ quote name ++ l.colon ++ textAt l depth d ++
      membersAt l depth ms

end

def write (l : Layout) (d : Document) : String := textAt l 0 d

def line (d : Document) : String := d.write .line

end EvmAudit.Document
