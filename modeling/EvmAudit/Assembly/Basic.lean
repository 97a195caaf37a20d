import EvmAudit.Document.Basic
import EvmAudit.Opcode
import EvmAudit.Text.Quoted

/-! Programs in assembly: lines laid out at their places, and written as code and as a listing. -/

namespace EvmAudit.Assembly

structure Line where
  mnemonic : String
  argument : Document := .null
  deriving Inhabited

abbrev Lines := List Line

def argumentSize (mnemonic : String) : Nat :=
  match Text.dropStart? "PUSH".toList mnemonic.toList with
  | some digits => ((Numeral.read 10 (String.ofList digits)).getD 0).toNat
  | none => 0

def Line.size (l : Line) : Nat := 1 + argumentSize l.mnemonic

def Lines.size (p : Lines) : Nat := p.foldl (fun n l => n + l.size) 0

def layoutFrom (place : Nat) : Lines → List (Nat × Line)
  | [] => []
  | l :: rest => (place, l) :: layoutFrom (place + l.size) rest

def Lines.layout (p : Lines) : List (Nat × Line) := layoutFrom 0 p

def Lines.placeOf (p : Lines) (mnemonic : String) : Except Fault Nat :=
  match p.layout.reverse.find? fun (_, l) => l.mnemonic = mnemonic with
  | some (place, _) => .ok place
  | none => .error .missingKey

def laterBytes : List (String × Nat) :=
  [("RETURNDATASIZE", 0x3d), ("RETURNDATACOPY", 0x3e), ("STATICCALL", 0xfa)]

def byteOf (mnemonic : String) : Except Fault Nat :=
  match Opcode.ofName? mnemonic, laterBytes.lookup mnemonic with
  | some o, _ => .ok o.byte
  | none, some b => .ok b
  | none, none => .error (.badOpcode mnemonic)

def wideHex (width : Nat) (n : Int) : String :=
  let digits := Numeral.hexDigits n.natAbs
  if n < 0 then "-" ++ Text.padded (width - 1) digits else Text.padded width digits

def argumentOf : Document → Except Fault Int
  | .text s => (Numeral.read 16 s).elim (.error .badNumeral) .ok
  | _ => .error .unsupportedOperand

def Line.code (l : Line) : Except Fault String := do
  let byte := wideHex 2 (← byteOf l.mnemonic)
  match argumentSize l.mnemonic with
  | 0 => return byte
  | n => return byte ++ wideHex (2 * n) (← argumentOf l.argument)

def Lines.code (p : Lines) : Except Fault String := do
  return String.join (← p.mapM Line.code)

def argumentText : Document → String
  | .null => ""
  | .text s => " " ++ s
  | .int n => " " ++ toString n
  | _ => ""

def listingLine (row : Nat × Line) : String :=
  Text.padded 5 (toString row.1) ++ ": " ++ row.2.mnemonic ++ argumentText row.2.argument ++ "\n"

def Lines.listing (p : Lines) : Except Fault String := do
  return (← p.code) ++ "\n" ++ String.join (p.layout.map listingLine)

end EvmAudit.Assembly
