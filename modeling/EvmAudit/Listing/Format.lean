import EvmAudit.Fault
import EvmAudit.Text.Numeral

/-! The uniform writing of a listing: newer mnemonics by their older names, addresses without
leading zeros, an arrow before an operand. The first line, which holds the code itself, stays. -/

namespace EvmAudit.Listing

def renamings : List (String × String) :=
  [("SELFDESTRUCT", "SUICIDE"), ("Missing opcode 0xfd", "REVERT"),
    ("Missing opcode 0xfe", "ASSERTFAIL"), ("Missing opcode", "INVALID"), (":", "")]

def plainNames (line : String) : String :=
  renamings.foldl (fun s (old, new) => Text.replace old new s) line

def plainAddress (word : String) : String :=
  match Numeral.read 10 word with
  | some n => toString n
  | none => word

def stripBreaks (s : String) : String := Text.strip (· = '\n') s

/-- The words of a line. If there are more than two and the last is a number, an arrow stands
before it. -/
def plainWords (words : List String) : List String :=
  let words := match words with
    | [] => []
    | first :: rest => plainAddress first :: rest
  match words.reverse with
  | [] => []
  | last :: before =>
    let last := stripBreaks last
    if 2 < words.length && (Numeral.read 16 last).isSome then before.reverse ++ ["=>", last]
    else before.reverse ++ [last]

def plainLine (line : String) : String :=
  " ".intercalate (plainWords (Text.splitAt ' ' (plainNames line)))

def format (content : String) : Except Fault String :=
  match Text.lines content with
  | [] => .error .missingItem
  | first :: rest => .ok ("\n".intercalate (stripBreaks first :: rest.map plainLine) ++ "\n")

end EvmAudit.Listing
