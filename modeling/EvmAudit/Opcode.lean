import EvmAudit.Text.Blank

/-! The instruction table: the byte of each mnemonic, how many items it takes from the stack and
puts on it, and its base fee. -/

namespace EvmAudit

structure Opcode where
  byte : Nat
  pops : Nat
  pushes : Nat
  /-- The mnemonic is one of a numbered family. -/
  numbered : Bool := false
  deriving DecidableEq, Repr, Inhabited

namespace Opcode

def table : List (String × Opcode) :=
  [("STOP", ⟨0x00, 0, 0, false⟩), ("ADD", ⟨0x01, 2, 1, false⟩), ("MUL", ⟨0x02, 2, 1, false⟩),
    ("SUB", ⟨0x03, 2, 1, false⟩), ("DIV", ⟨0x04, 2, 1, false⟩), ("SDIV", ⟨0x05, 2, 1, false⟩),
    ("MOD", ⟨0x06, 2, 1, false⟩), ("SMOD", ⟨0x07, 2, 1, false⟩), ("ADDMOD", ⟨0x08, 3, 1, false⟩),
    ("MULMOD", ⟨0x09, 3, 1, false⟩), ("EXP", ⟨0x0a, 2, 1, false⟩),
    ("SIGNEXTEND", ⟨0x0b, 2, 1, false⟩), ("LT", ⟨0x10, 2, 1, false⟩), ("GT", ⟨0x11, 2, 1, false⟩),
    ("SLT", ⟨0x12, 2, 1, false⟩), ("SGT", ⟨0x13, 2, 1, false⟩), ("EQ", ⟨0x14, 2, 1, false⟩),
    ("ISZERO", ⟨0x15, 1, 1, false⟩), ("AND", ⟨0x16, 2, 1, false⟩), ("OR", ⟨0x17, 2, 1, false⟩),
    ("XOR", ⟨0x18, 2, 1, false⟩), ("NOT", ⟨0x19, 1, 1, false⟩), ("BYTE", ⟨0x1a, 2, 1, false⟩),
    ("SHA3", ⟨0x20, 2, 1, false⟩), ("ADDRESS", ⟨0x30, 0, 1, false⟩),
    ("BALANCE", ⟨0x31, 1, 1, false⟩), ("ORIGIN", ⟨0x32, 0, 1, false⟩),
    ("CALLER", ⟨0x33, 0, 1, false⟩), ("CALLVALUE", ⟨0x34, 0, 1, false⟩),
    ("CALLDATALOAD", ⟨0x35, 1, 1, false⟩), ("CALLDATASIZE", ⟨0x36, 0, 1, false⟩),
    ("CALLDATACOPY", ⟨0x37, 3, 0, false⟩), ("CODESIZE", ⟨0x38, 0, 1, false⟩),
    ("CODECOPY", ⟨0x39, 3, 0, false⟩), ("GASPRICE", ⟨0x3a, 0, 1, false⟩),
    ("EXTCODESIZE", ⟨0x3b, 1, 1, false⟩), ("EXTCODECOPY", ⟨0x3c, 4, 0, false⟩),
    ("MCOPY", ⟨0x3d, 3, 0, false⟩), ("BLOCKHASH", ⟨0x40, 1, 1, false⟩),
    ("COINBASE", ⟨0x41, 0, 1, false⟩), ("TIMESTAMP", ⟨0x42, 0, 1, false⟩),
    ("NUMBER", ⟨0x43, 0, 1, false⟩), ("DIFFICULTY", ⟨0x44, 0, 1, false⟩),
    ("GASLIMIT", ⟨0x45, 0, 1, false⟩), ("POP", ⟨0x50, 1, 0, false⟩),
    ("MLOAD", ⟨0x51, 1, 1, false⟩), ("MSTORE", ⟨0x52, 2, 0, false⟩),
    ("MSTORE8", ⟨0x53, 2, 0, false⟩), ("SLOAD", ⟨0x54, 1, 1, false⟩),
    ("SSTORE", ⟨0x55, 2, 0, false⟩), ("JUMP", ⟨0x56, 1, 0, false⟩),
    ("JUMPI", ⟨0x57, 2, 0, false⟩), ("PC", ⟨0x58, 0, 1, false⟩), ("MSIZE", ⟨0x59, 0, 1, false⟩),
    ("GAS", ⟨0x5a, 0, 1, false⟩), ("JUMPDEST", ⟨0x5b, 0, 0, false⟩),
    ("SLOADEXT", ⟨0x5c, 2, 1, false⟩), ("SSTOREEXT", ⟨0x5d, 3, 0, false⟩),
    ("SLOADBYTESEXT", ⟨0x5c, 4, 0, false⟩), ("SSTOREBYTESEXT", ⟨0x5d, 4, 0, false⟩),
    ("LOG0", ⟨0xa0, 2, 0, false⟩), ("LOG1", ⟨0xa1, 3, 0, false⟩), ("LOG2", ⟨0xa2, 4, 0, false⟩),
    ("LOG3", ⟨0xa3, 5, 0, false⟩), ("LOG4", ⟨0xa4, 6, 0, false⟩),
    ("CREATE", ⟨0xf0, 3, 1, false⟩), ("CALL", ⟨0xf1, 7, 1, false⟩),
    ("CALLCODE", ⟨0xf2, 7, 1, false⟩), ("RETURN", ⟨0xf3, 2, 0, false⟩),
    ("REVERT", ⟨0xfd, 2, 0, false⟩), ("ASSERTFAIL", ⟨0xfe, 0, 0, false⟩),
    ("DELEGATECALL", ⟨0xf4, 6, 1, false⟩), ("BREAKPOINT", ⟨0xf5, 0, 0, false⟩),
    ("RNGSEED", ⟨0xf6, 1, 1, false⟩), ("SSIZEEXT", ⟨0xf7, 2, 1, false⟩),
    ("SLOADBYTES", ⟨0xf8, 3, 0, false⟩), ("SSTOREBYTES", ⟨0xf9, 3, 0, false⟩),
    ("SSIZE", ⟨0xfa, 1, 1, false⟩), ("STATEROOT", ⟨0xfb, 1, 1, false⟩),
    ("TXEXECGAS", ⟨0xfc, 0, 1, false⟩), ("CALLSTATIC", ⟨0xfd, 7, 1, false⟩),
    ("INVALID", ⟨0xfe, 0, 0, false⟩), ("SUICIDE", ⟨0xff, 1, 0, false⟩),
    ("---END---", ⟨0x00, 0, 0, false⟩)]

def family (name : String) (count : Nat) (entry : Nat → Opcode) : List (String × Opcode) :=
  (List.range count).map fun i => (name ++ toString (i + 1), entry i)

def numberedTable : List (String × Opcode) :=
  family "PUSH" 32 (fun i => ⟨0x60 + i, 0, 1, true⟩) ++
    family "DUP" 16 (fun i => ⟨0x80 + i, i + 1, i + 2, true⟩) ++
    family "SWAP" 16 (fun i => ⟨0x90 + i, i + 2, i + 2, true⟩)

def ofName? (name : String) : Option Opcode :=
  (table ++ numberedTable).lookup name

end Opcode

/-! The fee schedule: the fees that are charged. -/
namespace Fee

def zero : Int := 0
def base : Int := 2
def veryLow : Int := 3
def low : Int := 5
def mid : Int := 8
def high : Int := 10
def extCode : Int := 20
def balance : Int := 400
def sload : Int := 50
def jumpDest : Int := 1
def storageSet : Int := 20000
def storageReset : Int := 5000
def create : Int := 32000
def call : Int := 40
def callValue : Int := 9000
def newAccount : Int := 25000
def exp : Int := 10
def expByte : Int := 10
def memory : Int := 3
def log : Int := 375
def logData : Int := 8
def logTopic : Int := 375
def sha3 : Int := 30
def copy : Int := 3
def blockHash : Int := 20

def zeroNames : List String := ["STOP", "RETURN", "REVERT", "ASSERTFAIL"]

def baseNames : List String :=
  ["ADDRESS", "ORIGIN", "CALLER", "CALLVALUE", "CALLDATASIZE", "CODESIZE", "GASPRICE", "COINBASE",
    "TIMESTAMP", "NUMBER", "DIFFICULTY", "GASLIMIT", "POP", "PC", "MSIZE", "GAS"]

def veryLowNames : List String :=
  ["ADD", "SUB", "NOT", "LT", "GT", "SLT", "SGT", "EQ", "ISZERO", "AND", "OR", "XOR", "BYTE",
    "CALLDATALOAD", "MLOAD", "MSTORE", "MSTORE8", "PUSH", "DUP", "SWAP"]

def lowNames : List String := ["MUL", "DIV", "SDIV", "MOD", "SMOD", "SIGNEXTEND"]

def midNames : List String := ["ADDMOD", "MULMOD", "JUMP"]

def single : List (String × Int) :=
  [("EXP", exp), ("SLOAD", sload), ("JUMPDEST", jumpDest), ("SHA3", sha3), ("CREATE", create),
    ("CALL", call), ("CALLCODE", call), ("LOG0", log), ("LOG1", log + logTopic),
    ("LOG2", log + 2 * logTopic), ("LOG3", log + 3 * logTopic), ("LOG4", log + 4 * logTopic),
    ("EXTCODECOPY", extCode), ("CALLDATACOPY", veryLow), ("CODECOPY", veryLow),
    ("BALANCE", balance), ("BLOCKHASH", blockHash)]

/-- The base fee of a mnemonic. The two classes with one member each cover every piece of that
member's name as well, the empty name included; a name outside all classes is free. -/
def ofName (name : String) : Int :=
  if zeroNames.contains name then zero
  else if baseNames.contains name then base
  else if veryLowNames.contains name || Text.startsWith name "PUSH" ||
      Text.startsWith name "DUP" || Text.startsWith name "SWAP" then veryLow
  else if lowNames.contains name then low
  else if midNames.contains name then mid
  else if Text.contains name "JUMPI" then high
  else if Text.contains name "EXTCODESIZE" then extCode
  else (single.lookup name).getD 0

end Fee

end EvmAudit
