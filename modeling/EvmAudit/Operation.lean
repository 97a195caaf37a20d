import EvmAudit.Text.Numeral

/-! Instructions by what they do, read from their text: the mnemonic, then an operand. -/

namespace EvmAudit

/-- What stands behind the mnemonic of a push. -/
inductive Operand where
  | value (n : Int)
  | missing
  | unreadable
  deriving DecidableEq, Repr, Inhabited

/-- The numbered families carry their number, when it can be read. -/
inductive Operation where
  | invalid | assertFail | stop
  | add | mul | sub | div | sdiv | mod | smod | addMod | mulMod | exp | signExtend
  | lt | gt | slt | sgt | eq | isZero | and | or | xor | not | byte
  | sha3
  | address | balance | caller | origin | callValue | callDataLoad | callDataSize | callDataCopy
  | codeSize | codeCopy | returnDataCopy | returnDataSize | gasPrice | extCodeSize | extCodeCopy
  | blockHash | coinbase | timestamp | number | difficulty | gasLimit
  | pop | mload | mstore | mstore8 | sload | sstore | jump | jumpIf | pc | msize | gas | jumpDest
  | push (width : Option Int) (operand : Operand)
  | dup (depth : Option Int)
  | swap (depth : Option Int)
  | log (topics : Nat)
  | create | call | callCode | delegateCall | staticCall | halt | revert | selfDestruct
  | unknown
  deriving DecidableEq, Repr, Inhabited

namespace Operation

def named : List (String × Operation) :=
  [("INVALID", invalid), ("ASSERTFAIL", assertFail), ("STOP", stop), ("ADD", add), ("MUL", mul),
    ("SUB", sub), ("DIV", div), ("SDIV", sdiv), ("MOD", mod), ("SMOD", smod), ("ADDMOD", addMod),
    ("MULMOD", mulMod), ("EXP", exp), ("SIGNEXTEND", signExtend), ("LT", lt), ("GT", gt),
    ("SLT", slt), ("SGT", sgt), ("EQ", eq), ("ISZERO", isZero), ("AND", and), ("OR", or),
    ("XOR", xor), ("NOT", not), ("BYTE", byte), ("SHA3", sha3), ("ADDRESS", address),
    ("BALANCE", balance), ("CALLER", caller), ("ORIGIN", origin), ("CALLVALUE", callValue),
    ("CALLDATALOAD", callDataLoad), ("CALLDATASIZE", callDataSize), ("CALLDATACOPY", callDataCopy),
    ("CODESIZE", codeSize), ("CODECOPY", codeCopy), ("RETURNDATACOPY", returnDataCopy),
    ("RETURNDATASIZE", returnDataSize), ("GASPRICE", gasPrice), ("EXTCODESIZE", extCodeSize),
    ("EXTCODECOPY", extCodeCopy), ("BLOCKHASH", blockHash), ("COINBASE", coinbase),
    ("TIMESTAMP", timestamp), ("NUMBER", number), ("DIFFICULTY", difficulty),
    ("GASLIMIT", gasLimit), ("POP", pop), ("MLOAD", mload), ("MSTORE", mstore),
    ("MSTORE8", mstore8), ("SLOAD", sload), ("SSTORE", sstore), ("JUMP", jump), ("JUMPI", jumpIf),
    ("PC", pc), ("MSIZE", msize), ("GAS", gas), ("JUMPDEST", jumpDest), ("LOG0", log 0),
    ("LOG1", log 1), ("LOG2", log 2), ("LOG3", log 3), ("LOG4", log 4), ("CREATE", create),
    ("CALL", call), ("CALLCODE", callCode), ("DELEGATECALL", delegateCall),
    ("STATICCALL", staticCall), ("RETURN", halt), ("REVERT", revert),
    ("SUICIDE", selfDestruct)]

def operandOf : List String → Operand
  | [] => .missing
  | text :: _ =>
    match Numeral.read 16 text with
    | some n => .value n
    | none => .unreadable

def suffix? (name family : String) : Option String :=
  (Text.dropStart? family.toList name.toList).map String.ofList

def ofWords (name : String) (rest : List String) : Operation :=
  match named.lookup name with
  | some op => op
  | none =>
    match suffix? name "PUSH", suffix? name "DUP", suffix? name "SWAP" with
    | some n, _, _ => push (Numeral.read 10 n) (operandOf rest)
    | _, some n, _ => dup (Numeral.read 10 n)
    | _, _, some n => swap (Numeral.read 10 n)
    | _, _, _ => unknown

end Operation

structure Instruction where
  name : String
  operation : Operation
  deriving DecidableEq, Repr, Inhabited

namespace Instruction

def ofName (name : String) : Instruction := ⟨name, .ofWords name []⟩

def ofText (text : String) : Instruction :=
  match Text.splitAt ' ' text with
  | [] => .ofName ""
  | name :: rest => ⟨name, .ofWords name rest⟩

end Instruction

end EvmAudit
