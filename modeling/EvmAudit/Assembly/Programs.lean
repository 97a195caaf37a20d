import EvmAudit.Assembly.Basic

/-! Sample programs: arithmetic on numbers and on call data, the environment and memory, and
branches that end in transfers. -/

namespace EvmAudit.Assembly

def push (argument : String) : Line := ⟨"PUSH1", .text argument⟩

def pushPlace (place : Nat) : Line := ⟨"PUSH2", .text ("0x" ++ wideHex 4 place)⟩

def plain (mnemonics : List String) : Lines := mnemonics.map fun m => ⟨m, .null⟩

def binaryNames : List String :=
  ["ADD", "MUL", "SUB", "DIV", "SDIV", "MOD", "SMOD", "EXP", "SIGNEXTEND", "LT", "GT", "SLT", "SGT",
    "EQ", "AND", "OR", "XOR"]

def arithmeticOn (pair : Nat × Nat) : Lines :=
  let a := push (Numeral.hex pair.1)
  let b := push (Numeral.hex pair.2)
  binaryNames.flatMap (fun m => [a, b] ++ plain [m, "POP"]) ++
    ["ISZERO", "NOT"].flatMap (fun m => b :: plain [m, "POP"]) ++
    ["ADDMOD", "MULMOD"].flatMap (fun m => [a, b, push "0x07"] ++ plain [m, "POP"]) ++
    [⟨"PUSH2", .text "0x1234"⟩, push "0x01"] ++ plain ["BYTE", "POP"]

def arithmeticBody : Lines := [(3, 5), (7, 0), (1, 32)].flatMap arithmeticOn

def dataAt (offset : String) : Lines := push offset :: plain ["CALLDATALOAD"]

def symbolicNames : List String :=
  ["ADD", "MUL", "SUB", "DIV", "MOD", "EXP", "SIGNEXTEND", "LT", "GT", "SLT", "SGT", "EQ", "AND",
    "OR", "XOR", "BYTE"]

def symbolicBody : Lines :=
  let x := dataAt "0x00"
  let y := dataAt "0x20"
  symbolicNames.flatMap (fun m => x ++ y ++ plain [m, "POP"]) ++
    ["ISZERO", "NOT"].flatMap (fun m => x ++ plain [m, "POP"]) ++
    ["ADDMOD", "MULMOD"].flatMap (fun m => x ++ y ++ dataAt "0x40" ++ plain [m, "POP"]) ++
    ["SDIV", "SMOD"].flatMap (fun m => push "0x03" :: x ++ plain [m, "POP"]) ++
    ["ADD", "SUB"].flatMap fun m =>
      push "0x05" :: x ++ plain [m, "POP"] ++ x ++ [push "0x05"] ++ plain [m, "POP"]

def environment : Lines :=
  ["ADDRESS", "ORIGIN", "CALLER", "CALLVALUE", "CALLDATASIZE", "GASPRICE", "COINBASE", "TIMESTAMP",
    "NUMBER", "DIFFICULTY", "GASLIMIT", "PC", "GAS", "RETURNDATASIZE"].flatMap
      (fun m => plain [m, "POP"]) ++
    plain ["CALLER", "BALANCE", "POP"] ++ push "0x01" :: plain ["BALANCE", "POP"] ++
    push "0x01" :: plain ["BLOCKHASH", "POP"] ++ plain ["CALLER", "EXTCODESIZE", "POP"]

def memory : Lines :=
  let hash := [push "0x20", push "0x00"] ++ plain ["SHA3", "POP"]
  [push "0xab", push "0x00"] ++ plain ["MSTORE"] ++
    [push "0xcd", push "0x20"] ++ plain ["MSTORE8"] ++ push "0x00" :: plain ["MLOAD", "POP"] ++
    plain ["MSIZE", "POP"] ++ hash ++ hash ++ plain ["CALLVALUE", "CALLER", "MSTORE"] ++
    plain ["CALLVALUE", "CALLER", "MSTORE8"] ++ plain ["CALLER", "MLOAD", "POP"] ++
    plain ["CALLDATASIZE", "CALLER", "SHA3", "POP"]

def storage : Lines :=
  [push "0x2a", push "0x00"] ++ plain ["SSTORE"] ++ push "0x00" :: plain ["SLOAD", "POP"] ++
    plain ["CALLER", "SLOAD", "POP"] ++ plain ["CALLVALUE", "CALLER", "SSTORE"] ++
    plain ["CALLVALUE"] ++ push "0x03" :: plain ["SSTORE"] ++
    [push "0x00", push "0x04"] ++ plain ["SSTORE"]

def copies : Lines :=
  let four := [push "0x04", push "0x00"]
  four ++ push "0x00" :: plain ["CODECOPY"] ++ four ++ plain ["CALLER", "CODECOPY"] ++
    four ++ push "0x00" :: plain ["CALLDATACOPY"] ++
    four ++ push "0x00" :: plain ["RETURNDATACOPY"] ++
    four ++ [push "0x00", push "0x01"] ++ plain ["EXTCODECOPY"] ++ plain ["CODESIZE", "POP"]

def stackMoves : Lines :=
  [push "0x01", push "0x02", push "0x03"] ++
    plain ["DUP1", "DUP3", "SWAP1", "SWAP3", "POP", "POP", "POP", "POP", "POP"]

def zeros (n : Nat) : Lines := List.replicate n (push "0x00")

def effects : Lines :=
  [push "0x01", push "0x00"] ++ plain ["LOG0"] ++
    [push "0xaa", push "0x01", push "0x00"] ++ plain ["LOG1"] ++ zeros 3 ++
    plain ["CREATE", "POP"] ++
    zeros 4 ++ push "0x01" :: plain ["GAS", "DELEGATECALL", "POP"]

def environmentBody : Lines :=
  environment ++ memory ++ storage ++ copies ++ stackMoves ++ effects

def repeated (body : Lines) (n : Nat) : Lines :=
  (List.replicate n body).flatten ++ plain ["STOP"]

def guardedStore (place i : Nat) : Lines :=
  dataAt (Numeral.hex (32 * i)) ++ pushPlace (place + 12) :: plain ["JUMPI"] ++
    [push "0x01", push "0x00"] ++ plain ["SSTORE", "JUMPDEST"]

def guardedStores : Nat → Lines
  | 0 => []
  | n + 1 =>
    let before := guardedStores n
    before ++ guardedStore before.size n

def transfers (start : Nat) : Lines :=
  let send := zeros 4 ++ plain ["CALLVALUE", "CALLER", "GAS"]
  let early :=
    zeros 4 ++ [push "0x01", push "0x42"] ++ plain ["GAS", "CALL", "SWAP1", "POP", "POP"] ++
    send ++ plain ["CALLCODE", "POP", "CALLER", "SUICIDE"]
  let test := plain ["TIMESTAMP"] ++ dataAt "0x00" ++ plain ["GT"]
  test ++ pushPlace (start + test.size + 4 + early.size) :: plain ["JUMPI"] ++ early ++
    plain ["JUMPDEST"] ++ push "0x00" :: plain ["SLOAD"] ++ push "0x01" :: plain ["ADD"] ++
    push "0x00" :: plain ["SSTORE"] ++ send ++ plain ["CALL", "POP"] ++
    [push "0x20", push "0x00"] ++ plain ["RETURN"]

def branching (depth : Nat) : Lines :=
  let stores := guardedStores depth
  stores ++ transfers stores.size

end EvmAudit.Assembly
