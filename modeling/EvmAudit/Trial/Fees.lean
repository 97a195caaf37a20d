import EvmAudit.Machine.Gas

/-! A trial of the instruction table and of the fees that depend on the stack. -/

namespace EvmAudit.Trial

def mnemonics : List String :=
  (Opcode.table.map Prod.fst).filter (fun name => name ≠ "INVALID" && name ≠ "---END---") ++
    (List.range 32).map (fun i => "PUSH" ++ toString (i + 1)) ++
    (List.range 16).flatMap fun i => ["DUP" ++ toString (i + 1), "SWAP" ++ toString (i + 1)]

def opcodeRow (o : Opcode) : Document :=
  .array [if o.numbered then .text (Numeral.hex o.byte) else .int o.byte, .int o.pops,
  .int o.pushes]

def tableEntry (i : Nat) : Except Fault (List Document) :=
  match mnemonics[i % mnemonics.length]? with
  | none => .error .missingItem
  | some name =>
    match Opcode.ofName? name with
    | none => .error (.badOpcode name)
    | some o => .ok [opcodeRow o, .int (Fee.ofName name)]

def dynamicNames : List String :=
  ["SSTORE", "EXP", "EXTCODECOPY", "CALLDATACOPY", "SUICIDE", "LOG2", "SHA3"]

def samplePath (analysis : Analysis) : Path where
  stack := [.int 1, .int 7]
  words := Table.ofList [(.at 0, .int 0), (.at 32, .int 0)]
  analysis

def feeOf (analysis : Analysis) (name : String) : Except Fault (Int × Int) := do
  let (answer, m) := (Gas.charge {} (.ofName name)).run.run { path := samplePath analysis }
  answer
  return (m.path.analysis.gas - analysis.gas, m.path.analysis.memoryGas)

def fees (entries : Nat) (analysis : Analysis) : Except Fault (Document × Analysis) := do
  let rows ← (List.range entries).mapM tableEntry
  let charged ← dynamicNames.mapM (feeOf analysis)
  let memoryGas := (charged.map Prod.snd).getLast?.getD analysis.memoryGas
  return (.array (rows.flatten ++ charged.map fun (gas, memory) => .ofInts [gas, memory]),
    { analysis with memoryGas })

def feesAgain (entries : Nat) (analysis : Analysis) : Nat → Except Fault (List Document)
  | 0 => .ok []
  | n + 1 => do
    let (d, analysis) ← fees entries analysis
    return d :: (← feesAgain entries analysis n)

end EvmAudit.Trial
