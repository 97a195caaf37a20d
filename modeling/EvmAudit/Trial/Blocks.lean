import EvmAudit.Block
import EvmAudit.Assembly.Basic
import EvmAudit.Names
import EvmAudit.Value.Sample

/-! A trial of fresh names and of blocks. -/

namespace EvmAudit.Trial

def nameRequests : List NameRequest :=
  [.stack, .data, .dataSize, .memoryAt (.int 0), .arbitrary, .arbitraryAddress,
    .storage (.int 0) (.text "v"), .gas, .gasPrice, .address, .caller, .origin, .balance,
    .code (.text "A") (.int 0) (.int 4), .codeSize (.text "A")]

def namesFor (names : Names) : List NameRequest → List String
  | [] => []
  | r :: rest =>
    let (name, next) := names.answer {} r
    name :: namesFor next rest

def block (i : Nat) : Block :=
  let start : Int := 4 * i
  let b : Block := { start, stop := start + 3, ending := some .terminal, fallsTo := some (start + 4)
                     branch := some (.bool true) }
  ((b.addInstruction ("PUSH1 0x" ++ Assembly.wideHex 2 i)).addInstruction "STOP").setTarget
    (.var "target")

def blockRow (b : Block) : Except Fault Document := do
  return .array [.int b.start, .int b.stop, .ofTexts b.instructions, .text (← b.getEnding).text,
    .int (← b.getFallsTo), .int b.targetAddress, Sample.value (← b.getBranch)]

def blocks (n : Nat) : Except Fault Document := do
  let blocks := (List.range n).map block
  let texts ← blocks.mapM Block.display
  return .array [.ofTexts (namesFor {} nameRequests), .array (← blocks.mapM blockRow),
    .int (String.join texts).length,
    .ofTexts ((List.range n).map fun (i : Nat) => "0x" ++ Assembly.wideHex 40 i)]

end EvmAudit.Trial
