import EvmAudit.Input
import EvmAudit.Trial.Contracts

/-! A trial of inputs: code that is prepared, names of files, and programs that are started. -/

namespace EvmAudit.Trial

def sampleCode : String := "6060604052"

def surroundings : Workspace :=
  { Workspace.ofFiles [(folder ++ "/sample", sampleCode)] with
    folders := [folder]
    programs := [{ start := "evm disasm", output := sampleCode ++ "\n00000: PUSH1 0x60\n" },
      { start := "echo hello", output := "hello\n" },
      { start := "echo world", output := "world\n" }] }

def fileNames (target : String) : Document :=
  .object [("evm", .text (Input.codeFile target)), ("disasm", .text (Input.listingFile target)),
    ("log", .text (Input.logFile target))]

def inputs (n : Nat) : Work (List Document) := do
  let prepared ← Input.prepare { kind := .bytecode, source := folder ++ "/sample" }
  let code ← Work.ofExcept (Input.withoutMark
    (sampleCode ++ "a165627a7a72305820" ++ "".pushn '0' 64 ++ "0029"))
  let refused := match Input.ofGiven .solidity [] with
    | .error cause => cause.message?.getD ""
    | .ok _ => ""
  let output ← Work.shell (Shell.output "echo hello")
  let (out, errors) ← Work.shell (Shell.run "echo world")
  let names := (List.range n).map fun i =>
    let contract := "C" ++ toString i
    shortened (fileNames (folder ++ "/" ++ contract ++ ".sol:" ++ contract)).printed
  let listings := prepared.map fun p => Document.object [("disasm_file", .text p.listing)]
  return [shortened (Document.array listings).printed, .text code] ++ names ++
    [.text refused, .text output, .text (Document.printedTuple [.text out, .text errors])]

end EvmAudit.Trial
