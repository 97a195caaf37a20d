import EvmAudit.Finding
import EvmAudit.Trial.Contracts

/-! A trial of the reports of all detectors. -/

namespace EvmAudit.Trial

def faultyMap (n : Nat) : SourceMap :=
  let line (i : Nat) : String := "buggy(" ++ toString i ++ ")\n"
  let lines := (List.range n).map line
  let starts := (List.range n).map fun i => 3 + (String.join (lines.take i)).length
  { contract := "Demo.sol:Demo", root := ""
    text := .ofContent ("//\n" ++ String.join lines ++ "end\n")
    positions := [], varNames := ["x"], callNames := [], callees := [], parameters := {},
      signatures := {}
    items := Table.ofList ((starts.zip lines).mapIdx fun i (start, line) =>
      ((i : Int), .ofRange (start + 2) (start + line.length + 1))) }

def destructibleMap : SourceMap :=
  { faultyMap 1 with
    text := .ofContent "//\n//\nkill()\nend\n"
    callees := [("Callee", "9:6:0")] }

def reportOf (f : Finding) : Except Fault Document := do
  return shortened (Document.printedTuple [.bool f.vulnerable, .text (← f.text)])

def findings (n : Nat) : Except Fault (List Document) := do
  let m := some (faultyMap n)
  let pcs := (List.range n).map Int.ofNat
  let failures := pcs.map fun pc => ({ pc, model := [("x", "1")] } : Failure)
  let calls ← Finding.callstack m pcs {}
  let flows ← Finding.concurrency m [pcs, pcs.reverse]
  let truth (f : Finding) : Document := .text (Document.bool f.vulnerable).printed
  return [shortened (Document.printedTuple [.bool calls.vulnerable, .text (← calls.text),
      ← calls.document]),
    ← reportOf (← Finding.timeDependency m pcs), truth (← Finding.timeDependency none pcs),
    ← reportOf (← Finding.reentrancy m pcs),
    shortened (Document.printedTuple [.bool flows.vulnerable, .text (← flows.text),
      ← flows.document]),
    ← reportOf (← Finding.assertion m failures),
    shortened (← (← Finding.underflow m failures).text),
    shortened (← (← Finding.overflow m failures).text),
    ← reportOf (← Finding.destructibleCallees destructibleMap fun _ => some "0: SUICIDE\n"),
    truth (← Finding.reentrancy none pcs)]

end EvmAudit.Trial
