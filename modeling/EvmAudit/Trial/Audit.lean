import EvmAudit.Assembly.Programs
import EvmAudit.Audit.Run

/-! Trials of whole audits on sample programs. -/

namespace EvmAudit.Trial

def jobOf (lines : Assembly.Lines) : Except Fault Job := do
  let code ← lines.code
  let listing ← lines.listing
  return { ctx := { code := some (code ++ "\n") }, name := "sample.evm.disasm", listing }

def audit (lines : Assembly.Lines) : Except Fault (Bool × Progress) := do
  let job ← jobOf lines
  let (answer, p) := (Audit.run job).perform job.start
  match ← answer with
  | some found => return (found, p)
  | none => throw .unsupportedOperand

def coverage (body : Assembly.Lines) (copies : Nat) : Except Fault Document := do
  let (_, p) ← audit (Assembly.repeated body copies)
  return .text p.coverage

def branching (depth : Nat) : Except Fault Document := do
  let lines := Assembly.branching depth
  let (found, p) ← audit lines
  let results := p.results.entries.mergeSort (fun a b => decide (a.1 ≤ b.1))
  let text ← (Build.ofListing none (← lines.listing)).graph.display
  return .array [.text p.coverage, .int (if found then 1 else 0),
    .array (results.map fun (name, d) => .array [.text name, d]), .int text.length]

end EvmAudit.Trial
