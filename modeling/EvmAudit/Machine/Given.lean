import EvmAudit.Machine.Basic
import EvmAudit.Value.Notation

/-! A path and a graph given by documents, to start an execution in the middle. -/

namespace EvmAudit

def Key.read (d : Document) : Except Fault Key := do
  match d with
  | .object _ => return .named (({} : Printer).value (← Value.read d))
  | d => return .ofValue {} (← Value.read d)

def Key.readTable (d : Document) : Except Fault (Table Key Value) := do
  let rows ← d.items.mapM fun row => do
    return (← Key.read (row.item 0), ← Value.read (row.item 1))
  return Table.ofList rows

def Document.override {α : Type} (d : Document) (name : String) (default : α)
    (read : Document → Except Fault α) : Except Fault α :=
  match d.get? name with
  | some given => read given
  | none => pure default

def Machine.override (d : Document) (m : Machine) : Except Fault Machine := do
  let p := m.path
  let amount (d : Document) : Except Fault Int := return (← Value.read d).toInt?.getD 0
  let stack ← d.override "stack" p.stack Value.readItems
  let bytes ← d.override "memory" p.bytes fun d => return .ofList (← Value.readItems d)
  let words ← d.override "mem" p.words Key.readTable
  let storage ← d.override "storage" p.world.storage Key.readTable
  let balance ← d.override "balance" p.world.balance fun d => do
    let rows ← d.items.mapM fun row => return ((row.item 0).string, ← Value.read (row.item 1))
    return Table.ofList (p.world.balance.entries ++ rows)
  let activeWords ← d.override "miu_i" p.world.activeWords Value.read
  let conditions ← Value.readConditions (d.member "path_condition")
  let solver ← Value.readConditions (d.member "solver")
  let gas ← d.override "gas" p.analysis.gas amount
  let memoryGas ← d.override "gas_mem" p.analysis.memoryGas amount
  let pc ← d.override "pc" p.world.pc fun d => return d.integer
  let calls ← d.override "calls" p.calls fun d => return d.items.map Document.integer
  return {
    path := { p with
      stack, bytes, words, calls
      world := { p.world with storage, balance, activeWords, pc }
      conditions := p.conditions ++ conditions
      analysis := { p.analysis with gas, memoryGas } }
    shared := { m.shared with
      solver := solver.foldl (fun s c => s.add c.formula) m.shared.solver } }

def Block.read (d : Document) : Except Fault Block := do
  let start := (d.member "start").integer
  let b : Block :=
    { start, stop := start
      instructions := (d.member "ins").items.map Document.string
      ending := some (.ofText (d.member "type").string)
      fallsTo := (d.get? "falls_to").bind Document.int? }
  match d.get? "jump_target" with
  | some target => return b.setTarget (← Value.read target)
  | none => return b

def Graph.ofBlocks (blocks : List Block) : Graph where
  blocks := Table.ofList (blocks.map fun b => (b.start, b))
  edges := Table.ofList (blocks.map fun b => (b.start, []))
  endings := Table.ofList (blocks.filterMap fun b => b.ending.map fun e => (b.start, e))

end EvmAudit
