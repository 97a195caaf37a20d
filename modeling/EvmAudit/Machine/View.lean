import EvmAudit.Machine.Basic
import EvmAudit.Value.Sample

/-! What can be seen of a run, as documents: of one path between two instructions, and of all
paths at the end. -/

namespace EvmAudit

abbrev Fields := List (String × Document)

def Key.document : Key → Document
  | .at n => .text (toString n)
  | .named s => .object [("s", .text (Text.collapseBlanks s))]

def Table.inOrder {α : Type} (t : Table Int α) (row : Int → α → Document) : Document :=
  .array ((t.entries.mergeSort (fun a b => decide (a.1 ≤ b.1))).map fun (k, v) => row k v)

def Flow.document (f : Flow) : Document :=
  .ofTexts ([f.source, f.destination, f.amount].map Text.collapseBlanks)

def conditionPlaces (t : Table Nat Int) : Document :=
  .array ((t.entries.mergeSort (fun a b => decide (a.1 ≤ b.1))).map fun (i, pc) =>
    .ofInts [(i : Int), pc])

def affectedCalls (t : Table Int Bool) : Document :=
  t.inOrder fun pc b => .array [.int pc, .bool b]

def Problems.document (p : Problems) : Document :=
  .object [("under", .ofInts p.underflows), ("over", .ofInts p.overflows),
    ("assert", .ofInts p.assertions), ("reentrancy", .ofInts p.reentrancy)]

def Analysis.fields (a : Analysis) : Fields :=
  [("gas", Sample.value (.int a.gas)), ("gas_mem", Sample.value (.int a.memoryGas)),
    ("money_flow", .array (a.flows.map Flow.document)),
    ("reentrancy", .array (a.reentrancy.map .bool)), ("money_pcs", .ofInts a.transferPcs),
    ("time_pcs", conditionPlaces a.conditionPcs)]

namespace Machine

def fields (block : Int) (m : Machine) : Fields :=
  let p := m.path
  let s := m.shared
  let b := s.graph.blocks.get? block
  [("pc", .int p.world.pc), ("stack", .array (p.stack.map Sample.value)),
    ("mem", Sample.table Key.document p.words),
    ("memory", .array (p.bytes.toList.map Sample.value)),
    ("miu_i", Sample.value p.world.activeWords),
    ("storage", Sample.table Key.document p.world.storage),
    ("balance", Sample.table (Key.document ∘ .named) p.world.balance),
    ("path", .array (p.conditions.map Sample.condition)),
    ("vars", .ofTexts (p.vars.keys.mergeSort (fun a b => decide (a ≤ b)))),
    ("calls", .ofInts p.calls), ("overflow_pcs", .ofInts p.overflowPcs),
    ("sha3", .int p.hashes.size),
    ("gen", .ofInts [s.names.stack, s.names.data, s.names.other]),
    ("scopes", .int s.solver.depth),
    ("target", .int ((b.map Block.targetAddress).getD 0)),
    ("branch", ((b.bind Block.branch).map Sample.value).getD .null),
    ("edges", .ofInts ((s.graph.edges.get? block).getD [])),
    ("affect", affectedCalls s.affected), ("revertible", .ofInts (sortInts s.revertible)),
    ("problems", s.problems.document)] ++ p.analysis.fields

end Machine

def Shared.document (s : Shared) : Document :=
  let edges := s.visitedEdges.entries.mergeSort
    (fun a b => decide (a.1.1 < b.1.1 ∨ (a.1.1 = b.1.1 ∧ a.1.2 ≤ b.1.2)))
  .object [("paths", .int s.paths), ("timeout", .bool s.timedOut),
    ("visited", .ofInts (sortInts s.visitedPcs)),
    ("visited_edges", .array (edges.map fun ((a, b), n) => .ofInts [a, b, n])),
    ("edges", s.graph.edges.inOrder fun k ts => .array [.int k, .ofInts ts]),
    ("targets", s.graph.blocks.inOrder fun k b => .array [.int k, .int b.targetAddress]),
    ("flows", .array (s.flows.map fun fs => .array (fs.map Flow.document))),
    ("conditions", .array (s.conditions.map fun cs => .array (cs.map Sample.condition))),
    ("storages", .array (s.storages.map (Sample.table Key.document))),
    ("affect", affectedCalls s.affected),
    ("reentrancy", .array (s.reentrancy.map fun bs => .array (bs.map .bool))),
    ("revertible", .ofInts (sortInts s.revertible)), ("tests", .int s.testCases),
    ("scopes", .int s.solver.depth), ("problems", s.problems.document),
    ("money_pcs", .array (s.problems.transfers.map .ofInts)),
    ("time_pcs", .array (s.problems.conditionPcs.map conditionPlaces))]

end EvmAudit
