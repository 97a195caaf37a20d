import EvmAudit.Document.Basic
import EvmAudit.Text.Blank

/-! Searching the syntax tree of a source. A pattern gives some members of a node; the outermost
nodes that match it are found, from left to right. -/

namespace EvmAudit

namespace Document

/-- Whether a node has a member of that name. A text is searched for the name, an array for an equal
item. -/
def has (d : Document) (name : String) : Except Fault Bool :=
  match d with
  | .object members => .ok (lookup name members).isSome
  | .text s => .ok (Text.contains name s)
  | .array items => .ok (items.any fun item => item.same (.text name))
  | _ => .error .unsupportedOperand

theorem sizeOf_lt_of_lookup {name : String} {d : Document} {members : List (String × Document)}
    (h : lookup name members = some d) : sizeOf d < sizeOf members := by
  induction members with
  | nil => simp [lookup] at h
  | cons m rest ih =>
    obtain ⟨n, e⟩ := m
    by_cases hn : n = name
    · simp only [lookup, hn, if_true, Option.some.injEq] at h
      subst h
      simp only [List.cons.sizeOf_spec, Prod.mk.sizeOf_spec]
      omega
    · simp only [lookup, hn, if_false] at h
      have := ih h
      simp only [List.cons.sizeOf_spec]
      omega

def subnodes (d : Document) : Except Fault (List { c : Document // sizeOf c < sizeOf d }) :=
  match d with
  | .object members =>
    match h : lookup "children" members with
    | none => .ok []
    | some (.array items) =>
      .ok (items.attach.map fun c => ⟨c.1, by
        have := sizeOf_lt_of_lookup h
        have := List.sizeOf_lt_of_mem c.2
        simp only [Document.object.sizeOf_spec, Document.array.sizeOf_spec] at *
        omega⟩)
    | some c =>
      match c with
      | .object _ | .text _ => .ok []
      | c => if c.isTruthy then .error .unsupportedOperand else .ok []
  | .text s => if Text.contains "children" s then .error .unsupportedOperand else .ok []
  | .array items =>
    if items.any fun item => item.same (.text "children") then .error .unsupportedOperand
    else .ok []
  | _ => .error .unsupportedOperand

end Document

/-- A pattern: required members, where the member `attributes` is a pattern for the node's own
`attributes`. Of several patterns one has to match. -/
abbrev Pattern := Document

namespace Pattern

mutual

def admits (pattern node : Document) : Except Fault Bool :=
  match pattern with
  | .object members => admitsMembers members node
  | .array [] | .text "" => .ok true
  | .array (item :: _) =>
    match item with
    | .text name => do
      if ← node.has name then .error .unsupportedOperand else return false
    | _ => .ok false
  | .text s => do
    if ← node.has (String.ofList (s.toList.take 1)) then .error .unsupportedOperand
    else return false
  | _ => .error .unsupportedOperand

def admitsMembers (members : List (String × Document)) (node : Document) : Except Fault Bool :=
  match members with
  | [] => .ok true
  | (name, value) :: rest => do
    if !(← node.has name) then return false
    let found ← node.get name
    let fits ← if name = "attributes" then admits value found else pure (found.same value)
    if fits then admitsMembers rest node else return false

end

def admitsAny (node : Document) : List Document → Except Fault Bool
  | [] => .ok false
  | pattern :: rest => do
    if ← admits pattern node then return true else admitsAny node rest

def fits (pattern node : Document) : Except Fault Bool :=
  match pattern with
  | .array patterns => admitsAny node patterns
  | .object _ => admits pattern node
  | .text "" => .ok false
  | _ => .error .unsupportedOperand

/-- The nodes so far, and behind them the outermost nodes that match. -/
def walk (pattern node : Document) (nodes : List Document) : Except Fault (List Document) := do
  if ← fits pattern node then return nodes ++ [node]
  (← node.subnodes).foldlM (fun nodes c => walk pattern c.1 nodes) nodes
termination_by sizeOf node
decreasing_by exact c.2

def search (pattern node : Document) : Except Fault (List Document) := walk pattern node []

end Pattern

end EvmAudit
