import EvmAudit.Listing.Outline

/-! The control-flow graph: blocks by address, and the edges known between them. Edges of jumps are
added when an execution finds the target. -/

namespace EvmAudit

structure Graph where
  instructions : Table Int String := {}
  ends : Table Int Int := {}
  endings : Table Int Ending := {}
  blocks : Table Int Block := {}
  edges : Table Int (List Int) := {}
  deriving Inhabited

def sortInts (xs : List Int) : List Int := xs.mergeSort (fun a b => decide (a ≤ b))

namespace Graph

def ofOutline (o : Listing.Outline) : Graph where
  instructions := o.instructions
  ends := o.ends
  endings := o.endings

/-- The instructions from an address to the last address of its block, in order of address. -/
def blockAt (g : Graph) (key stop : Int) : Block where
  start := key
  stop := stop
  instructions :=
    ((g.instructions.get? key).toList) ++
      ((sortInts g.instructions.keys).filter fun a => decide (key < a ∧ a ≤ stop)).filterMap
        g.instructions.get?
  ending := g.endings.get? key

def withBlocks (g : Graph) : Graph :=
  g.ends.entries.foldl
    (fun g (key, stop) =>
      if g.instructions.contains key then
        { g with
          blocks := g.blocks.insert key (g.blockAt key stop)
          edges := g.edges.insert key [] }
      else g) g

def addEdge (g : Graph) (source target : Int) : Graph :=
  let known := (g.edges.get? source).getD []
  if known.contains target then g
  else { g with edges := g.edges.insert source (known ++ [target]) }

def updateBlock (g : Graph) (key : Int) (f : Block → Block) : Graph :=
  match g.blocks.get? key with
  | none => g
  | some b => { g with blocks := g.blocks.insert key (f b) }

def fallsThrough : Ending → Bool
  | .terminal | .unconditional => false
  | _ => true

def linkNext (g : Graph) (key next : Int) : Except Fault Graph :=
  match g.endings.get? key with
  | none => .ok g
  | some ending =>
    if fallsThrough ending then
      match g.edges.get? key with
      | none => .error .missingKey
      | some targets =>
        .ok ({ g with edges := g.edges.insert key (targets ++ [next]) }.updateBlock key
          fun b => { b with fallsTo := some next })
    else .ok g

def linkAll : List Int → Graph → Graph × Option Fault
  | key :: next :: rest, g =>
    match g.linkNext key next with
    | .ok g => linkAll (next :: rest) g
    | .error cause => (g, some cause)
  | _, g => (g, none)

def withFallThrough (g : Graph) : Graph × Option Fault :=
  linkAll (sortInts g.endings.keys) g

def display (g : Graph) : Except Fault String := do
  return String.join (← g.blocks.values.mapM Block.display)

end Graph

/-- A function selector that is compared, and the address its comparison leads to. -/
inductive Dispatch where
  | start
  | selector (signature : String)
  | compared (signature : String)

namespace Dispatch

/-- One instruction of the pattern: a push of four bytes, a comparison, a push of the address. -/
def step (d : Dispatch) (text : String) (found : Table Int String) :
    Except Fault (Dispatch × Table Int String) :=
  let operand := Listing.wordAt 1 text
  match d with
  | .start =>
    if Text.startsWith text "PUSH4" then
      .ok (.selector (Text.slice operand 2 operand.length), found)
    else .ok (.start, found)
  | .selector s => .ok (if Text.startsWith text "EQ" then .compared s else .start, found)
  | .compared s =>
    if Text.startsWith text "PUSH" then
      match Numeral.read 16 operand with
      | some address => .ok (.start, found.insert address s)
      | none => .error .badNumeral
    else .ok (.start, found)

def run (d : Dispatch) (found : Table Int String) :
    List String → Except Fault (Table Int String)
  | [] => .ok found
  | text :: rest => do
    let (d, found) ← d.step text found
    d.run found rest

end Dispatch

def Graph.signatures (g : Graph) : Except Fault (Table Int String) :=
  Dispatch.run .start {} g.instructions.values

end EvmAudit
