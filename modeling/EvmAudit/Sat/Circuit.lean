import EvmAudit.Sat.Search
import Std.Data.HashMap

/-! Boolean circuits with shared gates. A wire is a literal over the gates; gate 0 is constantly
false, so wire 0 is false and wire 1 is true. -/

namespace EvmAudit.Sat

inductive Gate where
  | input (n : Nat)
  | and (a b : Literal)
  | xor (a b : Literal)
  | mux (c a b : Literal)
  | majority (a b c : Literal)
  deriving DecidableEq, Hashable, Inhabited

/-- `required` are wires that hold in every intended assignment. -/
structure Circuit where
  gates : Array Gate
  table : Std.HashMap Gate Nat
  required : Array Literal
  inputs : Nat

namespace Circuit

def empty : Circuit := ⟨#[.input 0], {}, #[], 1⟩

end Circuit

abbrev Build := StateM Circuit

def wireFalse : Literal := 0
def wireTrue : Literal := 1

def gate (g : Gate) : Build Literal :=
  modifyGet fun s =>
    match s.table[g]? with
    | some v => (2 * v, s)
    | none =>
      let v := s.gates.size
      (2 * v, { s with gates := s.gates.push g, table := s.table.insert g v })

def freshInput : Build Literal :=
  modifyGet fun s =>
    (2 * s.gates.size, { s with gates := s.gates.push (.input s.inputs), inputs := s.inputs + 1 })

def require (l : Literal) : Build Unit :=
  modify fun s => { s with required := s.required.push l }

def andGate (a b : Literal) : Build Literal :=
  if a = 0 ∨ b = 0 ∨ a = (negated b) then return 0
  else if a = 1 ∨ a = b then return b
  else if b = 1 then return a
  else gate (.and (min a b) (max a b))

def orGate (a b : Literal) : Build Literal := do
  return negated (← andGate (negated a) (negated b))

def xorGate (a b : Literal) : Build Literal := do
  let odd := a % 2 != b % 2
  let x := 2 * (atomOf a)
  let y := 2 * (atomOf b)
  let r ← if x = y then pure 0
    else if x = 0 then pure y
    else if y = 0 then pure x
    else gate (.xor (min x y) (max x y))
  return if odd then (negated r) else r

def iffGate (a b : Literal) : Build Literal := do
  return negated (← xorGate a b)

def muxGate (c a b : Literal) : Build Literal := do
  if c = 1 then return a
  else if c = 0 then return b
  else if a = b then return a
  else if a = 1 then orGate c b
  else if a = 0 then andGate (negated c) b
  else if b = 1 then orGate (negated c) a
  else if b = 0 then andGate c a
  else if a = (negated b) then iffGate c a
  else gate (.mux c a b)

def majorityGate (a b c : Literal) : Build Literal := do
  if a = b then return a
  else if a = c then return a
  else if b = c then return b
  else if a = (negated b) then return c
  else if a = (negated c) then return b
  else if b = (negated c) then return a
  else if a = 0 then andGate b c
  else if a = 1 then orGate b c
  else if b = 0 then andGate a c
  else if b = 1 then orGate a c
  else if c = 0 then andGate a b
  else if c = 1 then orGate a b
  else
    let lo := min a (min b c)
    let hi := max a (max b c)
    gate (.majority lo (a + b + c - lo - hi) hi)

namespace Gate

def operands : Gate → List Literal
  | .input _ => []
  | .and a b | .xor a b => [a, b]
  | .mux a b c | .majority a b c => [a, b, c]

def clauses (o : Literal) : Gate → List (Array Literal)
  | .input _ => []
  | .and a b => [#[(negated o), a], #[(negated o), b], #[o, (negated a), (negated b)]]
  | .xor a b =>
    [#[(negated o), a, b], #[(negated o), (negated a), (negated b)], #[o, (negated a), b],
      #[o, a, (negated b)]]
  | .mux c a b =>
    [#[(negated o), (negated c), a], #[o, (negated c), (negated a)], #[(negated o), c, b],
      #[o, c, (negated b)]]
  | .majority a b c =>
    [#[(negated o), a, b], #[(negated o), a, c], #[(negated o), b, c],
      #[o, (negated a), (negated b)], #[o, (negated a), (negated c)],
        #[o, (negated b), (negated c)]]

end Gate

namespace Circuit

def cone (c : Circuit) (roots : Array Literal) : Array Bool :=
  let marked := roots.foldl (fun m l => m.setIfInBounds (atomOf l) true)
    (Array.replicate c.gates.size false)
  (List.range c.gates.size).foldl (fun m k =>
    let v := c.gates.size - 1 - k
    if m.getD v false then
      ((c.gates.getD v (.input 0)).operands).foldl (fun m l => m.setIfInBounds (atomOf l) true) m
    else m) marked

/-- The clauses of the gates that `roots` depend on, with each root required. Gates are renumbered
to those in use. -/
def toClauses (c : Circuit) (roots : Array Literal) :
    Nat × Array Nat × Array (Array Literal) :=
  let used := c.cone (roots.push 0)
  let (n, names) := (List.range c.gates.size).foldl (fun (n, names) v =>
    if used.getD v false then (n + 1, names.push n) else (n, names.push 0)) (0, Array.mkEmpty 0)
  let rename (l : Literal) : Literal := 2 * names.getD (atomOf l) 0 + l % 2
  let start : Array (Array Literal) := #[#[rename 1]]
  let body := (List.range c.gates.size).foldl (fun acc v =>
    if used.getD v false then
      ((c.gates.getD v (.input 0)).clauses (2 * v)).foldl
        (fun acc cl => acc.push (cl.map rename)) acc
    else acc) start
  (n, names, roots.foldl (fun acc l => acc.push #[rename l]) body)

end Circuit

end EvmAudit.Sat
