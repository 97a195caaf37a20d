/-! A search for an assignment that satisfies a set of clauses: unit propagation with two watched
literals, learning from conflicts, and decisions on the variables met last in a conflict. Variables
are numbers; the literal `2 v` is the variable `v` and `2 v + 1` its negation. -/

namespace EvmAudit.Sat

abbrev Literal := Nat

def atomOf (l : Literal) : Nat := l / 2

def negated (l : Literal) : Literal := if l % 2 = 0 then l + 1 else l - 1

def holdsWhen (l : Literal) (b : Bool) : Bool := if l % 2 = 0 then b else !b

abbrev Clause := List Literal

def Clause.eval (m : Nat → Bool) (c : Clause) : Bool :=
  c.any fun l => holdsWhen l (m (atomOf l))

inductive Outcome where
  | satisfied (m : Array Bool)
  | contradiction
  | gaveUp

/-- Literals of all clauses stand in one array; a clause is a start and a length, and its first two
literals are watched. Truth is kept by literal: 0 unknown, 1 true, 2 false. -/
structure Search where
  count : Nat
  literals : Array Nat
  starts : Array Nat
  lengths : Array Nat
  watches : Array (Array Nat)
  truth : Array UInt8
  level : Array Nat
  reason : Array Nat
  phase : Array Bool
  trail : Array Nat
  marks : Array Nat
  head : Nat
  seen : Array Bool
  before : Array Nat
  after : Array Nat
  stamp : Array Nat
  latest : Nat
  pointer : Nat
  clock : Nat

namespace Search

def truthOf (s : Search) (l : Literal) : UInt8 := s.truth.getD l 0

def empty (n : Nat) : Search where
  count := n
  literals := #[]
  starts := #[]
  lengths := #[]
  watches := Array.replicate (2 * n) #[]
  truth := Array.replicate (2 * n) 0
  level := Array.replicate n 0
  reason := Array.replicate n 0
  phase := Array.replicate n false
  trail := #[]
  marks := #[]
  head := 0
  seen := Array.replicate n false
  before := (Array.range n).map fun v => if v = 0 then n else v - 1
  after := (Array.range n).map fun v => if v + 1 = n then n else v + 1
  stamp := Array.range n
  latest := n - 1
  pointer := n - 1
  clock := n

def assign (s : Search) (l : Literal) (why : Nat) : Search :=
  let v := atomOf l
  let now := s.marks.size
  { s with
    truth := (s.truth.setIfInBounds l 1).setIfInBounds (negated l) 2
    level := s.level.setIfInBounds v now
    reason := s.reason.setIfInBounds v why
    phase := s.phase.setIfInBounds v (l % 2 == 0)
    trail := s.trail.push l }

def attach (s : Search) (c : Array Literal) : Search :=
  let id := s.starts.size
  let a := c.getD 0 0
  let b := c.getD 1 0
  { s with
    starts := s.starts.push s.literals.size
    lengths := s.lengths.push c.size
    literals := s.literals ++ c
    watches := (s.watches.modify a (·.push id)).modify b (·.push id) }

def replacement? (s : Search) (i : Nat) : Nat → Option Nat
  | 0 => none
  | n + 1 => if s.truthOf (s.literals.getD i 0) == 2 then s.replacement? (i + 1) n else some i

/-- Visits the clauses that watch the literal `f`, which became false. The second result is the
clause in conflict, counted from one. -/
def visit (s : Search) (f : Literal) (ids : Array Nat) (i : Nat) (kept : Array Nat) :
    Search × Nat × Array Nat :=
  if h : i < ids.size then
    let id := ids[i]
    let start := s.starts.getD id 0
    let a := s.literals.getD start 0
    let b := s.literals.getD (start + 1) 0
    let other := if a = f then b else a
    if s.truthOf other == 1 then visit s f ids (i + 1) (kept.push id)
    else
      match s.replacement? (start + 2) (s.lengths.getD id 0 - 2) with
      | some k =>
        let l := s.literals.getD k 0
        let s := { s with
          literals := ((s.literals.setIfInBounds start other).setIfInBounds (start + 1) l
            ).setIfInBounds k f
          watches := s.watches.modify l (·.push id) }
        visit s f ids (i + 1) kept
      | none =>
        let s := { s with
          literals := (s.literals.setIfInBounds start other).setIfInBounds (start + 1) f }
        if s.truthOf other == 2 then
          (s, id + 1, kept.push id ++ ids.extract (i + 1) ids.size)
        else visit (s.assign other (id + 1)) f ids (i + 1) (kept.push id)
  else (s, 0, kept)
termination_by ids.size - i

def propagate (s : Search) : Nat → Search × Nat
  | 0 => (s, 0)
  | fuel + 1 =>
    if s.head < s.trail.size then
      let f := negated (s.trail.getD s.head 0)
      let ids := s.watches.getD f #[]
      let s := { s with head := s.head + 1, watches := s.watches.setIfInBounds f #[] }
      let (s, conflict, kept) := visit s f ids 0 #[]
      let s := { s with watches := s.watches.setIfInBounds f kept }
      if conflict ≠ 0 then (s, conflict) else propagate s fuel
    else (s, 0)

def bump (s : Search) (v : Nat) : Search :=
  if s.latest = v then s
  else
    let p := s.before.getD v s.count
    let q := s.after.getD v s.count
    let after := if p < s.count then s.after.setIfInBounds p q else s.after
    let before := if q < s.count then s.before.setIfInBounds q p else s.before
    let pointer := if s.pointer = v then (if p < s.count then p else q) else s.pointer
    { s with
      after := (after.setIfInBounds s.latest v).setIfInBounds v s.count
      before := before.setIfInBounds v s.latest
      stamp := s.stamp.setIfInBounds v s.clock
      clock := s.clock + 1
      latest := v
      pointer := if s.truthOf (2 * v) == 0 then v else pointer }

def retreat (s : Search) (target : Nat) : Search :=
  if target < s.marks.size then
    let keep := s.marks.getD target 0
    let s := (List.range (s.trail.size - keep)).foldl (fun s i =>
      let l := s.trail.getD (keep + i) 0
      let v := atomOf l
      { s with
        truth := (s.truth.setIfInBounds l 0).setIfInBounds (negated l) 0
        pointer := if s.stamp.getD v 0 > s.stamp.getD s.pointer 0 then v else s.pointer }) s
    { s with
      trail := s.trail.shrink keep
      marks := s.marks.shrink target
      head := keep }
  else s

/-- What a walk back through the trail has collected: the literals below the current level, the
number of literals still open at it, and the variables met. -/
structure Trace where
  learnt : Array Literal
  pending : Nat
  met : Array Nat

def absorb (s : Search) (t : Trace) (id : Nat) (skip : Literal) : Search × Trace :=
  let start := s.starts.getD id 0
  (List.range (s.lengths.getD id 0)).foldl (fun (s, t) i =>
    let l := s.literals.getD (start + i) 0
    let v := atomOf l
    let d := s.level.getD v 0
    if l = skip ∨ s.seen.getD v false ∨ d = 0 then (s, t)
    else
      let s := { s with seen := s.seen.setIfInBounds v true }
      let t := { t with met := t.met.push v }
      if d = s.marks.size then (s, { t with pending := t.pending + 1 })
      else (s, { t with learnt := t.learnt.push l })) (s, t)

def walk (s : Search) (t : Trace) : Nat → Search × Trace × Literal
  | 0 => (s, t, 0)
  | i + 1 =>
    let l := s.trail.getD i 0
    if s.seen.getD (atomOf l) false then
      if t.pending = 1 then (s, t, l)
      else
        let why := s.reason.getD (atomOf l) 0
        let t := { t with pending := t.pending - 1 }
        let (s, t) := absorb s t (why - 1) l
        walk s t i
    else walk s t i

def highest (s : Search) (c : Array Literal) : Nat × Nat :=
  (List.range c.size).foldl (fun (best, at_) i =>
    let d := s.level.getD (atomOf (c.getD i 0)) 0
    if d > best then (d, i) else (best, at_)) (0, 0)

/-- Learns a clause from the conflict, goes back to where it first applies, and applies it. -/
def learn (s : Search) (conflict : Nat) : Search :=
  let (s, t) := absorb s ⟨#[], 0, #[]⟩ (conflict - 1) (2 * s.count)
  let (s, t, uip) := walk s t s.trail.size
  let s := { s with seen := t.met.foldl (fun seen v => seen.setIfInBounds v false) s.seen }
  let s := (t.met.qsort fun a b => s.stamp.getD a 0 < s.stamp.getD b 0).foldl bump s
  let asserted := negated uip
  if t.learnt.isEmpty then (s.retreat 0).assign asserted 0
  else
    let (back, place) := highest s t.learnt
    let first := t.learnt.getD 0 0
    let top := t.learnt.getD place 0
    let rest := (t.learnt.setIfInBounds place first).setIfInBounds 0 top
    let s := (s.retreat back).attach (#[asserted] ++ rest)
    s.assign asserted s.starts.size

def unset? (s : Search) (v : Nat) : Nat → Option Nat
  | 0 => none
  | fuel + 1 =>
    if s.count ≤ v then none
    else if s.truthOf (2 * v) == 0 then some v
    else s.unset? (s.before.getD v s.count) fuel

def model (s : Search) : Array Bool :=
  (Array.range s.count).map fun v => s.truthOf (2 * v) == 1

/-- `quota` conflicts are allowed before the search starts over with what it has learnt. -/
def run (s : Search) (quota spent : Nat) : Nat → Outcome
  | 0 => .gaveUp
  | fuel + 1 =>
    let (s, conflict) := s.propagate (s.count + 1)
    if conflict ≠ 0 then
      if s.marks.isEmpty then .contradiction
      else run (s.learn conflict) quota (spent + 1) fuel
    else if spent ≥ quota then run (s.retreat 0) (quota + quota / 10 + 1) 0 fuel
    else
      match s.unset? s.pointer (s.count + 1) with
      | none => .satisfied s.model
      | some v =>
        let l := if s.phase.getD v false then 2 * v else 2 * v + 1
        let s := { s with marks := s.marks.push s.trail.size, pointer := v }
        run (s.assign l 0) quota spent fuel

def load (s : Search) (clause : Array Literal) : Option Search :=
  if clause.size ≥ 2 then some (s.attach clause)
  else
    match clause[0]? with
    | none => none
    | some l =>
      if s.truthOf l == 1 then some s
      else if s.truthOf l == 2 then none
      else some (s.assign l 0)

end Search

def search (n : Nat) (clauses : Array (Array Literal)) (fuel : Nat) : Outcome :=
  match clauses.foldl (fun s? c => s?.bind (Search.load · c)) (some (Search.empty n)) with
  | none => .contradiction
  | some s => s.run 100 0 fuel

end EvmAudit.Sat
