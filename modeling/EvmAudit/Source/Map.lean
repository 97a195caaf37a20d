import EvmAudit.Sequence
import EvmAudit.Source.Expression
import EvmAudit.Source.Item
import EvmAudit.Table

/-! From instructions to the source text: the piece of text behind a program counter, its line and
column, and what the contract's declarations say about names. -/

namespace EvmAudit

structure SourceText where
  content : String
  breaks : List Int
  deriving DecidableEq, Repr, Inhabited

def offsetsOf (c : Char) (i : Int) : List Char → List Int
  | [] => []
  | d :: ds => if d = c then i :: offsetsOf c (i + 1) ds else offsetsOf c (i + 1) ds

def SourceText.ofContent (content : String) : SourceText :=
  ⟨content, offsetsOf '\n' 0 content.toList⟩

structure Parameter where
  name : String
  kind : String
  /-- The number of items of an array. -/
  size : Option Int
  position : Option Int := none
  deriving DecidableEq, Repr, Inhabited

structure Location where
  line : Int
  column : Int
  deriving DecidableEq, Repr, Inhabited

structure Span where
  start : Option Location
  stop : Option Location
  deriving DecidableEq, Repr, Inhabited

def orNull {α : Type} (f : α → Document) (o : Option α) : Document := (o.map f).getD .null

def Location.document (l : Location) : Document :=
  .object [("line", .int l.line), ("column", .int l.column)]

def Span.document (s : Span) : Document :=
  .object [("begin", orNull Location.document s.start), ("end", orNull Location.document s.stop)]

def Parameter.document (p : Parameter) : Document :=
  .object ([("name", .text p.name), ("type", .text p.kind)] ++
    (p.size.map fun n => ("value", .int n)).toList ++
    (p.position.map fun n => ("position", .int n)).toList)

structure SourceMap where
  contract : String
  root : String
  text : SourceText
  positions : List (Option SourceItem)
  /-- The items of the instructions, by program counter. -/
  items : Table Int SourceItem := {}
  varNames : List String
  callNames : List String
  /-- Contracts whose code is called, with the place of the call. -/
  callees : List (String × String)
  parameters : Table String (List Parameter)
  /-- The declaration behind each selector. -/
  signatures : Table String String
  deriving Inhabited

def boundFrom (xs : Array Int) (target : Int) (start length : Nat) : Nat :=
  if h : length = 0 then start
  else
    let half := length / 2
    if xs.getD (start + half) 0 ≤ target then
      boundFrom xs target (start + half + 1) (length - 1 - half)
    else boundFrom xs target start half
termination_by length
decreasing_by all_goals omega

def lowerBound (target : Int) (xs : List Int) : Int :=
  (boundFrom xs.toArray target 0 xs.length : Int) - 1

namespace SourceText

def locate (t : SourceText) (offset : Int) : Except Fault Location := do
  let bound := lowerBound offset t.breaks
  let line := if (← itemAt t.breaks bound) = offset then bound else bound + 1
  let start ← if line = 0 then pure 0 else do pure ((← itemAt t.breaks (line - 1)) + 1)
  return ⟨line, offset - start⟩

def spanOf (t : SourceText) (start stop : Int) : Except Fault Span := do
  if 0 ≤ start ∧ 0 ≤ stop - start + 1 then
    return ⟨some (← t.locate start), some (← t.locate stop)⟩
  else return ⟨none, none⟩

def lineOf (t : SourceText) (span : Span) (stop : Int) : Except Fault String := do
  match span.start with
  | none => throw .unsupportedOperand
  | some start => return Text.slice t.content ((← itemAt t.breaks (start.line - 1)) + 1) stop

end SourceText

def sourceRange (src : String) : Except Fault (Int × Int) := do
  let parts := Text.splitAt ':' src
  let number (i : Nat) : Except Fault Int :=
    match parts[i]? with
    | none => .error .missingItem
    | some s => (Numeral.read 10 s).elim (.error .badNumeral) .ok
  return (← number 0, ← number 1)

namespace SourceMap

def filename (m : SourceMap) : String := ((Text.splitAt ':' m.contract).head?).getD ""

def sourceCode (m : SourceMap) (pc : Int) : Except Fault String :=
  match m.items.get? pc with
  | none => .ok ""
  | some item => do
    let (start, stop) ← item.range
    return Text.slice m.text.content start stop

def location (m : SourceMap) (pc : Int) : Except Fault Span :=
  match m.items.get? pc with
  | none => .error .missingKey
  | some item => do
    let (start, stop) ← item.range
    m.text.spanOf start stop

def faultyLine (m : SourceMap) (pc : Int) : Except Fault String :=
  match m.items.get? pc with
  | none => .ok ""
  | some item => do
    let (_, stop) ← item.range
    m.text.lineOf (← m.location pc) stop

def sourceCodeAt (m : SourceMap) (src : String) : Except Fault String := do
  let (start, length) ← sourceRange src
  return Text.slice m.text.content start (start + length)

def rangeAt (src : String) : Except Fault (Int × Int) := do
  let (start, length) ← sourceRange src
  return (start, start + length - 1)

def locationAt (m : SourceMap) (src : String) : Except Fault Span := do
  let (start, stop) ← rangeAt src
  m.text.spanOf start stop

def faultyLineAt (m : SourceMap) (src : String) : Except Fault String := do
  let (_, stop) ← rangeAt src
  m.text.lineOf (← m.locationAt src) stop

def knownName? (names : List String) (text : String) : Option String :=
  match Source.leadingName? text with
  | some name => if names.contains name then some text else none
  | none => none

end SourceMap

end EvmAudit
