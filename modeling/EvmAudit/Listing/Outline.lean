import EvmAudit.Block
import EvmAudit.Listing.Lexeme
import EvmAudit.Log
import EvmAudit.Source.Item
import EvmAudit.Table

/-! The outline of a listing: the text of each instruction by its address, the last address of each
block, how each block ends, and which item of the source map each instruction belongs to. -/

namespace EvmAudit.Listing

structure Outline where
  instructions : Table Int String := {}
  ends : Table Int Int := {}
  endings : Table Int Ending := {}
  items : Table Int SourceItem := {}
  deriving Inhabited

/-! ### Alignment with a source map -/

/-- What the source map gives to one instruction: an item or none, and the items left. -/
abbrev Aligned := Option SourceItem × List (Option SourceItem)

def isTag (name : String) : Bool := Text.startsWith name "tag"

/-- An item fits a push if it is a push, and a plain push has the same operand. -/
def fitsPush (item : SourceItem) (name : String) (operand : String) : Except Fault Bool :=
  if name = "PUSH" then do
    let value ← item.value.elim (.error .missingKey) .ok
    match Numeral.read 16 value, Numeral.read 16 operand with
    | some m, some n => return m == n
    | _, _ => throw .badNumeral
  else .ok (Text.startsWith name "PUSH")

def isAlias (itemName mnemonic : String) : Bool :=
  (itemName = "INVALID" && mnemonic = "ASSERTFAIL") ||
    (itemName = "KECCAK256" && mnemonic = "SHA3") ||
    (itemName = "SELFDESTRUCT" && mnemonic = "SUICIDE")

def fitsOther (name mnemonic : String) : Bool := name = mnemonic || isAlias name mnemonic

/-- Skips tags; a separator leaves the instruction without an item; any other item has to fit. -/
def align (fits : SourceItem → String → Except Fault Bool) :
    List (Option SourceItem) → Except Fault Aligned
  | [] => .ok (none, [])
  | none :: rest => .ok (none, rest)
  | some item :: rest => do
    let name ← item.name.elim (.error .missingKey) .ok
    if isTag name then align fits rest
    else if ← fits item name then .ok (some item, rest)
    else .error .sourceMapMismatch

def wordAt (n : Nat) (content : String) : String := ((Text.splitAt ' ' content)[n]?).getD ""

/-! ### Reading the lexemes -/

/-- Between instructions' words; on the first lexeme behind a push, which is passed over; or among
the lexemes of a push's operand. -/
inductive Mode where
  | plain
  | skip
  | operand (digits : String)
  deriving DecidableEq, Repr

structure Reading where
  outline : Outline := {}
  address : Int := 0
  previous : Int := 0
  block : Int := 0
  atLineStart : Bool := true
  atBlockStart : Bool := false
  content : String := ""
  mode : Mode := .plain
  /-- The items left, when there is a source map. -/
  items : Option (List (Option SourceItem)) := none
  log : List LogLine := []

namespace Reading

def store (r : Reading) (fits : SourceItem → String → Except Fault Bool) :
    Reading × Option Fault :=
  let o := { r.outline with instructions := r.outline.instructions.insert r.address r.content }
  let r := { r with outline := o, atLineStart := true, mode := .plain }
  match r.items with
  | none => ({ r with content := "" }, none)
  | some items =>
    match align fits items with
    | .error cause => (r, some cause)
    | .ok (found, rest) =>
      let items := match found with
        | some item => o.items.insert r.address item
        | none => o.items
      ({ r with content := "", items := some rest, outline := { o with items := items } }, none)

def storePush (r : Reading) (digits : String) : Reading × Option Fault :=
  let r := { r with content := r.content ++ digits ++ " " }
  r.store fun item name => fitsPush item name (wordAt 1 r.content)

def storeOther (r : Reading) : Reading × Option Fault :=
  r.store fun _ name => .ok (fitsOther name (wordAt 0 r.content))

def endBlock (r : Reading) (ending : Ending) (atBlockStart : Bool) : Reading :=
  { r with
    outline := { r.outline with
      endings := r.outline.endings.insert r.block ending
      ends := r.outline.ends.insert r.block r.address }
    atBlockStart }

def append (r : Reading) (text : String) : Reading :=
  if text = "=" || text = ">" then r else { r with content := r.content ++ text ++ " " }

def mnemonic (r : Reading) (name : String) : Reading :=
  let r :=
    if name = "JUMPDEST" then
      let ends := if r.outline.ends.contains r.previous then r.outline.ends
        else r.outline.ends.insert r.block r.previous
      { r with outline := { r.outline with ends }, block := r.address, atBlockStart := false }
    else if ["STOP", "RETURN", "SUICIDE", "REVERT", "ASSERTFAIL"].contains name then
      r.endBlock .terminal r.atBlockStart
    else if name = "JUMP" then r.endBlock .unconditional true
    else if name = "JUMPI" then r.endBlock .conditional true
    else if Text.startsWith name "PUSH" then { r with mode := .skip }
    else r
  { r with atLineStart := false }

def atAddress (r : Reading) (x : Lexeme) : Reading × Option Fault :=
  let r := { r with previous := r.address }
  match Numeral.read 10 x.text with
  | none =>
    let text := "ERROR when parsing row " ++ toString x.row ++ " col " ++ toString x.column
    ({ r with log := r.log ++ [⟨.critical, text⟩] }, some (.exit none))
  | some n =>
    let r := { r with address := n, atLineStart := false }
    (if r.atBlockStart then { r with block := n, atBlockStart := false } else r, none)

def step (r : Reading) (x : Lexeme) : Reading × Option Fault :=
  match r.mode with
  | .skip => ({ r with mode := .operand "" }, none)
  | .operand digits =>
    if x.kind = .newline then r.storePush digits
    else if (Numeral.read 16 x.text).isSome then
      ({ r with mode := .operand (digits ++ x.text) }, none)
    else (r, none)
  | .plain =>
    match x.kind with
    | .number => if r.atLineStart then r.atAddress x else (r.append x.text, none)
    | .newline => r.storeOther
    | .name => ((r.mnemonic x.text).append x.text, none)
    | _ => (r.append x.text, none)

def steps : List Lexeme → Reading → Reading × Option Fault
  | [], r => (r, none)
  | x :: xs, r =>
    match r.step x with
    | (r, some cause) => (r, some cause)
    | (r, none) => steps xs r

/-- The last block ends with the listing; a block whose end has no jump falls to the next one. -/
def close (r : Reading) : Outline :=
  let o := r.outline
  let ends := if o.ends.contains r.block then o.ends else o.ends.insert r.block r.address
  let endings := if o.endings.contains r.block then o.endings
    else o.endings.insert r.block .terminal
  let endings := ends.keys.foldl
    (fun es key => if es.contains key then es else es.insert key .fallsTo) endings
  { o with ends, endings }

end Reading

def outline (items : Option (List (Option SourceItem))) (lines : List String) :
    Outline × List LogLine × Option Fault :=
  let (xs, failure) := lexemes lines
  match Reading.steps xs { items } with
  | (r, some cause) => (r.outline, r.log, some cause)
  | (r, none) =>
    match failure with
    | some cause => (r.outline, r.log, some cause)
    | none => (r.close, r.log, none)

end EvmAudit.Listing
