import EvmAudit.Document.Writer

/-! The items of compiled assembly: what each instruction is called and which part of the source
text it came from. -/

namespace EvmAudit

/-- Parts that the document lacks are absent; `written` is the item's whole text, by which items
are told apart. -/
structure SourceItem where
  name : Option String
  value : Option String
  start : Option Int
  stop : Option Int
  written : String
  deriving DecidableEq, Repr, Inhabited

namespace SourceItem

def ofDocument (d : Document) : SourceItem where
  name := (d.get? "name").bind Document.text?
  value := (d.get? "value").bind Document.text?
  start := (d.get? "begin").bind Document.int?
  stop := (d.get? "end").bind Document.int?
  written := d.line

def ofRange (start stop : Int) : SourceItem :=
  .ofDocument (.object [("begin", .int start), ("end", .int stop)])

def ofEntry (d : Document) : Option SourceItem :=
  if d.isTruthy then some (.ofDocument d) else none

def range (item : SourceItem) : Except Fault (Int × Int) :=
  match item.start, item.stop with
  | some b, some e => .ok (b, e)
  | _, _ => .error .missingKey

end SourceItem

end EvmAudit
