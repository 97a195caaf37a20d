import EvmAudit.Graph.Basic
import EvmAudit.Listing.Format

/-! From the text of a listing to its graph. -/

namespace EvmAudit

structure Build where
  /-- The listing in plain form. -/
  text : Option String := none
  graph : Graph := {}
  /-- The source items of the instructions, by address. -/
  items : Table Int SourceItem := {}
  log : List LogLine := []
  cause : Option Fault := none
  deriving Inhabited

/-- The first line of a listing is the code itself; the others are its instructions. -/
def Build.ofListing (items : Option (List (Option SourceItem))) (content : String) : Build :=
  match Listing.format content with
  | .error cause => { cause := some cause }
  | .ok text =>
    let (outline, log, cause) := Listing.outline items ((Text.lines text).drop 1)
    let graph := Graph.ofOutline outline
    match cause with
    | some cause => { text := some text, graph, items := outline.items, log, cause := some cause }
    | none =>
      let (graph, cause) := graph.withBlocks.withFallThrough
      { text := some text, graph, items := outline.items, log, cause }

def mentionsSize (content : String) : Bool := Text.contains "MSIZE" content

end EvmAudit
