import EvmAudit.Proofs.Graph.Shape
import EvmAudit.Proofs.Listing.Printed

/-! From a text to the graph. A text in which a listing is written is read into the graph of the
listing, unless the source map does not fit. -/

namespace EvmAudit

namespace Listing

def Code.ofPrinted (ps : List Printed) (starts : ps.head?.map Printed.address = some 0)
    (increasing : (ps.map Printed.address).Pairwise (· < ·)) : Code where
  lines := ps.map Printed.line
  ne_nil := by
    rintro hnil
    rw [List.map_eq_nil_iff.1 hnil] at starts
    cases starts
  starts := by
    rw [List.head?_map, Option.map_map]
    exact starts
  increasing := by
    rw [List.map_map]
    exact increasing

theorem Code.ofListing_eq {c : Code} {listing text : String} (hformat : format listing = .ok text)
    (hlines : (Text.lines text).drop 1 = c.lines.map Line.row)
    {items : Option (List (Option SourceItem))}
    (hitems : (outline items (c.lines.map Line.row)).2.2 = none) : Build.ofListing items listing =
      { text := some text
        graph := c.linked
        items := (outline items (c.lines.map Line.row)).1.items
        log := (outline items (c.lines.map Line.row)).2.1 } := by
  have hgraph := @withBlocks_outline c items
  rw [Build.ofListing, hformat]
  dsimp only
  rw [hlines]
  generalize outline items (c.lines.map Line.row) = o at hitems hgraph ⊢
  obtain ⟨outline, log, cause | e⟩ := o
  · dsimp only at hgraph ⊢
    rw [hgraph rfl, c.withFallThrough_graph.1]
  · cases hitems

end Listing

end EvmAudit
