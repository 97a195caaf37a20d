import EvmAudit.Proofs.Explore.Targets

/-! The edges of the graph and the exploration. A block leads on only along an edge that is known by
then. What is known stays, and nothing is listed twice. -/

namespace EvmAudit

namespace Graph

variable {g g' : Graph} {source target k : Int} {ts : List Int}

def EdgesNodup (g : Graph) : Prop := ∀ k ts, g.edges.get? k = some ts → ts.Nodup

/-- Edges have been added, none of them twice. -/
structure Extends (g g' : Graph) : Prop where
  links : ∀ source target, g.Links source target → g'.Links source target
  nodup : g.EdgesNodup → g'.EdgesNodup

theorem Extends.of_edges (h : g'.edges = g.edges) : g.Extends g' := by
  refine ⟨fun source target hlinks => ?_, fun hnodup => ?_⟩
  · rwa [Links, h]
  · rwa [EdgesNodup, h]

theorem Extends.trans {g'' : Graph} (h : g.Extends g') (h' : g'.Extends g'') : g.Extends g'' :=
  ⟨fun _ _ hlinks => h'.links _ _ (h.links _ _ hlinks), fun hnodup => h'.nodup (h.nodup hnodup)⟩

theorem edges_updateBlock (g : Graph) (key : Int) (f : Block → Block) :
    (g.updateBlock key f).edges = g.edges := by
  unfold updateBlock
  split <;> rfl

theorem extends_addEdge (g : Graph) (source target : Int) :
    g.Extends (g.addEdge source target) := by
  refine ⟨fun k t ⟨ts, hts, ht⟩ => ?_, fun hnodup k ts hts => ?_⟩
  · rw [Links, get?_addEdge]
    split
    next hk =>
      rw [← hk.1, hts]
      exact ⟨_, rfl, List.mem_append_left _ ht⟩
    · exact ⟨ts, hts, ht⟩
  · rw [get?_addEdge] at hts
    split at hts
    next hk =>
      cases hts
      have hold : ((g.edges.get? source).getD []).Nodup := by
        cases hedges : g.edges.get? source with
        | none => exact List.nodup_nil
        | some old => exact hnodup source old hedges
      exact List.nodup_append.2 ⟨hold, List.nodup_singleton _, fun a ha b hb => by
        rintro rfl
        exact hk.2 (List.mem_singleton.1 hb ▸ ha)⟩
    · exact hnodup k ts hts

theorem edges_foldl (h : ∀ k ts, g.edges.get? k = some ts → ts = []) (es : List (Int × Int)) :
    ∀ k ts, (es.foldl addBlock g).edges.get? k = some ts → ts = [] := by
  induction es generalizing g with
  | nil => exact h
  | cons e es ih =>
    refine ih fun k ts hts => ?_
    unfold addBlock at hts
    split at hts
    · rw [Table.get?_insert] at hts
      split at hts
      · exact (Option.some.inj hts).symm
      · exact h k ts hts
    · exact h k ts hts

end Graph

namespace Listing.Code

variable {c : Code} {k next : Int} {b : Block}

theorem edgesNodup_linked (c : Code) : c.linked.EdgesNodup := by
  intro k ts hts
  rcases c.withFallThrough_graph.2 k with ⟨next, -, -, -, hedges⟩ | ⟨-, -, hedges⟩ <;>
    rw [hedges] at hts
  · cases hts
    exact List.nodup_singleton _
  · rw [Graph.edges_foldl (fun k ts h => by cases h) _ k ts hts]
    exact List.nodup_nil

theorem links_linked (hb : c.linked.blocks.get? k = some b)
    (hending : b.ending = some .fallsTo ∨ b.ending = some .conditional)
    (hnext : b.fallsTo = some next) : c.linked.Links k next := by
  obtain ⟨-, -, -, -, -, -, -, -, hled⟩ := block_linked hb
  obtain ⟨hlater, hlt, -⟩ := hled next hnext
  obtain ⟨next', hnext', hedges, -⟩ := falls_linked hb hending hlater hlt
  cases hnext.symm.trans hnext'
  exact ⟨_, hedges, List.mem_singleton_self _⟩

end Listing.Code

namespace Exec

open Listing

variable {ctx : Context} {entries : Table Int String} {code : Code} {root c d : Call}
variable {m m' : Machine} {block : Int} {site : Site} {text : String}

/-! ### Instructions -/

def Lengthens (m m' : Machine) : Prop := m.shared.graph.Extends m'.shared.graph

instance : Permits Lengthens [.stack] where
  refl _ := .of_edges rfl
  trans := Graph.Extends.trans
  replace {p} hp _ _ _ := by
    cases List.mem_singleton.1 hp
    exact .of_edges rfl

theorem lengthens_updateBlock (block : Int) (f : Block → Block) :
    Within Lengthens (updateBlock block f) :=
  within_updateBlock fun _ => .of_edges (Graph.edges_updateBlock _ _ _)

theorem lengthens_addEdge (block target : Int) : Within Lengthens (addEdge block target) := by
  refine touches_getShared.bind fun s => ?_
  split
  · exact touches_throw _
  · exact fun m => m.shared.graph.extends_addEdge block target

theorem lengthens_jump (block : Int) : Within Lengthens (jump ctx block) :=
  (touches_need 1).bind fun _ => touches_pop.bind fun v => (touches_targetOf v).bind fun target =>
    (lengthens_updateBlock block _).bind fun _ => lengthens_addEdge block target

theorem lengthens_jumpIf (block : Int) : Within Lengthens (jumpIf ctx block) :=
  (touches_need 2).bind fun _ => touches_pop.bind fun v => (touches_targetOf v).bind fun target =>
    (lengthens_updateBlock block _).bind fun _ => touches_pop.bind fun _ =>
    (touches_ofExcept _).bind fun _ =>
    (lengthens_updateBlock block _).bind fun _ => lengthens_addEdge block target

theorem lengthens_traced (site : Site) (text : String) :
    Within Lengthens (traced ctx site text) := by
  intro m
  have hbooks {m m' : Machine} (h : m.AlikeBut bookkeeping m') : Lengthens m m' :=
    .of_edges (by rw [h.graph])
  rcases @traced_cases ctx site text m with ⟨e, -, -, hend⟩ | ⟨m₁, -, hready, -, hend⟩
  · exact hbooks hend
  refine ((hbooks hready).trans ?_).trans (hbooks hend)
  have hperform :=
    touches_perform ctx site (Instruction.ofText text).name (Instruction.ofText text).operation m₁
  by_cases hgraph : .graph ∈ footprint (Instruction.ofText text).operation
  · have hop : (Instruction.ofText text).operation = .jump ∨
        (Instruction.ofText text).operation = .jumpIf := by
      generalize (Instruction.ofText text).operation = op at hgraph
      cases op <;> simp [footprint] at hgraph ⊢
    rcases hop with hop | hop <;> rw [effect, hop]
    · exact lengthens_jump _ m₁
    · exact lengthens_jumpIf _ m₁
  · exact .of_edges (congrArg Graph.edges (hperform .graph hgraph))

theorem maintains_of_extends {P : Graph → Prop} (hP : ∀ {g g'}, g.Extends g' → P g → P g') :
    Maintains ctx entries root fun m => P m.shared.graph :=
  maintains_of_alike (fun {_ site text m} _ _ => hP (lengthens_traced site text m))
    (fun {m} => hP (.of_edges (congrArg Graph.edges (touches_record m .graph (by decide)))))
    fun halike => hP (.of_edges (by rw [halike.graph]))

/-! ### The edge that a jump takes -/

theorem links_of_jump {op : Operation} (hop : op = .jump ∨ op = .jumpIf) {name : String}
    (h : (perform ctx site name op).outcome m = (.ok (), m')) :
    ∃ b, m'.shared.graph.blocks.get? site.block = some b ∧
    m'.shared.graph.Links site.block b.targetAddress := by
  rcases hop with rfl | rfl
  · obtain ⟨v, rest, hstack⟩ := List.exists_cons_of_length_pos (items_of_need h)
    obtain ⟨n, b, -, hb, rfl, hlinks, -⟩ := jump_ok hstack h
    exact ⟨b, hb, hlinks⟩
  · obtain ⟨v, flag, rest, hstack⟩ := exists_two_items (items_of_need h)
    obtain ⟨n, found, b, -, -, hb, rfl, hlinks, -⟩ := jumpIf_ok hstack h
    exact ⟨b, hb, hlinks⟩

/-- A block that has been executed leads to the target of the jump at its end by an edge that the
jump has found, and to the next block by an edge of the listing. -/
theorem links_of_completes (hgraph : code.linked.Same c.machine.shared.graph) {texts : List String}
    {m₁ : Machine} {b : Block}
    (henter : (enter ctx entries c.visit).outcome c.machine = (.ok (some (site, texts)), m₁))
    (hrun : (runAll ctx site texts).outcome m₁ = (.ok (), m))
    (hb : m.shared.graph.blocks.get? site.block = some b) :
    (m.shared.graph.endings.get? site.block = some .unconditional ∨
      m.shared.graph.endings.get? site.block = some .conditional →
      m.shared.graph.Links c.visit.block b.targetAddress) ∧
    ∀ next, b.fallsTo = some next → m.shared.graph.endings.get? site.block = some .fallsTo ∨
      m.shared.graph.endings.get? site.block = some .conditional →
      code.linked.Links c.visit.block next := by
  obtain ⟨-, rfl, hsite, -, b₀, hb₀, rfl⟩ := enter_some henter
  obtain ⟨b', before, front, last, rest, hb', hspan, -, -, htexts⟩ := exists_last hgraph hb₀
  obtain ⟨hends, hjumpi, hjump⟩ :=
    code.wellFormed_linked.ending c.visit.block b' last hb' (by simp [hspan])
  have hsame : code.linked.Same m.shared.graph := by
    obtain ⟨n, hchanges, -⟩ :=
      @accounts_runAll ctx site b₀.instructions (c.machine.counted c.visit.edge)
    rw [hrun] at hchanges
    exact hgraph.trans hchanges.graph
  rw [hsite, hsame.endings, hends]
  rw [hsite] at hb
  refine ⟨fun hending => ?_, fun next hnext hending => ?_⟩
  · have hop : (Instruction.ofText last.text).operation = .jump ∨
        (Instruction.ofText last.text).operation = .jumpIf := by
      rw [Line.ofText_text]
      rcases hending with hending | hending
      · rw [hjump.1 hending]
        exact .inl rfl
      · rw [hjumpi.1 hending]
        exact .inr rfl
    rw [htexts] at hrun
    obtain ⟨mj, -, hrest⟩ := runAll_append_ok hrun
    obtain ⟨_, m₂, htraced, hnil⟩ := outcome_bind_eq_ok.1 hrest
    cases hnil
    obtain ⟨m₃, m₄, -, -, heffect, hafter⟩ := performs_of_traced htraced
    obtain ⟨b₁, hb₁, hlinks⟩ := links_of_jump hop heffect
    rw [hsite] at hb₁ hlinks
    rw [hafter.graph, hb₁] at hb
    cases hb
    rwa [hafter.graph]
  · obtain ⟨b₂, hb₂, hfixed⟩ := hsame.block hb
    cases hb'.symm.trans hb₂
    exact Code.links_linked hb' hending ((congrArg Block.fallsTo hfixed).trans hnext)

theorem Next.links (hgraph : code.linked.Same c.machine.shared.graph) (h : Next ctx entries c d) :
    (∃ m, Completes ctx entries c m ∧ m.shared.graph.Links c.visit.block d.visit.block) ∨
      code.linked.Links c.visit.block d.visit.block := by
  cases h with
  | go hv =>
    obtain ⟨texts, m₀, m₂, m₃, henter, hrun, -, hsame, honward⟩ := entered_of_onward hv (by nofun)
    obtain ⟨b, hb, -, hcases⟩ := onward_ok honward
    rw [hsame] at hb hcases
    obtain ⟨hjump, hfall⟩ := links_of_completes hgraph henter hrun hb
    rcases hcases with ⟨hending, hnext⟩ | ⟨hending, hnext⟩
    · exact .inl ⟨m₂, ⟨_, _, _, henter, hrun⟩, hnext ▸ hjump (.inl hending)⟩
    · exact .inr (hfall _ hnext (.inl hending))
  | target hv ht =>
    obtain ⟨texts, m₀, m₂, m₃, henter, hrun, -, hsame, honward⟩ := entered_of_onward hv (by nofun)
    obtain ⟨rfl, hb, hending, -⟩ := onward_ok honward
    rw [hsame] at hb hending
    cases (outcome_approach_some ht).1
    exact .inl ⟨m₂, ⟨_, _, _, henter, hrun⟩,
      (links_of_completes hgraph henter hrun hb).1 (.inr hending)⟩
  | fall hv ht hf =>
    obtain ⟨texts, m₀, m₂, m₃, henter, hrun, -, hsame, honward⟩ := entered_of_onward hv (by nofun)
    obtain ⟨rfl, hb, hending, -⟩ := onward_ok honward
    rw [hsame] at hb hending
    have hnext := getFallsTo_eq_ok.1 (outcome_approach_some hf).1
    exact .inr ((links_of_completes hgraph henter hrun hb).2 _ hnext (.inr hending))

/-- In every exploration of a listing: when a block is entered from another one, there is an edge
between them; at no moment is an edge listed twice; and nothing that happens removes an edge, so
that what an instruction has left is there at the end. -/
theorem edges_of_exploration (hroot : Begins ctx code.linked entries root)
    (hreach : Reaches ctx entries root c) :
    (∀ d, Next ctx entries c d → d.machine.shared.graph.Links c.visit.block d.visit.block) ∧
    (∀ m, Moment ctx entries c m → m.shared.graph.EdgesNodup) ∧
    ∀ source target, Maintains ctx entries root (fun m => m.shared.graph.Links source target) ∧
      ∀ site text m, Runs ctx entries c.visit c.machine site text m →
        ((traced ctx site text).outcome m).2.shared.graph.Links source target →
        (root.ending ctx entries).shared.graph.Links source target := by
  have hgraph : root.machine.shared.graph = code.linked := by rw [hroot.consistent.2.2]
  have hlinks (source target : Int) :
      Maintains ctx entries root fun m => m.shared.graph.Links source target :=
    maintains_of_extends (P := (·.Links source target)) fun h => h.links source target
  have hnodup : Maintains ctx entries root fun m => m.shared.graph.EdgesNodup :=
    maintains_of_extends (P := Graph.EdgesNodup) fun h => h.nodup
  refine ⟨fun d hnext => ?_, fun m hm => ?_,
    fun source target => ⟨hlinks source target, fun site text m hruns => ?_⟩⟩
  · rcases hnext.links (placed_of_reach hroot hreach).graph with ⟨m, hcompletes, hlink⟩ | hlink
    · exact (hlinks _ _).next_of_completes hreach hcompletes hlink hnext
    · exact (hlinks _ _).holds (by rwa [hgraph]) hreach hnext.moment
  · exact hnodup.holds (by rw [hgraph]; exact code.edgesNodup_linked) hreach hm
  · exact (hlinks source target).ending_of_runs hreach hruns

/-- A jump is taken along an edge that the listing does not give. -/
theorem edges_of_exploration_jumpAhead : ∃ d,
    Begins affirming jumpAhead.linked {} (.first affirming jumpAhead.assembled) ∧
    Next affirming {} (.first affirming jumpAhead.assembled) d ∧
    d.machine.shared.graph.Links 0 3 := by
  obtain ⟨d, -, -, hjump, hblock, -⟩ := jumpsTo_jumpAhead
  obtain ⟨hlinks, -⟩ := edges_of_exploration begins_jumpAhead .refl
  exact ⟨d, begins_jumpAhead, hjump.next, hblock ▸ hlinks d hjump.next⟩

end Exec

end EvmAudit
