import EvmAudit.Graph.Basic
import EvmAudit.Proofs.Listing.Code

/-! The blocks of the graph of a listing. -/

namespace EvmAudit

namespace Graph

variable {g g' : Graph} {es : List (Int × Int)}

def addBlock (g : Graph) (e : Int × Int) : Graph :=
  if g.instructions.contains e.1 then
    { g with
      blocks := g.blocks.insert e.1 (g.blockAt e.1 e.2)
      edges := g.edges.insert e.1 [] }
  else g

structure SameText (g g' : Graph) : Prop where
  instructions : g'.instructions = g.instructions
  endings : g'.endings = g.endings

theorem SameText.blockAt (h : SameText g g') (key stop : Int) :
    g'.blockAt key stop = g.blockAt key stop := by
  simp only [Graph.blockAt, h.instructions, h.endings]

theorem SameText.addBlock (h : SameText g g') (e : Int × Int) : SameText g (g'.addBlock e) := by
  unfold Graph.addBlock
  split
  · exact ⟨h.instructions, h.endings⟩
  · exact h

theorem SameText.foldl (h : SameText g g') (es : List (Int × Int)) :
    SameText g (es.foldl Graph.addBlock g') := by
  induction es generalizing g' with
  | nil => exact h
  | cons e es ih => exact ih (h.addBlock e)

theorem get?_foldl_of_not_mem {k : Int}
    (h : k ∉ es.map Prod.fst) : (es.foldl addBlock g).blocks.get? k = g.blocks.get? k := by
  induction es generalizing g with
  | nil => rfl
  | cons e es ih =>
    simp only [List.map_cons, List.mem_cons, not_or] at h
    rw [List.foldl_cons, ih h.2, addBlock]
    split
    · exact Table.get?_insert_of_ne h.1 _ _
    · rfl

theorem get?_foldl_of_mem (hg : SameText g g') (hnd : (es.map Prod.fst).Nodup) {k stop : Int}
    (hm : (k, stop) ∈ es) (hk : g.instructions.contains k = true) :
    (es.foldl addBlock g').blocks.get? k = some (g.blockAt k stop) := by
  induction es generalizing g' with
  | nil => simp at hm
  | cons e es ih =>
    rw [List.map_cons, List.nodup_cons] at hnd
    rw [List.foldl_cons]
    rcases List.mem_cons.1 hm with rfl | hm
    · rw [get?_foldl_of_not_mem hnd.1]
      simp [addBlock, hg.instructions, hk, hg.blockAt]
    · exact ih (hg.addBlock e) hnd.2 hm

end Graph

namespace Listing.Code

variable {c : Code} {before rest : List Line} {l : Line}

def graph (c : Code) : Graph := (Graph.ofOutline (outlineOf c.lines)).withBlocks

theorem withBlocks_outline {items : Option (List (Option SourceItem))}
    (h : (outline items (c.lines.map Line.row)).2.2 = none) :
    (Graph.ofOutline (outline items (c.lines.map Line.row)).1).withBlocks = c.graph := by
  rw [graph, ← outline_items h]
  rfl

theorem keys_instructions (c : Code) :
    (outlineOf c.lines).instructions.keys = c.lines.map fun l => (l.address : Int) := by
  simp [Table.keys, c.instructions]

theorem sortInts_keys (c : Code) :
    sortInts (outlineOf c.lines).instructions.keys = c.lines.map fun l => (l.address : Int) := by
  rw [keys_instructions]
  refine List.mergeSort_of_pairwise ?_
  have h := c.increasing
  rw [List.pairwise_map] at h ⊢
  exact h.imp fun hlt => by simpa using le_of_lt hlt

theorem nodup_keys_instructions (c : Code) : (outlineOf c.lines).instructions.keys.Nodup := by
  have h := c.increasing
  rw [keys_instructions, List.Nodup, List.pairwise_map]
  rw [List.pairwise_map] at h
  exact h.imp fun hlt heq => by omega

theorem get?_instructions (hl : l ∈ c.lines) :
    (outlineOf c.lines).instructions.get? l.address = some l.text := by
  refine Table.get?_of_mem c.nodup_keys_instructions ?_
  rw [c.instructions]
  exact List.mem_map.2 ⟨l, hl, rfl⟩

theorem address_lt (hc : c.lines = before ++ l :: rest) :
    (∀ n ∈ before, n.address < l.address) ∧ Increasing l.address rest := by
  have h := c.increasing
  rw [hc, List.map_append, List.pairwise_append] at h
  refine ⟨fun n hn => h.2.2 _ (List.mem_map_of_mem hn) _ (by simp), increasing_of_pairwise h.2.1⟩

theorem filter_eq_takeWhile {a stop : Int} {ls : List Line} (hinc : Increasing a ls) :
    ls.filter (fun n => decide (a < (n.address : Int) ∧ (n.address : Int) ≤ stop)) =
      ls.takeWhile (fun n => decide ((n.address : Int) ≤ stop)) := by
  induction ls generalizing a with
  | nil => rfl
  | cons n ls ih =>
    have hn := hinc.1
    by_cases hs : (n.address : Int) ≤ stop
    · have htail : ls.filter (fun m => decide (a < (m.address : Int) ∧ (m.address : Int) ≤ stop)) =
          ls.filter (fun m =>
          decide ((n.address : Int) < m.address ∧ (m.address : Int) ≤ stop)) := by
        refine List.filter_congr fun m hm => ?_
        have := hinc.2.lt_of_mem hm
        simp only [decide_eq_decide]
        omega
      rw [List.filter_cons_of_pos (by simp [hn, hs]), List.takeWhile_cons_of_pos (by simp [hs]),
        htail, ih hinc.2]
    · rw [List.filter_cons_of_neg (by simp [hs]), List.takeWhile_cons_of_neg (by simp [hs]),
        List.filter_eq_nil_iff]
      intro m hm
      have := hinc.2.lt_of_mem hm
      simp only [decide_eq_true_eq, not_and]
      omega

theorem filter_lines (hc : c.lines = before ++ l :: rest) (stop : Int) :
    c.lines.filter (fun n => decide ((l.address : Int) < n.address ∧ (n.address : Int) ≤ stop)) =
      rest.takeWhile (fun n => decide ((n.address : Int) ≤ stop)) := by
  obtain ⟨hbefore, hinc⟩ := address_lt hc
  have hnil : before.filter
      (fun n => decide ((l.address : Int) < n.address ∧ (n.address : Int) ≤ stop)) = [] := by
    rw [List.filter_eq_nil_iff]
    intro n hn
    have := hbefore n hn
    simp only [decide_eq_true_eq, not_and]
    omega
  rw [hc, List.filter_append, hnil, List.filter_cons_of_neg (by simp), List.nil_append,
    filter_eq_takeWhile hinc]

theorem blockAt_instructions (hc : c.lines = before ++ l :: rest) (stop : Int) :
    ((Graph.ofOutline (outlineOf c.lines)).blockAt l.address stop).instructions =
      (l :: rest.takeWhile (fun n => decide ((n.address : Int) ≤ stop))).map Line.text := by
  have hl : l ∈ c.lines := by simp [hc]
  simp only [Graph.blockAt, Graph.ofOutline, get?_instructions hl, c.sortInts_keys,
    Option.toList_some, List.singleton_append, List.map_cons, List.cons.injEq, true_and]
  rw [List.filter_map, Function.comp_def, filter_lines hc, List.filterMap_map]
  rw [← List.filterMap_eq_map]
  refine List.filterMap_congr fun n hn => ?_
  have hn' : n ∈ c.lines := by
    rw [hc]
    simp [(List.takeWhile_sublist _).subset hn]
  exact get?_instructions hn'

theorem block_leader (hc : c.lines = before ++ l :: rest) (hl : leads before l = true) :
    ∃ b, c.graph.blocks.get? l.address = some b ∧
      b.instructions = (l :: body (l.closes || presets before l) l.jumps rest).map Line.text ∧
      b.fallsTo = none := by
  obtain ⟨stop, hstop, hbody⟩ := ends_leader hc hl
  have hmem : l ∈ c.lines := by simp [hc]
  refine ⟨(Graph.ofOutline (outlineOf c.lines)).blockAt l.address stop, ?_, ?_, rfl⟩
  · exact Graph.get?_foldl_of_mem ⟨rfl, rfl⟩ (nodup_keys_ends c.lines) (Table.mem_of_get? hstop)
      (Table.contains_iff.2 ⟨_, get?_instructions hmem⟩)
  · rw [blockAt_instructions hc, hbody]

theorem led_of_block {k : Int} {b : Block} (h : c.graph.blocks.get? k = some b) :
    Led c.lines k := by
  refine led_of_contains ?_
  by_contra hne
  rw [← Table.mem_keys] at hne
  have hnone : c.graph.blocks.get? k = none := Graph.get?_foldl_of_not_mem hne
  simp [hnone] at h

/-- Every block is its leader with the extent of the leader, and every leader has a block. -/
def Exact (c : Code) (g : Graph) : Prop :=
  (∀ k b, g.blocks.get? k = some b → Led c.lines k) ∧
    ∀ before l rest, c.lines = before ++ l :: rest → leads before l = true →
      ∃ b, g.blocks.get? l.address = some b ∧
        b.instructions = (l :: extent l.closes rest).map Line.text

/-- An instruction that halts stands before a target, or nothing after it begins or ends a block;
and where the end of a block is known too early, the lines after its leader move it on. -/
def Tidy (c : Code) : Prop :=
  ∀ before l rest, c.lines = before ++ l :: rest →
    (l.halts = true → (∃ n, rest.head? = some n ∧ n.isTarget = true) ∨ quiet rest = true) ∧
      (presets before l = true → rest = [] ∨ quiet rest = false)

def Neat (c : Code) : Prop :=
  ∀ before l rest, c.lines = before ++ l :: rest → leads before l = true →
    neat (l.closes || presets before l) l rest = true

theorem forall_split_iff {xs : List Line} {P : List Line → Line → List Line → Prop} :
    (∀ before l rest, xs = before ++ l :: rest → P before l rest) ↔
      ∀ i : Fin xs.length, P (xs.take i) (xs.get i) (xs.drop (i + 1)) := by
  constructor
  · intro h i
    exact h _ _ _ (by simp)
  · rintro h before l rest rfl
    simpa using h ⟨before.length, by simp⟩

instance (c : Code) : Decidable c.Neat := decidable_of_iff' _ forall_split_iff

theorem exact_iff_neat (c : Code) : c.Exact c.graph ↔ c.Neat := by
  constructor
  · intro h before l rest hc hl
    obtain ⟨b, hb, htexts⟩ := h.2 before l rest hc hl
    obtain ⟨b', hb', htexts', -⟩ := block_leader hc hl
    have hbb : b = b' := Option.some.inj (hb.symm.trans hb')
    rw [← hbb, htexts, List.map_cons, List.map_cons, List.cons.injEq] at htexts'
    have hlen := congrArg List.length htexts'.2
    rw [List.length_map, List.length_map] at hlen
    have hpre :=
      List.prefix_of_prefix_length_le (body_isPrefix (l.closes || presets before l) l.jumps rest)
      (extent_isPrefix l.closes rest) (le_of_eq hlen.symm)
    exact (body_eq_extent_iff (by simp +contextual) rest).1 (hpre.eq_of_length hlen.symm)
  · intro h
    refine ⟨fun k b hb => led_of_block hb, fun before l rest hc hl => ?_⟩
    obtain ⟨b, hb, htexts, -⟩ := block_leader hc hl
    refine ⟨b, hb, ?_⟩
    rw [htexts, (body_eq_extent_iff (by simp +contextual) rest).2 (h before l rest hc hl)]

theorem Neat.exists_neat (h : c.Neat) (hc : c.lines = before ++ l :: rest) :
    ∃ known, neat known l rest = true := by
  induction before using List.reverseRecOn generalizing l rest with
  | nil => exact ⟨_, h [] l rest hc rfl⟩
  | append_singleton before p ih =>
    by_cases hl : leads (before ++ [p]) l = true
    · exact ⟨_, h _ l rest hc hl⟩
    obtain ⟨hj, ht⟩ : p.jumps = false ∧ l.isTarget = false := by
      simpa [leads_concat] using hl
    have hc' : c.lines = before ++ p :: l :: rest := by simpa using hc
    obtain ⟨known, hk⟩ := ih hc'
    rw [neat] at hk
    cases hh : p.halts with
    | true => exact ⟨false, neat_of_quiet (by simpa [hj, ht, hh] using hk)⟩
    | false =>
      rw [hj, ht, hh, Bool.or_false, Bool.false_or, if_neg (by simp), Bool.and_eq_true] at hk
      exact ⟨_, hk.2⟩

theorem neat_iff_tidy (c : Code) : c.Neat ↔ c.Tidy := by
  constructor
  · intro h before l rest hc
    constructor
    · intro hh
      obtain ⟨known, hk⟩ := h.exists_neat hc
      have hj := (Line.of_halts hh).2.1
      cases rest with
      | nil => exact Or.inr rfl
      | cons n rest =>
        rw [neat, hj, hh] at hk
        rcases Bool.or_eq_true _ _ ▸ hk with ht | hq
        · exact Or.inl ⟨n, rfl, by simpa using ht⟩
        · exact Or.inr hq
    · intro hp
      have ht : l.isTarget = true := by
        rw [presets, Bool.and_eq_true] at hp
        exact hp.1
      obtain ⟨-, hhalts, hjumps, -⟩ := Line.of_target (l := l) (by simpa [Line.isTarget] using ht)
      have hl : leads before l = true := by
        rw [leads]
        split <;> simp [ht]
      have hneat := h before l rest hc hl
      cases rest with
      | nil => exact Or.inl rfl
      | cons n rest =>
        right
        rw [neat, hp, hhalts, hjumps, Bool.or_true, Bool.false_or, if_neg (by simp)] at hneat
        cases hn : n.isTarget with
        | true => simp [quiet, hn]
        | false => simp_all
  · intro h before l rest hc hl
    refine neat_of_forall (fun b m r hm => ?_) ?_
    · exact (h (before ++ b) m r (by rw [hc, hm, List.append_assoc])).1
    · intro hk
      rcases Bool.or_eq_true _ _ ▸ hk with hk | hk
      · exact Or.inl hk
      · exact Or.inr ((h before l rest hc).2 hk)

/-- A listing without a source map is always read to its end. Whenever it is, the blocks are exactly
the leaders with their extents if, and only if, the listing is tidy. -/
theorem blocks_exact_iff_tidy (c : Code) :
    (outline none (c.lines.map Line.row)).2.2 = none ∧
      ∀ items, (outline items (c.lines.map Line.row)).2.2 = none →
        (c.Exact (Graph.ofOutline (outline items (c.lines.map Line.row)).1).withBlocks ↔
          c.Tidy) := by
  refine ⟨by rw [outline_rows], fun items h => ?_⟩
  rw [withBlocks_outline h, exact_iff_neat, neat_iff_tidy]

def jumpOver : Code := .ofDrafts
  [⟨0, "PUSH1", some "04"⟩, ⟨2, "JUMP", none⟩, ⟨3, "STOP", none⟩, ⟨4, "JUMPDEST", none⟩,
    ⟨5, "STOP", none⟩]

/-- The listing is tidy, and its blocks are exact. -/
theorem blocks_exact_iff_tidy_jumpOver :
    (outline none (jumpOver.lines.map Line.row)).2.2 = none ∧ jumpOver.Tidy ∧
      jumpOver.Exact
        (Graph.ofOutline (outline none (jumpOver.lines.map Line.row)).1).withBlocks := by
  obtain ⟨hread, hiff⟩ := blocks_exact_iff_tidy jumpOver
  have htidy : jumpOver.Tidy := (neat_iff_tidy _).1 (by decide)
  exact ⟨hread, htidy, (hiff none hread).2 htidy⟩

def targetFirst : Code := .ofDrafts
  [⟨0, "JUMPDEST", none⟩, ⟨1, "CALLER", none⟩, ⟨2, "POP", none⟩]

theorem targetFirst_not_exact :
    ¬ targetFirst.Exact
      (Graph.ofOutline (outline none (targetFirst.lines.map Line.row)).1).withBlocks := by
  rw [withBlocks_outline (by rw [outline_rows]), exact_iff_neat]
  decide

end Listing.Code

end EvmAudit
