import EvmAudit.Proofs.Explore.Reentry

/-! Where jumps lead. A jump is followed if there is a block at its target. Blocks begin at the
targets of the listing, but at its first line and behind every jump as well. -/

namespace EvmAudit

namespace Listing.Code

def MarkedAt (c : Code) (k : Int) : Prop := ∃ l ∈ c.lines, l.mnemonic = "JUMPDEST" ∧ k = l.address

def BehindJump (c : Code) (k : Int) : Prop :=
  ∃ before p l rest, c.lines = before ++ p :: l :: rest ∧ p.jumps = true ∧ k = l.address

theorem led_iff (c : Code) (k : Int) : Led c.lines k ↔ c.MarkedAt k ∨ k = 0 ∨ c.BehindJump k := by
  constructor
  · rintro ⟨before, l, rest, hc, hl, rfl⟩
    cases before using List.reverseRecOn with
    | nil =>
      obtain ⟨first, ls, hlines, hzero, -⟩ := c.exists_first
      obtain ⟨rfl, -⟩ := List.cons.inj (hlines.symm.trans hc)
      exact .inr (.inl (by rw [hzero]; rfl))
    | append_singleton before p =>
      rw [leads_concat, Bool.or_eq_true] at hl
      rcases hl with hjumps | htarget
      · exact .inr (.inr ⟨before, p, l, rest, by simpa using hc, hjumps, rfl⟩)
      · exact .inl ⟨l, by simp [hc], by simpa [Line.isTarget] using htarget, rfl⟩
  · rintro (⟨l, hl, htarget, rfl⟩ | rfl | ⟨before, p, l, rest, hc, hjumps, rfl⟩)
    · obtain ⟨before, rest, hc⟩ := List.append_of_mem hl
      refine ⟨before, l, rest, hc, ?_, rfl⟩
      unfold leads
      split
      · rfl
      · simp [Line.isTarget, htarget]
    · obtain ⟨first, ls, hlines, hzero, -⟩ := c.exists_first
      exact ⟨[], first, ls, hlines, rfl, by rw [hzero]; rfl⟩
    · exact ⟨before ++ [p], l, rest, by simpa using hc, by rw [leads_concat, hjumps]; rfl, rfl⟩

end Listing.Code

namespace Exec

variable {c d : Call} {texts : List String}

open Listing

variable {ctx : Context} {entries : Table Int String} {code : Code}

/-! ### Blocks that are executed -/

/-- Neither the limits nor the functions of the source keep the block of a call from being
executed. -/
structure Admits (ctx : Context) (entries : Table Int String) (c : Call) : Prop where
  counted : Counted ctx entries c.visit
  loops : c.machine.count c.visit.edge + 1 ≤ ctx.settings.loopLimit
  gas : c.machine.path.analysis.gas ≤ ctx.settings.gasLimit

theorem admitted_iff {v : Visit} {function : String} {m : Machine} {site : Site}
    {texts : List String} : admitted ctx v function m = some (site, texts) ↔
      m.count v.edge + 1 ≤ ctx.settings.loopLimit ∧ m.path.analysis.gas ≤ ctx.settings.gasLimit ∧
        ∃ b, m.shared.graph.blocks.get? v.block = some b ∧ texts = b.instructions ∧
          site = ⟨v.block, v.caller, function⟩ := by
  unfold admitted
  split
  · exact iff_of_false (by simp) fun h => by omega
  · split
    · exact iff_of_false (by simp) fun h => by omega
    · rw [Option.map_eq_some_iff]
      constructor
      · rintro ⟨b, hb, h⟩
        cases h
        exact ⟨by omega, by omega, b, hb, rfl, rfl⟩
      · rintro ⟨-, -, b, hb, rfl, rfl⟩
        exact ⟨b, hb, rfl⟩

theorem entered_iff (hgraph : code.linked.Same c.machine.shared.graph) :
    (∃ site texts m,
      (enter ctx entries c.visit).outcome c.machine = (.ok (some (site, texts)), m)) ↔
        Admits ctx entries c ∧ Code.Led code.lines c.visit.block := by
  have hled : (∃ b, c.machine.shared.graph.blocks.get? c.visit.block = some b) ↔
      Code.Led code.lines c.visit.block := by
    rw [← code.contains_linked, Table.contains, ← Option.isSome_map (f := Block.fixed),
      ← hgraph.blocks, Option.isSome_map, Option.isSome_iff_exists]
  rcases outcome_enter ctx entries c.visit with ⟨hnot, r, hr, ho⟩ | ⟨hcounted, function, ho⟩
  · refine iff_of_false ?_ fun h => hnot h.1.counted
    rintro ⟨site, texts, m, h⟩
    rw [ho] at h
    exact hr _ (Prod.mk.inj h).1
  · rw [← hled]
    constructor
    · rintro ⟨site, texts, m, h⟩
      rw [ho] at h
      obtain ⟨hloops, hgas, b, hb, -⟩ := admitted_iff.1 (Except.ok.inj (Prod.mk.inj h).1)
      exact ⟨⟨hcounted, hloops, hgas⟩, b, hb⟩
    · rintro ⟨h, b, hb⟩
      have hsome := (@admitted_iff ctx _ function _ _ _).2 ⟨h.loops, h.gas, b, hb, rfl, rfl⟩
      exact ⟨_, _, _, by rw [ho, hsome]⟩

theorem first_line (hgraph : code.linked.Same c.machine.shared.graph) {site : Site} {m : Machine}
    (h : (enter ctx entries c.visit).outcome c.machine = (.ok (some (site, texts)), m)) :
    ∃ l ∈ code.lines, (l.address : Int) = c.visit.block ∧ texts.head? = some l.text := by
  obtain ⟨-, -, -, -, b, hb, rfl⟩ := enter_some h
  obtain ⟨b', hb', hfixed⟩ := hgraph.block hb
  obtain ⟨before, l, rest, hc, -, hk, hspan, -, htexts, -⟩ := Code.shape_linked hb'
  have hinstructions : b.instructions = b'.instructions := (congrArg Block.instructions hfixed).symm
  exact ⟨l, by simp [hc], hk.symm, by rw [hinstructions, htexts, hspan]; rfl⟩

theorem Next.entered (h : Next ctx entries c d) : ∃ site texts m,
    (enter ctx entries c.visit).outcome c.machine = (.ok (some (site, texts)), m) := by
  have hentered {v : Visit} {m m₁ : Machine} {site : Site} {o : Onward}
      (hv : (visit ctx entries false v).outcome m = (.ok (site, o), m₁)) (ho : o ≠ .stop) :
      ∃ site texts m', (enter ctx entries v).outcome m = (.ok (some (site, texts)), m') := by
    obtain ⟨texts, m', -, -, henter, -⟩ := entered_of_onward hv ho
    exact ⟨site, texts, m', henter⟩
  cases h with
  | go hv => exact hentered hv (by simp)
  | target hv ht => exact hentered hv (by simp)
  | fall hv ht hf => exact hentered hv (by simp)

/-! ### Jumps -/

/-- The call `d` goes to the target of the jump that ends the block of `c`. -/
inductive JumpsTo (ctx : Context) (entries : Table Int String) : Call → Call → Prop
  | jump {remaining : Nat} {v next : Visit} {m m₁ : Machine} {site : Site}
      (hv : (visit ctx entries false v).outcome m = (.ok (site, .go next), m₁))
      (hending : m.shared.graph.endings.get? v.block = some .unconditional) :
      JumpsTo ctx entries ⟨remaining + 1, v, m⟩ ⟨remaining, next, m₁⟩
  | taken {remaining : Nat} {v : Visit} {m m₁ m₂ : Machine} {site : Site} {c : Condition}
      {b : Block} {next : Int} (hv : Forks ctx entries v m site c b m₁)
      (ht : (approach ctx m₁.path c (.ok b.targetAddress)).outcome m₁ = (.ok (some next), m₂)) :
      JumpsTo ctx entries ⟨remaining + 1, v, m⟩ ⟨remaining, sideOf v site next, m₂⟩

theorem JumpsTo.next {c d : Call} (h : JumpsTo ctx entries c d) : Next ctx entries c d := by
  cases h with
  | jump hv hending => exact .go hv
  | taken hv ht => exact .target hv ht

theorem JumpsTo.last (hgraph : code.linked.Same c.machine.shared.graph)
    (h : JumpsTo ctx entries c d) : ∃ l, (code.span code.linked c.visit.block).getLast? = some l ∧
    l.jumps = true := by
  obtain ⟨site, texts, m, henter⟩ := h.next.entered
  obtain ⟨-, -, -, -, b, hb, -⟩ := enter_some henter
  obtain ⟨b', before, front, last, rest, hb', hspan, -⟩ := exists_last hgraph hb
  obtain ⟨hends, hjumpi, hjump⟩ :=
    code.wellFormed_linked.ending c.visit.block b' last hb' (by simp [hspan])
  rw [← hends, ← hgraph.endings] at hjumpi hjump
  refine ⟨last, by simp [hspan], ?_⟩
  cases h with
  | jump hv hending => simp [Line.jumps, hjump.1 hending]
  | taken hv ht =>
    obtain ⟨_, _, _, _, henter, -, -, -, honward⟩ := entered_of_onward hv (by simp)
    obtain ⟨rfl, -, hending, -⟩ := onward_ok honward
    obtain ⟨n, hchanges⟩ := changes_visit hv
    rw [hchanges.graph.endings, (enter_some henter).2.2.1] at hending
    simp [Line.jumps, hjumpi.1 hending]

/-- Where a jump leads, in every exploration of a listing. What is at its target is executed, within
the limits, if it is marked as a target, but no less if it is the first line or stands behind a
jump. With any other target the path ends. -/
theorem jumps_lead_to_blocks {root c d : Call} (hroot : Begins ctx code.linked entries root)
    (hreach : Relation.ReflTransGen (Next ctx entries) root c) (hjump : JumpsTo ctx entries c d) :
    (∃ l, (code.span code.linked c.visit.block).getLast? = some l ∧ l.jumps = true) ∧
    ((∃ site texts m, (enter ctx entries d.visit).outcome d.machine =
      (.ok (some (site, texts)), m)) ↔ Admits ctx entries d ∧
        (code.MarkedAt d.visit.block ∨ d.visit.block = 0 ∨ code.BehindJump d.visit.block)) ∧
    (∀ site texts m, (enter ctx entries d.visit).outcome d.machine = (.ok (some (site, texts)), m) →
      ∃ l ∈ code.lines, (l.address : Int) = d.visit.block ∧ texts.head? = some l.text) ∧
    (¬ (code.MarkedAt d.visit.block ∨ d.visit.block = 0 ∨ code.BehindJump d.visit.block) →
      ∀ d', ¬ Next ctx entries d d') := by
  have hgraph := (placed_of_reach hroot (hreach.tail hjump.next)).graph
  refine ⟨hjump.last (placed_of_reach hroot hreach).graph, ?_,
    fun site texts m => first_line hgraph, fun hother d' hnext => hother ?_⟩
  · rw [entered_iff hgraph, Code.led_iff]
  · exact (code.led_iff _).1 ((entered_iff hgraph).1 hnext.entered).2

def jumpAhead : Code := .ofDrafts
  [⟨0, "PUSH1", some "03"⟩, ⟨2, "JUMP", none⟩, ⟨3, "CALLER", none⟩, ⟨4, "SUICIDE", none⟩]

def Call.entered? (ctx : Context) (entries : Table Int String) (c : Call) : Option (List String) :=
  match (enter ctx entries c.visit).outcome c.machine with
  | (.ok (some (_, texts)), _) => some texts
  | _ => none

theorem enter_of_entered (h : c.entered? ctx entries = some texts) :
    ∃ site m, (enter ctx entries c.visit).outcome c.machine = (.ok (some (site, texts)), m) := by
  unfold Call.entered? at h
  split at h
  · cases h
    exact ⟨_, _, ‹_›⟩
  · cases h

theorem jumpsTo_of_ahead (h : ahead? ctx entries c = some d)
    (hending : c.machine.shared.graph.endings.get? c.visit.block = some .unconditional) :
    JumpsTo ctx entries c d := by
  obtain ⟨v, m, site, rfl, hv⟩ := ahead_some h
  exact .jump hv hending

theorem begins_jumpAhead :
    Begins affirming jumpAhead.linked {} (.first affirming jumpAhead.assembled) := by
  rw [jumpAhead.linked_sorted]
  exact begins_first (.inl rfl) (by decide +kernel)

theorem jumpsTo_jumpAhead :
    ∃ d site m, JumpsTo affirming {} (.first affirming jumpAhead.assembled) d ∧
    d.visit.block = 3 ∧ (enter affirming {} d.visit).outcome d.machine =
      (.ok (some (site, ["CALLER ", "SUICIDE "])), m) := by
  have hahead : (ahead? affirming {} (.first affirming jumpAhead.assembled)).map (fun d =>
      (d.visit.block, d.entered? affirming {})) = some (3, some ["CALLER ", "SUICIDE "]) := by
    decide +kernel
  obtain ⟨d, hd, hpair⟩ := Option.map_eq_some_iff.1 hahead
  obtain ⟨hblock, htexts⟩ := Prod.mk.inj hpair
  obtain ⟨site, m, henter⟩ := enter_of_entered htexts
  exact ⟨d, site, m, jumpsTo_of_ahead hd (by decide +kernel), hblock, henter⟩

/-- What stands behind the jump is executed, though no line is marked. -/
theorem jumps_lead_to_blocks_jumpAhead : ∃ d,
    Begins affirming jumpAhead.linked {} (.first affirming jumpAhead.assembled) ∧
    JumpsTo affirming {} (.first affirming jumpAhead.assembled) d ∧
    Admits affirming {} d ∧ (jumpAhead.MarkedAt 3 ∨ (3 : Int) = 0 ∨ jumpAhead.BehindJump 3) := by
  obtain ⟨d, site, m, hjump, hblock, henter⟩ := jumpsTo_jumpAhead
  obtain ⟨-, hiff, -⟩ := jumps_lead_to_blocks begins_jumpAhead .refl hjump
  obtain ⟨hadmits, hled⟩ := hiff.1 ⟨site, _, m, henter⟩
  exact ⟨d, begins_jumpAhead, hjump, hadmits, hblock ▸ hled⟩

/-- A listing without targets, in which a jump is followed all the same. -/
theorem unmarked_target_executed : ∃ d site m,
    Begins affirming jumpAhead.linked {} (.first affirming jumpAhead.assembled) ∧
    JumpsTo affirming {} (.first affirming jumpAhead.assembled) d ∧
    Runs affirming {} d.visit d.machine site "CALLER " m ∧
    ∀ l ∈ jumpAhead.lines, l.mnemonic ≠ "JUMPDEST" := by
  obtain ⟨d, site, m, hjump, -, henter⟩ := jumpsTo_jumpAhead
  exact ⟨d, site, m, begins_jumpAhead, hjump, ⟨_, m, henter, .here⟩, by decide⟩

end Exec

end EvmAudit
