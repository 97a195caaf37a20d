import EvmAudit.Proofs.Explore.Calls
import EvmAudit.Proofs.Machine.Discipline

/-! The entry into a block, which counts the edge it comes through, and the run of the block's
instructions, which moves the marks of each of them in turn. -/

namespace EvmAudit

def Machine.count (m : Machine) (edge : Int × Int) : Int := (m.shared.visitedEdges.get? edge).getD 0

def Machine.counted (m : Machine) (edge : Int × Int) : Machine :=
  { m with shared := { m.shared with
      visitedEdges := m.shared.visitedEdges.insert edge (m.count edge + 1) } }

theorem Machine.count_counted (m : Machine) (edge e : Int × Int) :
    (m.counted edge).count e = m.count e + if e = edge then 1 else 0 := by
  rw [count, counted, Table.get?_insert]
  by_cases h : e = edge
  · simp [h]
  · simp [h, count]

namespace Exec

variable {ctx : Context} {entries : Table Int String}

def Visit.edge (v : Visit) : Int × Int := (v.previous, v.block)

def admitted (ctx : Context) (v : Visit) (function : String) (m : Machine) :
    Option (Site × List String) :=
  if m.count v.edge + 1 > ctx.settings.loopLimit then none
  else if m.path.analysis.gas > ctx.settings.gasLimit then none
  else (m.shared.graph.blocks.get? v.block).map fun b =>
    (⟨v.block, v.caller, function⟩, b.instructions)

theorem outcome_functionAt (ctx : Context) (entries : Table Int String) (block : Int)
    (current : String) : ∃ r, ∀ m, (functionAt ctx entries block current).outcome m = (r, m) := by
  unfold functionAt
  split
  · split
    · exact ⟨_, fun _ => rfl⟩
    · exact ⟨_, fun _ => rfl⟩
  · exact ⟨_, fun _ => rfl⟩

theorem enter_named {v : Visit} {function : String} (hneg : ¬ v.block < 0)
    (hfunction : ∀ m, (functionAt ctx entries v.block v.function).outcome m = (.ok function, m))
    (m : Machine) :
    (enter ctx entries v).outcome m = (.ok (admitted ctx v function m), m.counted v.edge) := by
  have hcount : (enterEdge v.previous v.block).outcome m =
      (.ok (m.count v.edge + 1), m.counted v.edge) := rfl
  have hpath : (m.counted v.edge).path = m.path := rfl
  have hgraph : (m.counted v.edge).shared.graph = m.shared.graph := rfl
  simp only [enter, hneg, if_false, outcome_bind, hfunction, hcount, admitted]
  split
  · rfl
  · simp only [outcome_bind, outcome_getPath, hpath]
    split
    · rfl
    · simp only [outcome_bind, outcome_getShared, hgraph]
      cases m.shared.graph.blocks.get? v.block <;> rfl

def Counted (ctx : Context) (entries : Table Int String) (v : Visit) : Prop :=
  0 ≤ v.block ∧ ∃ function, ∀ m, (functionAt ctx entries v.block v.function).outcome m =
  (.ok function, m)

theorem outcome_enter (ctx : Context) (entries : Table Int String) (v : Visit) :
    (¬ Counted ctx entries v ∧ ∃ r, (∀ found, r ≠ .ok (some found)) ∧ ∀ m,
      (enter ctx entries v).outcome m = (r, m)) ∨
    (Counted ctx entries v ∧ ∃ function, ∀ m, (enter ctx entries v).outcome m =
      (.ok (admitted ctx v function m), m.counted v.edge)) := by
  by_cases hneg : v.block < 0
  · refine .inl ⟨fun h => ?_, .ok none, fun _ => nofun, fun m => by simp [enter, hneg]⟩
    exact absurd h.1 (by omega)
  obtain ⟨e | function, hfunction⟩ := outcome_functionAt ctx entries v.block v.function
  · refine .inl ⟨?_, .error e, fun _ => nofun,
      fun m => by simp [enter, hneg, outcome_bind, hfunction]⟩
    rintro ⟨-, function, h⟩
    have := (hfunction {}).symm.trans (h {})
    cases this
  · exact .inr ⟨⟨by omega, function, hfunction⟩, function, enter_named hneg hfunction⟩

theorem enter_some {v : Visit} {m m' : Machine} {site : Site} {texts : List String}
    (h : (enter ctx entries v).outcome m = (.ok (some (site, texts)), m')) :
    Counted ctx entries v ∧ m' = m.counted v.edge ∧ site.block = v.block ∧ site.caller = v.caller ∧
      ∃ b, m.shared.graph.blocks.get? v.block = some b ∧ texts = b.instructions := by
  rcases outcome_enter ctx entries v with ⟨-, r, hr, ho⟩ | ⟨hcounted, function, ho⟩ <;> rw [ho] at h
  · exact absurd (Prod.mk.inj h).1 (hr _)
  · obtain ⟨hadmitted, hm⟩ := Prod.mk.inj h
    have hsome := Except.ok.inj hadmitted
    unfold admitted at hsome
    split at hsome
    · cases hsome
    · split at hsome
      · cases hsome
      · obtain ⟨b, hb, hsite⟩ := Option.map_eq_some_iff.1 hsome
        cases hsite
        exact ⟨hcounted, hm.symm, rfl, rfl, b, hb, rfl⟩

theorem enter_of_block {v : Visit} {m : Machine} {b : Block}
    (hfunction : functionAt ctx entries v.block v.function = pure v.function) (hpos : 0 ≤ v.block)
    (hcount : m.count v.edge + 1 ≤ ctx.settings.loopLimit)
    (hgas : m.path.analysis.gas ≤ ctx.settings.gasLimit)
    (hb : m.shared.graph.blocks.get? v.block = some b) : (enter ctx entries v).outcome m =
      (.ok (some (⟨v.block, v.caller, v.function⟩, b.instructions)), m.counted v.edge) := by
  have hsame (m : Machine) : (functionAt ctx entries v.block v.function).outcome m =
      (.ok v.function, m) := by
    rw [hfunction]
    rfl
  rw [enter_named (by omega) hsame, admitted, if_neg (by omega), if_neg (by omega), hb]
  rfl

/-! ### Runs of instructions -/

variable {p : Int} {s : Motion} {site : Site} {text : String}

theorem quiet_tick : Quiet (tick ctx) := by
  intro m
  rw [outcome_tick]
  rfl

theorem Moves.of_step (h : Moves p site.caller ⟨0, 0, 0⟩ (step ctx site (.ofText text)) s) :
    Moves p site.caller ⟨0, 0, 0⟩ (traced ctx site text) s := by
  intro a m hr
  obtain ⟨rows, htraced⟩ := @outcome_traced ctx site text m
  obtain ⟨hnotes, hok⟩ := quiet_tick.then (fun _ => h) a m hr
  rw [htraced]
  refine ⟨hnotes, fun r m' ho => ?_⟩
  obtain ⟨hresult, rfl⟩ := Prod.mk.inj ho
  exact (hok r _ (Prod.ext hresult rfl) :)

theorem notes_traced (site : Site) (text : String) (m : Machine) :
    m.marks.Notes m.path.world.pc site.caller ((traced ctx site text).outcome m).2.marks := by
  obtain ⟨rows, htraced⟩ := @outcome_traced ctx site text m
  rw [htraced]
  exact quiet_tick.moves.notes_bind (Motion.reached_start site.caller m.marks) fun _ _ h =>
    notes_step _ h

theorem edges_runAll (site : Site) (texts : List String) (m : Machine) :
    ((runAll ctx site texts).outcome m).2.shared.visitedEdges = m.shared.visitedEdges := by
  induction texts generalizing m with
  | nil => rfl
  | cons text rest ih =>
    have hfirst : ((traced ctx site text).outcome m).2.shared.visitedEdges =
        m.shared.visitedEdges :=
      (notes_traced site text m).edges
    rw [runAll, outcome_bind]
    generalize (traced ctx site text).outcome m = o at hfirst ⊢
    obtain ⟨e | u, m₁⟩ := o
    · exact hfirst
    · exact (ih m₁).trans hfirst

theorem outcome_record (m : Machine) :
    ∃ m', record.outcome m = (.ok (), m') ∧ m'.path = m.path ∧ m'.shared.graph = m.shared.graph ∧
      m'.shared.solver = m.shared.solver ∧ m'.shared.visitedEdges = m.shared.visitedEdges := by
  rw [record, outcome_bind_getPath, outcome_modifyShared]
  refine ⟨_, rfl, rfl, ?_, ?_, ?_⟩ <;> dsimp only <;> split <;> rfl

end Exec

end EvmAudit
