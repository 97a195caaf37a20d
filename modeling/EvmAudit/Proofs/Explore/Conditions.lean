import EvmAudit.Proofs.Explore.Calls
import EvmAudit.Proofs.Machine.Steps

/-! The conditions of a path and the assertions of the solver. As long as no instruction fails,
every block is entered with the same conditions in both, and with conditions that can hold
together. -/

namespace EvmAudit

namespace Exec

variable {C : Nat → Prop} {ctx : Context} {entries : Table Int String}

/-! ### Blocks -/

theorem yields_tick : Yields C (tick ctx) Done := yields_quiet touches_tick

theorem yields_traced (hexact : ctx.Exact) (hsource : ctx.source = none) (site : Site)
    (text : String) : Yields C (traced ctx site text) Done := by
  refine Holds.bind (Q := Done) (holds_tryCatch_throw ?_ (fun _ => touches_all _) fun e _ =>
    ⟨e, _, rfl⟩) fun _ => yields_quiet (touches_traceRow _ _ _)
  exact yields_tick.bind fun _ => yields_step hexact hsource site _

theorem yields_runAll (hexact : ctx.Exact) (hsource : ctx.source = none) (site : Site)
    (texts : List String) : Yields C (runAll ctx site texts) Done := by
  induction texts generalizing C with
  | nil => exact holds_pure fun _ _ => trivial
  | cons text rest ih => exact (yields_traced hexact hsource site text).bind fun _ => ih

theorem yields_enter (v : Visit) : Yields C (enter ctx entries v) Done :=
  yields_quiet ((touches_enter entries v).mono (by decide))

theorem yields_record : Yields C record Done := yields_quiet (touches_record.mono (by decide))

theorem yields_finish : Yields C (finish ctx) Done := yields_quiet (touches_finish.mono (by decide))

def ForkOver (k : Nat) (onward : Onward) : Prop := ∀ c b, onward = .fork c b → c.Over (spare k)

theorem yields_onward (hsource : ctx.source = none) (previous : Int) (site : Site) (last : Bool) :
    Yields C (onward ctx previous site last) ForkOver := by
  have hstop {D : Nat → Prop} : Yields D (do finish ctx; return .stop) ForkOver :=
    yields_finish.bind fun _ => holds_pure fun _ _ _ _ h => by cases h
  have hgo (next : Int) (v : Visit) {D : Nat → Prop} : Yields D (do
      modifyWorld fun w => { w with pc := next }
      return .go v) ForkOver :=
    Holds.bind (yields_quiet (touches_step .pc fun _ => ⟨_, trivial, rfl⟩)) fun _ =>
      holds_pure fun _ _ _ _ h => by cases h
  refine holds_getShared.bind fun s => ?_
  dsimp only
  split
  · exact holds_throw _
  · exact holds_throw _
  · exact hstop
  · exact hstop
  · rw [callerAfter, hsource]
    exact (holds_pure (Q := Done) fun _ _ => trivial).bind fun _ => hgo _ _
  · exact (holds_value _).bind fun next => hgo _ _
  next b hending hblock =>
    refine (holds_ofExcept (Q := fun k c => c.Over (spare k)) fun k hC c hc => ?_).bind fun c =>
      holds_pure fun k hC => ?_
    · cases hbranch : b.branch with
      | none =>
        rw [Block.getBranch, hbranch] at hc
        cases hc
      | some v =>
        rw [Block.getBranch, hbranch] at hc
        exact hC.2 site.block b v c hblock hbranch hc
    · rintro _ _ ⟨⟩
      exact hC.2
  · exact Holds.bind (yields_quiet (touches_step .edges fun _ => ⟨_, trivial, rfl⟩)) fun _ =>
      holds_throw _

theorem yields_visit (hexact : ctx.Exact) (hsource : ctx.source = none) (last : Bool) (v : Visit) :
    Yields C (visit ctx entries last v) fun k r => ForkOver k r.2 := by
  refine (yields_enter v).bind fun entered => ?_
  rcases entered with _ | ⟨site, texts⟩
  · exact holds_pure fun _ _ _ _ h => by cases h
  · exact (yields_runAll hexact hsource site texts).bind fun _ => yields_record.bind fun _ =>
      (yields_onward hsource v.previous site last).bind fun _ => holds_pure fun _ h => h.2

end Exec

/-! ### States in which blocks are entered -/

def Machine.Fresh (m : Machine) : Prop := ∀ k, m.shared.names.other < k → m.Fits .spare k

/-- The solver holds the conditions of the path behind the first three, and they can hold
together. -/
structure Machine.Consistent (m : Machine) : Prop where
  fresh : m.Fresh
  opening : 3 ≤ m.path.conditions.length
  assertions : m.shared.solver.assertions = (m.path.conditions.drop 3).map Condition.formula
  satisfiable : Satisfiable m.shared.solver.assertions

variable {m m' : Machine} {Q : Nat → Prop}

theorem Kind.Leads.fresh (h : Kind.spare.Leads (fun _ => True) Q m m') (hm : m.Fresh) : m'.Fresh :=
  fun k hk => (h.clear k hk trivial (hm k (Nat.lt_of_le_of_lt h.names hk))).1

theorem Kind.Leads.result (h : Kind.spare.Leads (fun _ => True) Q m m') (hm : m.Fresh) {k : Nat}
    (hk : m'.shared.names.other < k) : Q k :=
  (h.clear k hk trivial (hm k (Nat.lt_of_le_of_lt h.names hk))).2

theorem Kind.Leads.consistent (h : Kind.spare.Leads (fun _ => True) Q m m') (hm : m.Consistent) :
    m'.Consistent := by
  have hfresh (k : Nat) (hk : m.shared.names.other < k) : True ∧ m.Fits .spare k :=
    ⟨trivial, hm.fresh k hk⟩
  obtain ⟨cs, hc, ha⟩ := (h.change hfresh).1.assertions
  refine ⟨h.fresh hm.fresh, ?_, ?_, (h.change hfresh).2 hm.satisfiable⟩
  · rw [hc, List.length_append]
    exact Nat.le_add_right_of_le hm.opening
  · rw [ha, hc, hm.assertions, List.drop_append_of_le_length hm.opening, List.map_append]

theorem Machine.Consistent.side (hm : m.Consistent) {c : Condition} {s : Solver} {p : Path}
    (hc : ∀ k, m.shared.names.other < k → c.Over (spare k))
    (hs : s.assertions = m.shared.solver.assertions ++ [c.formula])
    (hp : ∀ k, m.path.Fits .spare k → p.Fits .spare k)
    (hconditions : p.conditions = m.path.conditions ++ [c])
    (hsat : Satisfiable (m.shared.solver.assertions ++ [c.formula])) :
    Machine.Consistent { (m.withSolver s) with path := p } := by
  refine ⟨fun k hk => ⟨hp _ (hm.fresh k hk).path, (hm.fresh k hk).graph, fun f hf => ?_⟩,
    ?_, ?_, ?_⟩
  · change f ∈ s.assertions at hf
    rw [hs, List.mem_append, List.mem_singleton] at hf
    rcases hf with hf | rfl
    · exact (hm.fresh k hk).assertions f hf
    · exact hc k hk
  · change 3 ≤ p.conditions.length
    rw [hconditions, List.length_append]
    exact Nat.le_add_right_of_le hm.opening
  · change s.assertions = _
    rw [hs, hm.assertions, hconditions, List.drop_append_of_le_length hm.opening, List.map_append]
    rfl
  · change Satisfiable s.assertions
    rwa [hs]

namespace Exec

variable {ctx : Context} {entries : Table Int String}
variable {target : Except Fault Int}

theorem outcome_approach_some {parent : Path} {c : Condition} {next : Int}
    (h : (approach ctx parent c target).outcome m = (.ok (some next), m')) :
    target = .ok next ∧ (ctx.decide (m.shared.solver.assertions ++ [c.formula])).isUnsat = false ∧
    ∃ s p, m' = { (m.withSolver s) with path := p } ∧
      s.assertions = m.shared.solver.assertions ++ [c.formula] ∧
      p.conditions = parent.conditions ++ [c] ∧ p.stack = parent.stack ∧ p.vars = parent.vars ∧
      p.world = { parent.world with pc := next } ∧ ∀ k, parent.Fits .spare k → p.Fits .spare k := by
  have hassertions : (m.shared.solver.push.add c.formula).assertions = m.shared.solver.assertions ++
      [c.formula] := by
    rw [Solver.assertions_add, Solver.assertions_push]
  rw [outcome_approach, takeSide, outcome_bind, outcome_verdict, Machine.solver_withSolver,
    hassertions] at h
  dsimp only at h
  cases hverdict : (ctx.decide (m.shared.solver.assertions ++ [c.formula])).isUnsat with
  | true =>
    rw [hverdict] at h
    cases h
  | false =>
    rw [hverdict] at h
    cases target with
    | error e => cases h
    | ok next' =>
      cases h
      exact ⟨rfl, rfl, _, _, rfl, hassertions, rfl, rfl, rfl, rfl,
        fun k hk => ⟨{ hk.items with }, hk.balance⟩⟩

theorem consistent_approach (hexact : ctx.Exact) {c : Condition} {parent : Path} {next : Int}
    (hm : m.Consistent) (hparent : parent = m.path)
    (hc : ∀ k, m.shared.names.other < k → c.Over (spare k))
    (h : (approach ctx parent c target).outcome m = (.ok (some next), m')) : m'.Consistent := by
  subst hparent
  obtain ⟨-, hverdict, s, p, rfl, hs, hp, -, -, -, hover⟩ := outcome_approach_some h
  exact hm.side hc hs hover hp ((hexact.isUnsat _).1 hverdict)

/-! ### Instructions that do not fail -/

def Succeeds (ctx : Context) (site : Site) (text : String) (m : Machine) : Prop :=
  ∃ m', Traces ctx site text m m'

theorem goesOn_ok {α : Type} (a : α) : GoesOn (Except.ok a : Except Fault α) := by
  rintro e ⟨⟩

theorem leavesNone_of_traced (hexact : ctx.Exact) (hsource : ctx.source = none) {site : Site}
    {text : String} (hm : m.Fresh) (h : Traces ctx site text m m') :
    LeavesNone ctx site text m := by
  obtain ⟨n, hn, hiff⟩ := @accounts_traced ctx site text m
  rw [h] at hn hiff
  obtain ⟨cs, first, outer, -, hs, hs'⟩ :=
    ((yields_traced (C := fun _ => True) hexact hsource site text).2 m _ m' h).change
      (fun k hk => ⟨trivial, hm k hk⟩) |>.1
  have hdepth : m'.shared.solver.depth = m.shared.solver.depth + n := hn.solver.depth
  have hlen := Solver.length_frames m.shared.solver
  have hlen' := Solver.length_frames m'.shared.solver
  rw [hs] at hlen
  rw [hs'] at hlen'
  simp only [List.length_cons] at hlen hlen'
  exact (hiff (goesOn_ok ())).1 (by omega)

end Exec

end EvmAudit
