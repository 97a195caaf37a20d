import EvmAudit.Proofs.Explore.Calls

/-! What a finished branch leaves behind in the solver. If no instruction in it has left a scope
open, the solver is as it was before, and the other side is decided by its own condition alone. -/

namespace EvmAudit.Exec

variable {ctx : Context} {entries : Table Int String}
variable {m m' : Machine}

def SameSolver (m m' : Machine) : Prop :=
  m'.shared.solver.depth = m.shared.solver.depth ∧
    m'.shared.solver.assertions = m.shared.solver.assertions

theorem sameSolver_iff {n : Nat} (h : m.Changes n m')
    (hframes : n = 0 → m'.shared.solver.frames = m.shared.solver.frames) :
    SameSolver m m' ↔ n = 0 := by
  constructor
  · rintro ⟨hdepth, -⟩
    have := h.solver.depth
    omega
  · intro hn
    exact ⟨Solver.depth_congr (hframes hn), Solver.assertions_congr (hframes hn)⟩

theorem approach_iff (parent : Path) (c : Condition) (next : Int) (m : Machine) :
    (∃ m', (approach ctx parent c (.ok next)).outcome m = (.ok (some next), m')) ↔
      (ctx.decide (m.shared.solver.assertions ++ [c.formula])).isUnsat = false := by
  have hassertions : (m.shared.solver.push.add c.formula).assertions = m.shared.solver.assertions ++
      [c.formula] := by
    rw [Solver.assertions_add, Solver.assertions_push]
  rw [outcome_approach, takeSide, outcome_bind, outcome_verdict, Machine.solver_withSolver,
    hassertions]
  dsimp only
  cases (ctx.decide (m.shared.solver.assertions ++ [c.formula])).isUnsat with
  | true =>
    refine ⟨?_, fun h => by cases h⟩
    rintro ⟨m', h⟩
    cases h
  | false => exact ⟨fun _ => rfl, fun _ => ⟨_, rfl⟩⟩

theorem sameSolver_branch_iff {remaining : Nat} {v : Visit} {site : Site} {c : Condition}
    {target : Except Fault Int}
    (h : (branch ctx m.path c target (side ctx entries remaining v site)).outcome m =
      (.ok (), m')) : SameSolver m m' ↔ ∀ next m₁, (approach ctx m.path c target).outcome m =
      (.ok (some next), m₁) → ClosedBelow ctx entries ⟨remaining, sideOf v site next, m₁⟩ := by
  obtain ⟨n, hn, hiff⟩ := @accounts_branch ctx m.path c target (side ctx entries remaining v site)
    (fun next m₁ => ClosedBelow ctx entries ⟨remaining, sideOf v site next, m₁⟩) m
    fun next m₁ _ => accounts_explore remaining (sideOf v site next) m₁
  rw [h] at hn hiff
  have hgo : GoesOn (Except.ok () : Except Fault Unit) := fun e he => by cases he
  rw [sameSolver_iff hn (hiff hgo).2.1, (hiff hgo).1]

theorem fallThrough_iff {c : Condition} {next : Int} (h : SameSolver m m') :
    (∃ m₁, (approach ctx m.path (.symbolic c.not) (.ok next)).outcome m' = (.ok (some next), m₁)) ↔
      (ctx.decide (m.shared.solver.assertions ++ [c.not])).isUnsat = false := by
  rw [approach_iff, h.2]
  rfl

/-- A step, failed or not, leaves as many scopes open as the table of operands says. When the
exploration of a jump's target is over, the solver is as before the jump exactly if no step below
has left a scope open, and then the block behind the jump is explored exactly if the negated
condition can hold together with the assertions from before. -/
theorem solver_restored_iff (ctx : Context) (entries : Table Int String) (remaining : Nat)
    (v : Visit) (site : Site) (c : Condition) (b : Block) (m m' : Machine)
    (h : (branch ctx m.path c (.ok b.targetAddress) fun next =>
      explore ctx entries remaining (sideOf v site next)).outcome m = (.ok (), m')) :
    (∀ site instruction m, ((step ctx site instruction).outcome m).2.shared.solver.depth =
      m.shared.solver.depth + scopesLeft ctx site instruction.operation m) ∧
    (SameSolver m m' ↔ ∀ next m₁,
      (approach ctx m.path c (.ok b.targetAddress)).outcome m = (.ok (some next), m₁) →
        ClosedBelow ctx entries ⟨remaining, sideOf v site next, m₁⟩) ∧
    (SameSolver m m' → ∀ next, b.getFallsTo = .ok next →
      ((∃ m₁, (approach ctx m.path (.symbolic c.not) b.getFallsTo).outcome m' =
          (.ok (some next), m₁)) ↔
        (ctx.decide (m.shared.solver.assertions ++ [c.not])).isUnsat = false) ∧
      (ctx.Exact →
        ((∃ m₁, (approach ctx m.path (.symbolic c.not) b.getFallsTo).outcome m' =
            (.ok (some next), m₁)) ↔
          Satisfiable (m.shared.solver.assertions ++ [c.not])))) := by
  refine ⟨fun site instruction m => (leaves_step site instruction m).solver.depth,
    sameSolver_branch_iff h, fun hsame next hnext => ?_⟩
  rw [hnext]
  exact ⟨fallThrough_iff hsame, fun hexact => (fallThrough_iff hsame).trans (hexact.isUnsat _)⟩

/-! ### A reduction by a concrete modulus -/

def tryTwo (fs : List Formula) : Verdict :=
  if allHold (fun _ => 0) fs || allHold (fun _ => 1) fs then .sat [] else .unsat

def reducing : Context where
  decide := tryTwo

def reducingJump : Block where
  start := 0
  stop := 3
  target := .int 7
  fallsTo := some 4

def reducingMachine : Machine where
  path := { stack := [.var Names.caller, .var Names.caller, .int 5] }
  shared := { graph := {
    endings := .ofList [(7, .terminal)]
    blocks := .ofList [(7, { start := 7, stop := 7, instructions := ["ADDMOD "] })] } }

def callerNonzero : Condition := .symbolic (.compare .ne (.var Names.caller) (.const 0))

def reducingVisit : Visit := ⟨0, 0, -1, "fallback"⟩

def reducingTarget : Except Fault Unit × Machine :=
  (branch reducing reducingMachine.path callerNonzero (.ok reducingJump.targetAddress) fun next =>
    explore reducing {} 0 (sideOf reducingVisit { block := 0 } next)).outcome reducingMachine

theorem solver_restored_iff_reducing :
    reducingTarget = (.ok (), reducingTarget.2) ∧
    (SameSolver reducingMachine reducingTarget.2 ↔ ∀ next m₁,
      (approach reducing reducingMachine.path callerNonzero
          (.ok reducingJump.targetAddress)).outcome reducingMachine = (.ok (some next), m₁) →
        ClosedBelow reducing {} ⟨0, sideOf reducingVisit { block := 0 } next, m₁⟩) := by
  have h : reducingTarget = (.ok (), reducingTarget.2) := by
    have hresult : reducingTarget.1 = .ok () := by rfl
    exact Prod.ext hresult rfl
  exact ⟨h, (solver_restored_iff reducing {} 0 reducingVisit { block := 0 } callerNonzero
    reducingJump reducingMachine reducingTarget.2 h).2.1⟩

/-- The reduction fails and leaves its scope open. So the condition of the jump stays asserted, and
the block behind the jump is not explored though it can be reached. -/
theorem reduction_hides_fallThrough :
    ((step reducing ⟨7, -1, "fallback"⟩ (.ofText "ADDMOD ")).outcome reducingMachine).1 =
      .error .illSorted ∧
    reducingTarget.1 = .ok () ∧
    reducingTarget.2.shared.solver.depth = reducingMachine.shared.solver.depth + 1 ∧
    Satisfiable (reducingMachine.shared.solver.assertions ++ [callerNonzero.not]) ∧
    reducingJump.getFallsTo = .ok 4 ∧
    ((approach reducing reducingMachine.path (.symbolic callerNonzero.not)
      reducingJump.getFallsTo).outcome reducingTarget.2).1 = .ok none :=
  ⟨by rfl, by rfl, by rfl, ⟨fun _ => 0, by rfl⟩, rfl, by rfl⟩

end EvmAudit.Exec
