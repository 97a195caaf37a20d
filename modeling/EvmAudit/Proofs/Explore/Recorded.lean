import EvmAudit.Proofs.Explore.Feasible
import EvmAudit.Proofs.Explore.Records

/-! The conditions of recorded paths. Under an exact solver, what a path has taken on since it began
can hold together, also where instructions fail on the way. The conditions that it begins with are
not asserted, so that nothing is said about all of them at once. -/

namespace EvmAudit

open Classical in
/-- Formulas over different variables can hold together if both can hold. -/
theorem Satisfiable.append {P : String → Prop} {fs gs : List Formula}
    (hfs : ∀ f ∈ fs, f.Over P) (hgs : ∀ g ∈ gs, g.Over fun x => ¬ P x) (hf : Satisfiable fs)
    (hg : Satisfiable gs) : Satisfiable (fs ++ gs) := by
  obtain ⟨env, henv⟩ := hf
  obtain ⟨env', henv'⟩ := hg
  let both : Assignment := fun x => if P x then env x else env' x
  have hleft (x : String) (hx : P x) : both x = env x := if_pos hx
  have hright (x : String) (hx : ¬ P x) : both x = env' x := if_neg hx
  refine ⟨both, ?_⟩
  rw [allHold, List.all_append, Bool.and_eq_true]
  constructor
  · refine List.all_eq_true.2 fun f h => ?_
    rw [Formula.eval_congr hleft f (hfs f h)]
    exact List.all_eq_true.1 henv f h
  · refine List.all_eq_true.2 fun g h => ?_
    rw [Formula.eval_congr hright g (hgs g h)]
    exact List.all_eq_true.1 henv' g h

namespace Exec

variable {ctx : Context} {entries : Table Int String}
variable {cs : List Condition}

theorem consistent_completes (hexact : ctx.Exact) (hsource : ctx.source = none) {c : Call}
    {m : Machine} (hm : c.machine.Consistent) (h : Completes ctx entries c m) :
    m.Consistent ∧ c.machine.path.conditions <+: m.path.conditions := by
  obtain ⟨site, texts, m₁, henter, hrun⟩ := h
  obtain ⟨-, rfl, -⟩ := enter_some henter
  have hm₁ := ((yields_enter (C := fun _ => True) c.visit).2 _ _ _ henter).consistent hm
  have hleads := (yields_runAll (C := fun _ => True) hexact hsource site texts).2 _ _ m hrun
  obtain ⟨cs, hcs, -⟩ := (hleads.change fun k hk => ⟨trivial, hm₁.fresh k hk⟩).1.assertions
  exact ⟨hleads.consistent hm₁, cs, hcs.symm⟩

def paymentNames : List String := ["Iv", "init_Is", "init_Ia"]

theorem over_opens (h : Opens ctx cs) :
    ∀ f ∈ cs.map Condition.formula, f.Over (· ∈ paymentNames) := by
  obtain ⟨o, paid, payable, owned, ho, hpaid, hpayable, howned, rfl⟩ := h
  obtain ⟨hvalue, hsender, hcontract⟩ : o.value.Over (· ∈ paymentNames) ∧
      o.senderBalance.Over (· ∈ paymentNames) ∧ o.contractBalance.Over (· ∈ paymentNames) := by
    unfold opening at ho
    split at ho
    · split at ho
      · cases ho
      · obtain hover := (gives_trivial _).bind (fun d _ =>
          Opening.gives_ofDocument (W := Value.Over (· ∈ paymentNames)) (fun _ => trivial)
          trivial d) o ho
        exact ⟨hover.value, hover.senderBalance, hover.contractBalance⟩
    · cases ho
      exact ⟨show "Iv" ∈ paymentNames by decide, show "init_Is" ∈ paymentNames by decide,
        show "init_Ia" ∈ paymentNames by decide⟩
  have hzero : (Value.word (.const 0)).Over (· ∈ paymentNames) := trivial
  intro f hf
  simp only [List.map_cons, List.map_nil, List.mem_cons, List.not_mem_nil, or_false] at hf
  rcases hf with rfl | rfl | rfl
  · exact Value.gives_order .sge hvalue hzero paid hpaid
  · exact Value.gives_order .sge hsender hvalue payable hpayable
  · exact Value.gives_order .sge hcontract hzero owned howned

theorem satisfiable_opens (h : Opens ctx cs)
    (hinput : ctx.settings.inputState = 0) : Satisfiable (cs.map Condition.formula) := by
  obtain ⟨o, paid, payable, owned, ho, hpaid, hpayable, howned, rfl⟩ := h
  have hsymbolic : o = .symbolic := by
    rw [opening, hinput] at ho
    exact (Except.ok.inj ho).symm
  subst hsymbolic
  cases hpaid
  cases hpayable
  cases howned
  exact ⟨fun _ => 0, by decide⟩

/-- Under an exact solver the conditions of a recorded path are the first three, and others that can
hold together. All of them can hold together if the first three can, as they do for an unknown
account, and the others are not about the payment. -/
theorem recorded_satisfiable (hexact : ctx.Exact) (hsource : ctx.source = none)
    (code : Listing.Code) {root c : Call} {m : Machine}
    (hroot : Begins ctx code.linked entries root)
    (hreach : Relation.ReflTransGen (Next ctx entries) root c) (hm : Moment ctx entries c m) :
    ∀ cs ∈ m.shared.conditions, ∃ first rest, Opens ctx first ∧ cs = first ++ rest ∧
      Satisfiable (rest.map Condition.formula) ∧
      (ctx.settings.inputState = 0 → Satisfiable (first.map Condition.formula)) ∧
      (Satisfiable (first.map Condition.formula) →
        (∀ f ∈ rest.map Condition.formula, f.Over (· ∉ paymentNames)) →
        Satisfiable (cs.map Condition.formula)) := by
  obtain ⟨hconsistent, hopens, hshared⟩ := hroot.consistent
  have hempty : root.machine.shared.tables = .ofEntries [] := by
    rw [hshared]
    rfl
  obtain ⟨es, htables, hfiled, -⟩ := filed_of_moment hempty hreach hm
  intro cs hcs
  have hrows : m.shared.conditions = es.map Entry.conditions := congrArg Tables.conditions htables
  rw [hrows] at hcs
  obtain ⟨e, he, rfl⟩ := List.mem_map.1 hcs
  obtain ⟨d, m', hd, hcompletes, rfl⟩ := hfiled e he
  obtain ⟨hd', -, cs, hcs⟩ := consistent_of_reach hexact hsource hconsistent hd
  obtain ⟨hm', hprefix⟩ := consistent_completes hexact hsource hd' hcompletes
  obtain ⟨rest, hrest⟩ := List.IsPrefix.trans ⟨cs, hcs.symm⟩ hprefix
  have hsat : Satisfiable (rest.map Condition.formula) := by
    have hassertions := hm'.assertions
    obtain ⟨o, paid, payable, owned, -, -, -, -, hthree⟩ := hopens
    rw [← hrest, hthree] at hassertions
    have hsatisfiable := hm'.satisfiable
    rwa [hassertions] at hsatisfiable
  refine ⟨_, rest, hopens, hrest.symm, hsat, satisfiable_opens hopens, fun hfirst hnames => ?_⟩
  change Satisfiable (m'.path.conditions.map Condition.formula)
  rw [← hrest, List.map_append]
  exact hfirst.append (over_opens hopens) hnames hsat

/-! ### A jump on a value below zero -/

def belowZero : Listing.Code := .ofDrafts
  [⟨0, "PUSH1", some "00"⟩, ⟨2, "CALLVALUE", none⟩, ⟨3, "SLT", none⟩, ⟨4, "PUSH1", some "08"⟩,
    ⟨6, "JUMPI", none⟩, ⟨7, "STOP", none⟩, ⟨8, "JUMPDEST", none⟩, ⟨9, "CALLER", none⟩,
    ⟨10, "SUICIDE", none⟩]

noncomputable def belowZeroRoot : Call := .first (exactly 1) belowZero.assembled

theorem begins_belowZero : Begins (exactly 1) belowZero.linked {} belowZeroRoot :=
  begins_unsourced belowZero.linked_sorted rfl rfl

def valuePaid : Formula := .compare .sle (.const 0) (.var "Iv")

def valueBelowZero : Condition :=
  .symbolic (.compare .ne (.choose valuePaid (.const 0) (.const 1)) (.const 0))

theorem eval_valueBelowZero (env : Assignment) :
    valueBelowZero.formula.eval env = !valuePaid.eval env := by
  have h : valueBelowZero.formula.eval env = ((if valuePaid.eval env then 0 else 1 : Word) != 0) :=
    rfl
  rw [h]
  cases valuePaid.eval env <;> rfl

theorem not_satisfiable_belowZero (hpaid : .symbolic valuePaid ∈ cs)
    (hbelow : valueBelowZero ∈ cs) : ¬ Satisfiable (cs.map Condition.formula) := by
  rintro ⟨env, henv⟩
  have hall := List.all_eq_true.1 henv
  have h₁ : valuePaid.eval env = true := hall _ (List.mem_map_of_mem hpaid)
  have h₂ := hall _ (List.mem_map_of_mem hbelow)
  rw [eval_valueBelowZero, h₁] at h₂
  cases h₂

def lenient : Context where
  decide _ := .sat []

theorem approach_congr {ctx' : Context} {parent : Path} {target : Except Fault Int}
    (h : ctx.decide (m.shared.solver.assertions ++ [c.formula]) =
      ctx'.decide (m.shared.solver.assertions ++ [c.formula])) :
    (approach ctx parent c target).outcome m = (approach ctx' parent c target).outcome m := by
  have hassertions : (m.shared.solver.push.add c.formula).assertions = m.shared.solver.assertions ++
      [c.formula] := by
    rw [Solver.assertions_add, Solver.assertions_push]
  rw [outcome_approach, outcome_approach, takeSide, takeSide, outcome_bind, outcome_bind,
    outcome_verdict, outcome_verdict, Machine.solver_withSolver, hassertions, h]

theorem outcome_eq_of_toOption {α : Type} {x : Exec α} {a : α}
    (h : (x.outcome m).1.toOption = some a) : x.outcome m = (.ok a, (x.outcome m).2) := by
  generalize x.outcome m = r at h ⊢
  obtain ⟨e | a', m'⟩ := r <;> cases h
  rfl

def forked? : Except Fault (Site × Onward) → Option (Int × Int × String × Condition × Int)
  | .ok (site, .fork c b) => some (site.block, site.caller, site.function, c, b.targetAddress)
  | _ => none

theorem eq_fork_of_forked? {o : Except Fault (Site × Onward) × Machine} {block caller next : Int}
    {function : String} (h : forked? o.1 = some (block, caller, function, c, next)) :
    ∃ b : Block, b.targetAddress = next ∧
    o = (.ok (⟨block, caller, function⟩, .fork c b), o.2) := by
  obtain ⟨e | ⟨site, _ | next | ⟨c, b⟩⟩, m⟩ := o <;> cases h
  exact ⟨b, rfl, rfl⟩

noncomputable def belowZeroJump : Machine :=
  ((visit (exactly 1) {} false belowZeroRoot.visit).outcome belowZeroRoot.machine).2

noncomputable def belowZeroTarget : Call where
  remaining := 0
  visit := sideOf belowZeroRoot.visit ⟨0, -1, "fallback"⟩ 8
  machine := ((approach lenient belowZeroJump.path valueBelowZero (.ok 8)).outcome belowZeroJump).2

theorem run_belowZero :
    forked? ((visit (exactly 1) {} false belowZeroRoot.visit).outcome belowZeroRoot.machine).1 =
      some (0, -1, "fallback", valueBelowZero, 8) ∧
    belowZeroJump.shared.solver.assertions = [] ∧
    ((approach lenient belowZeroJump.path valueBelowZero (.ok 8)).outcome
      belowZeroJump).1.toOption = some (some 8) ∧
    (((explore (exactly 1) {} belowZeroTarget.remaining belowZeroTarget.visit).outcome
      belowZeroTarget.machine).2.shared.conditions.any fun cs =>
        decide (.symbolic valuePaid ∈ cs) && decide (valueBelowZero ∈ cs)) = true := by
  decide +kernel

theorem visit_belowZero : ∃ b : Block, b.targetAddress = 8 ∧
    (visit (exactly 1) {} false belowZeroRoot.visit).outcome belowZeroRoot.machine =
      (.ok (⟨0, -1, "fallback"⟩, .fork valueBelowZero b), belowZeroJump) := by
  unfold belowZeroJump
  exact eq_fork_of_forked? run_belowZero.1

theorem next_belowZero : Next (exactly 1) {} belowZeroRoot belowZeroTarget := by
  obtain ⟨b, htarget, hv⟩ := visit_belowZero
  have hsat : Satisfiable (belowZeroJump.shared.solver.assertions ++ [valueBelowZero.formula]) := by
    rw [run_belowZero.2.1]
    exact ⟨fun _ => BitVec.allOnes 256, by decide⟩
  have hdecide :
      (exactly 1).decide (belowZeroJump.shared.solver.assertions ++ [valueBelowZero.formula]) =
      lenient.decide (belowZeroJump.shared.solver.assertions ++ [valueBelowZero.formula]) :=
        if_pos hsat
  have ht : (approach (exactly 1) belowZeroJump.path valueBelowZero (.ok b.targetAddress)).outcome
      belowZeroJump = (.ok (some 8), belowZeroTarget.machine) := by
    rw [htarget, approach_congr hdecide]
    unfold belowZeroTarget
    exact outcome_eq_of_toOption run_belowZero.2.2.1
  have hnext : Next (exactly 1) {} ⟨0 + 1, belowZeroRoot.visit, belowZeroRoot.machine⟩
      ⟨0, sideOf belowZeroRoot.visit ⟨0, -1, "fallback"⟩ 8, belowZeroTarget.machine⟩ :=
        .target hv ht
  exact hnext

theorem exists_belowZero : ∃ cs ∈ ((explore (exactly 1) {} belowZeroRoot.remaining
      belowZeroRoot.visit).outcome belowZeroRoot.machine).2.shared.conditions,
    .symbolic valuePaid ∈ cs ∧ valueBelowZero ∈ cs := by
  obtain ⟨cs, hcs, hboth⟩ := List.any_eq_true.1 run_belowZero.2.2.2
  rw [Bool.and_eq_true, decide_eq_true_iff, decide_eq_true_iff] at hboth
  exact ⟨cs, next_belowZero.conditions_subset hcs, hboth⟩

/-- What this path has taken on since it began can hold, but not with the first three conditions. -/
theorem recorded_satisfiable_belowZero : (exactly 1).Exact ∧ (exactly 1).source = none ∧
    Begins (exactly 1) belowZero.linked {} belowZeroRoot ∧
    ∃ first rest, Opens (exactly 1) first ∧
    first ++ rest ∈ ((explore (exactly 1) {} belowZeroRoot.remaining
        belowZeroRoot.visit).outcome belowZeroRoot.machine).2.shared.conditions ∧
      valueBelowZero ∈ first ++ rest ∧ Satisfiable (rest.map Condition.formula) ∧
      Satisfiable (first.map Condition.formula) := by
  obtain ⟨cs, hcs, -, hbelow⟩ := exists_belowZero
  obtain ⟨first, rest, hopens, rfl, hrest, hfirst, -⟩ :=
    recorded_satisfiable (exact_exactly 1) rfl belowZero begins_belowZero .refl
    (.ended belowZeroRoot) cs hcs
  exact ⟨exact_exactly 1, rfl, begins_belowZero, first, rest, hopens, hcs, hbelow, hrest,
    hfirst rfl⟩

/-- The conditions recorded for a finished path can contradict the first three. -/
theorem belowZero_infeasible : (exactly 1).Exact ∧
    ∃ cs ∈ ((exploreAll (exactly 1)).outcome
      { shared := { graph := belowZero.linked } }).2.shared.conditions,
      ¬ Satisfiable (cs.map Condition.formula) := by
  obtain ⟨cs, hcs, hpaid, hbelow⟩ := exists_belowZero
  refine ⟨exact_exactly 1, cs, ?_, not_satisfiable_belowZero hpaid hbelow⟩
  rwa [begins_belowZero.outcome_exploreAll]

end Exec

end EvmAudit
