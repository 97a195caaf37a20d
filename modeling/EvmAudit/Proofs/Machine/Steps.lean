import EvmAudit.Proofs.Machine.Fresh

/-! What calls and fees do to a state without the names to come, and with it every step. Calls and
self-destruction are the only operations that add conditions: that the contract can pay, which has
been found possible, and that an unknown balance is not negative, which is about a new name. -/

namespace EvmAudit

namespace Exec

variable {α : Type} {C : Nat → Prop} {ctx : Context} {P : String → Prop} {Q : Nat → α → Prop}
variable {x : Exec α} {env : Assignment}

/-- When the computation succeeds, names that are still to be given out stay out of the state, and
the result satisfies `Q` for each of them. -/
abbrev Yields (C : Nat → Prop) (x : Exec α) (Q : Nat → α → Prop) : Prop :=
  Holds (Machine.AlikeBut allParts) .spare C x Q

theorem yields_quiet (h : Touches nameless x) : Yields C x Done := holds_quiet (touches_all x) h

/-! ### Calls -/

theorem exists_sat_of_whether {decide : List Formula → Verdict} {known : List Formula} {f : Formula}
    (h : ((Inquiry.whether (.ok f)).eval decide known).1 = .ok true) :
    ∃ values, decide (known ++ [f]) = .sat values := by
  unfold Inquiry.whether at h
  rw [Inquiry.eval] at h
  cases hd : decide (known ++ [f]) with
  | sat values => exact ⟨values, rfl⟩
  | unsat =>
    rw [hd] at h
    cases h
  | unknown =>
    rw [hd] at h
    cases h

theorem pledges_spare (hexact : ctx.Exact) : Pledges ctx (Machine.AlikeBut allParts) .spare := by
  intro C enough h
  refine ⟨touches_all _, fun m a m' ho => ?_⟩
  obtain ⟨w, m₁, hw, ho⟩ := outcome_bind_eq_ok.1 ho
  obtain ⟨heval, s, hs, rfl⟩ := outcome_inquire_ok hw
  cases w with
  | false =>
    have hpush : Yields (fun k => C k ∧ True) (do push (.int 0); return false) Done :=
      (holds_push fun _ _ => trivial).bind fun _ => holds_pure fun _ _ => trivial
    refine Kind.Leads.trans (Q := fun _ => True) ?_ (hpush.2 _ _ _ ho)
    exact .of_quiet rfl hs rfl fun k _ hm => ⟨hm.path, hm.graph, trivial⟩
  | true =>
    cases ho
    obtain ⟨values, hsat⟩ := exists_sat_of_whether heval
    have hpossible : Satisfiable (m.shared.solver.assertions ++ [enough.formula]) := hexact.sat hsat
    have hassertions : (s.add enough.formula).assertions = m.shared.solver.assertions ++
        [enough.formula] := by
      rw [Solver.assertions_add, Solver.assertions_congr hs]
    obtain ⟨first, outer, hframes⟩ := Solver.exists_frames m.shared.solver
    refine ⟨Nat.le_refl _,
      fun k _ hC hm => ⟨⟨⟨?_, hm.path.balance⟩, hm.graph, fun f hf => ?_⟩, trivial⟩,
      fun _ => ⟨?_, fun _ => ?_⟩⟩
    · refine { hm.path.items with stack := fun v hv => ?_ }
      rcases List.mem_cons.1 hv with rfl | hv
      · trivial
      · exact hm.path.items.stack v hv
    · change f ∈ (s.add enough.formula).assertions at hf
      rw [hassertions, List.mem_append, List.mem_singleton] at hf
      rcases hf with hf | rfl
      · exact hm.assertions f hf
      · exact h k hC
    · exact ⟨[enough], first, outer, rfl, hframes, Solver.frames_add _ (hs.trans hframes)⟩
    · exact hassertions.symm ▸ hpossible

theorem allHold_update {name : String} {fs : List Formula} {w : Word}
    (h : ∀ f ∈ fs, f.Over (· ≠ name)) :
    allHold (fun x => if x = name then w else env x) fs = allHold env fs := by
  unfold allHold
  rw [Bool.eq_iff_iff, List.all_eq_true, List.all_eq_true]
  have heval (f : Formula) (hf : f ∈ fs) :
      f.eval (fun x => if x = name then w else env x) = f.eval env :=
    Formula.eval_congr (fun x hx => if_neg hx) f (h f hf)
  exact forall₂_congr fun f hf => by rw [heval f hf]

def notNegative (name : String) : Condition :=
  .symbolic (.compare .sge (.var name) (.const (BitVec.ofInt 256 0)))

theorem yields_newBalance {f : String → Exec α} {R : Nat → α → Prop}
    (hf : ∀ name, Yields (fun k => C k ∧ spare k name) (f name) R) :
    Yields C (do
      let name ← fresh Names.freshArbitrary
      declare name
      let known ← ofExcept ((Value.var name).ge (.int 0))
      assertThat known
      addCondition known
      f name) R := by
  refine ⟨touches_all _, fun m a m' ho => ?_⟩
  let n := m.shared.names.other + 1
  let name := "some_var_" ++ toString n
  let m₁ : Machine :=
    { path := { m.path with
        vars := m.path.vars.insert name (.var name)
        conditions := m.path.conditions ++ [notNegative name] }
      shared := { m.shared with
        names := { m.shared.names with other := n }
        solver := m.shared.solver.add (notNegative name).formula } }
  change (f name).outcome m₁ = (.ok a, m') at ho
  have hassertions : m₁.shared.solver.assertions =
      m.shared.solver.assertions ++ [(notNegative name).formula] := Solver.assertions_add _ _
  have hfirst : Kind.spare.Leads C (fun k => spare k name) m m₁ := by
    refine ⟨Nat.le_succ _, fun k hk _ hm => ?_, fun hm => ⟨?_, fun hsat => ?_⟩⟩
    · have hname : spare k name := spare_arbitrary (Nat.ne_of_lt hk)
      refine ⟨⟨⟨{ hm.path.items with vars := hm.path.items.vars.insert hname }, hm.path.balance⟩,
        hm.graph, ?_⟩, hname⟩
      intro g hg
      rw [hassertions, List.mem_append, List.mem_singleton] at hg
      rcases hg with hg | rfl
      · exact hm.assertions g hg
      · exact ⟨hname, trivial⟩
    · obtain ⟨first, outer, hframes⟩ := Solver.exists_frames m.shared.solver
      exact ⟨[notNegative name], first, outer, rfl, hframes, Solver.frames_add _ hframes⟩
    · obtain ⟨env, henv⟩ := hsat
      have hover := (hm n (Nat.lt_succ_self _)).2.assertions
      refine ⟨fun x => if x = name then 0 else env x, ?_⟩
      rw [hassertions, allHold_append, allHold_update hover, henv]
      simp [allHold, notNegative, Condition.formula, Formula.eval, Term.eval, Comparison.holds]
  exact hfirst.trans ((hf name).2 m₁ a m' ho)

theorem credits_spare : Credits (Machine.AlikeBut allParts) .spare := fun owner ha =>
  yields_newBalance fun _ =>
  (holds_ofExcept fun k h => Value.gives_add (Value.over_var h.2) (ha k h.1)).bind fun _ =>
    holds_setBalance owner fun _ h => h.2

/-! ### Fees -/

theorem outcome_storeSymbol {place value : Value} {m : Machine}
    (hs : m.path.world.storage.All (Value.Over P)) (hv : value.Over P) :
    ∃ fee, (Gas.storeSymbol ctx place value).outcome m =
      (.ok fee, m.withSolver { m.shared.solver with hasModel := false }) := by
  obtain ⟨nonzero, hne⟩ := Value.exists_ne_int hv 0
  rw [Gas.storeSymbol, outcome_tryCatch, Gas.storeOver, outcome_bind_getWorld]
  cases hplace : Gas.storageAt? ctx.print m.path.world.storage place with
  | none =>
    obtain ⟨fee, h⟩ := @Gas.outcome_storeFee ctx nonzero.not m
    refine ⟨fee, ?_⟩
    dsimp only
    rw [outcome_throw]
    dsimp only
    rw [hne]
    exact h
  | some old =>
    have hold : old.Over P := by
      unfold Gas.storageAt? at hplace
      split at hplace
      next found hfound =>
        cases hplace
        obtain ⟨n, -, hn⟩ := Option.bind_eq_some_iff.1 hfound
        exact hs _ _ hn
      · exact hs _ _ hplace
    obtain ⟨wasZero, heq⟩ := Value.exists_eq_int hold 0
    obtain ⟨fee, h⟩ := @Gas.outcome_storeFee ctx (.not (.and wasZero.formula nonzero.formula)) m
    refine ⟨fee, ?_⟩
    dsimp only
    rw [heq, hne]
    have hover : (do
        pushScope
        let wasZero ← ofExcept (.ok wasZero)
        let nonzero ← ofExcept (.ok nonzero)
        Gas.storeFee ctx (.not (.and wasZero.formula nonzero.formula)) : Exec Int).outcome m =
          (.ok fee, m.withSolver { m.shared.solver with hasModel := false }) := h
    rw [hover]

theorem yields_storeSymbol (place : Value) {value : Value}
    (hv : ∀ k, C k → value.Over (spare k)) : Yields C (Gas.storeSymbol ctx place value) Done := by
  refine ⟨touches_all _, fun m a m' ho => ?_⟩
  have hstore {k : Nat} (hC : C k) (hm : m.Fits .spare k) :
      m' = m.withSolver { m.shared.solver with hasModel := false } := by
    obtain ⟨fee, h⟩ := @outcome_storeSymbol ctx _ place value m hm.path.items.storage (hv k hC)
    rw [h] at ho
    exact (Prod.mk.inj ho).2.symm
  have hnames := (@Gas.leaves_storeSymbol ctx place value m).names
  rw [ho] at hnames
  refine ⟨hnames, fun k _ hC hm => ?_, fun hm => ?_⟩
  · obtain rfl := hstore hC hm
    exact ⟨⟨hm.path, hm.graph, hm.assertions⟩, trivial⟩
  · obtain ⟨hC, hm⟩ := hm _ (Nat.lt_succ_self _)
    obtain rfl := hstore hC hm
    exact Kind.Lawful.still rfl rfl

theorem yields_callValue (amount : Value) : Yields C (Gas.callValue ctx amount) Done := by
  unfold Gas.callValue
  split
  · exact holds_pure fun _ _ => trivial
  · exact (holds_inquire fun _ _ => Inquiry.gives_of_forall (fun _ => trivial) _).bind fun _ =>
      holds_pure fun _ _ => trivial

theorem yields_dynamic (op : Operation) : Yields C (Gas.dynamic ctx op) Done := by
  cases h : Gas.asksFee op with
  | false =>
    refine ⟨touches_all _, fun m a m' ho => ?_⟩
    have hstill := @Gas.still_dynamic ctx _ h m
    rw [ho] at hstill
    exact .of_still hstill fun _ _ _ => trivial
  | true =>
    refine holds_getPath.bind fun path => ?_
    have hcall (amount : Value) {D : Nat → Prop} :
        Yields D (do return Fee.call + (← Gas.callValue ctx amount)) Done :=
      (yields_callValue amount).bind fun _ => holds_pure fun _ _ => trivial
    cases op <;> simp only [Gas.asksFee, Bool.false_eq_true] at h
    case sstore =>
      rcases hs : path.stack with _ | ⟨place, _ | ⟨value, rest⟩⟩
      · exact holds_pure fun _ _ => trivial
      · exact holds_pure fun _ _ => trivial
      · dsimp only
        split
        · exact holds_pure fun _ _ => trivial
        · exact yields_storeSymbol place fun k hC => hC.2.items.stack value (by simp [hs])
    all_goals
      rcases path.stack with _ | ⟨gas, _ | ⟨recipient, _ | ⟨amount, rest⟩⟩⟩
      · exact holds_pure fun _ _ => trivial
      · exact holds_pure fun _ _ => trivial
      · exact holds_pure fun _ _ => trivial
      · exact hcall amount

theorem yields_prepare (instruction : Instruction) : Yields C (prepare ctx instruction) Done := by
  have hnote {D : Nat → Prop} : Yields D noteReentrancy Done :=
    yields_quiet (touches_noteReentrancy.mono (by decide))
  have hcharge {D : Nat → Prop} : Yields D (Gas.charge ctx instruction) Done := by
    refine (yields_dynamic _).bind fun _ => holds_getPath.bind fun _ => yields_quiet ?_
    exact touches_step .fees fun _ => ⟨(_, _), trivial, rfl⟩
  refine holds_ite (fun _ => holds_pure fun _ _ => trivial) fun _ => ?_
  refine Holds.bind (Q := Done) ?_ fun _ => holds_ite (fun _ => hnote) fun _ =>
    holds_pure fun _ _ => trivial
  exact hcharge.bind fun _ => yields_quiet ((touches_noteMove _).mono (by decide))

/-! ### Steps -/

theorem yields_perform (hexact : ctx.Exact) (hsource : ctx.source = none) (site : Site)
    (name : String) (op : Operation) : Yields C (perform ctx site name op) Done :=
  have := permits_all (footprint op)
  holds_perform site name op (fun _ => inferInstance)
  (fun _ m _ _ => .of_replace (q := .graph) (by decide) m _)
    (closed_spare hexact.simplify hsource) (.inr whole_spare) (fun _ => pledges_spare hexact)
    fun _ => credits_spare

theorem yields_markVisited : Yields C markVisited Done := yields_quiet touches_markVisited

theorem yields_step (hexact : ctx.Exact) (hsource : ctx.source = none) (site : Site)
    (instruction : Instruction) : Yields C (step ctx site instruction) Done :=
  yields_markVisited.bind fun _ => (yields_prepare instruction).bind fun _ =>
    yields_perform hexact hsource site instruction.name instruction.operation

end Exec

end EvmAudit
