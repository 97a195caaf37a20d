import EvmAudit.Proofs.Explore.Conditions
import EvmAudit.Proofs.Graph.Links

/-! Conditional jumps. Which sides of a branch are explored is settled by the solver: a side is
entered exactly if its condition can hold together with what the solver knows before the jump. -/

namespace EvmAudit

namespace Exec

variable {ctx : Context} {entries : Table Int String}
variable {m : Machine} {parent : Path} {c : Condition} {target : Except Fault Int}

/-! ### Explorations that come to their end -/

theorem GoesOn.bind {α β : Type} {x : Exec α} {f : α → Exec β} (hx : GoesOn (x.outcome m).1)
    (hf : ∀ a m₁, x.outcome m = (.ok a, m₁) → GoesOn ((f a).outcome m₁).1) :
    GoesOn ((x >>= f).outcome m).1 := by
  rw [outcome_bind]
  generalize x.outcome m = r at hx hf ⊢
  obtain ⟨e | a, m₁⟩ := r
  · intro e' he
    cases he
    exact hx e rfl
  · exact hf a m₁ rfl

theorem goesOn_error {α : Type} {e : Fault} (h : isFinal e = false) :
    GoesOn (Except.error e : Except Fault α) := by
  rintro _ ⟨⟩
  exact h

theorem goesOn_caught {x : Exec Unit} (h : GoesOn (x.outcome m).1) :
    GoesOn ((tryCatch x fun cause => do if isFinal cause then throw cause).outcome m).1 := by
  rw [outcome_tryCatch]
  generalize x.outcome m = r at h ⊢
  obtain ⟨e | _, m₁⟩ := r
  · dsimp only
    rw [h e rfl]
    exact goesOn_ok ()
  · exact goesOn_ok ()

theorem goesOn_enter (v : Visit) (m : Machine) : GoesOn ((enter ctx entries v).outcome m).1 := by
  unfold enter
  split
  · exact goesOn_ok _
  · refine GoesOn.bind ?_ fun function m₁ _ => GoesOn.bind (goesOn_ok _) fun count m₂ _ => ?_
    · unfold functionAt
      split
      · split
        · exact goesOn_error rfl
        · exact goesOn_ok _
      · exact goesOn_ok _
    · split
      · exact goesOn_ok _
      · refine GoesOn.bind (goesOn_ok _) fun path m₃ _ => ?_
        split
        · exact goesOn_ok _
        · refine GoesOn.bind (goesOn_ok _) fun s m₄ _ => ?_
          split <;> exact goesOn_ok _

theorem goesOn_runAll {site : Site} {texts : List String}
    (hpass : ∀ text m', Ran ctx site texts m text m' → Succeeds ctx site text m') :
    GoesOn ((runAll ctx site texts).outcome m).1 := by
  induction texts generalizing m with
  | nil => exact goesOn_ok _
  | cons first rest ih =>
    obtain ⟨m₁, ho⟩ := hpass first m .here
    refine GoesOn.bind (ho ▸ goesOn_ok ()) fun _ m₂ ho' => ?_
    exact ih fun text m' hr => hpass text m' (.there ho' hr)

theorem goesOn_finish (hunit : ctx.settings.unitTest = 0) (m : Machine) :
    GoesOn ((finish ctx).outcome m).1 := by
  have hok : ((finish ctx).outcome m).1 = .ok () := by
    simp only [finish, hunit, outcome_bind, outcome_modifyShared]
    cases on ctx.settings.generateTestCases with
    | false => rfl
    | true =>
      simp only [if_true, outcome_bind, outcome_getShared]
      cases m.shared.solver.modelIsOpen ctx.simplify <;> rfl
  rw [hok]
  exact goesOn_ok ()

theorem goesOn_ofExcept {α : Type} {x : Except Fault α} (h : GoesOn x) (m : Machine) :
    GoesOn ((ofExcept x).outcome m).1 := by
  cases x with
  | error e => exact goesOn_error (h e rfl)
  | ok a => exact goesOn_ok a

theorem goesOn_getFallsTo (b : Block) : GoesOn b.getFallsTo := by
  unfold Block.getFallsTo
  cases b.fallsTo with
  | none => exact goesOn_error rfl
  | some next => exact goesOn_ok next

theorem goesOn_branchOfBlock (b : Block) :
    GoesOn (do (← b.getBranch).asCondition : Except Fault Condition) := by
  unfold Block.getBranch
  cases b.branch with
  | none => exact goesOn_error rfl
  | some v =>
    change GoesOn v.asCondition
    unfold Value.asCondition
    split
    · exact goesOn_ok _
    · exact goesOn_ok _
    · exact goesOn_error rfl

theorem goesOn_onward (hsource : ctx.source = none) (hunit : ctx.settings.unitTest = 0)
    (previous : Int) (site : Site) (last : Bool) (m : Machine) :
    GoesOn ((onward ctx previous site last).outcome m).1 := by
  have hcaller (caller : Int) (m : Machine) : GoesOn ((callerAfter ctx caller).outcome m).1 := by
    unfold callerAfter
    rw [hsource]
    exact goesOn_ok _
  refine GoesOn.bind (goesOn_ok _) fun s m₁ _ => ?_
  dsimp only
  split
  · exact goesOn_error rfl
  · exact goesOn_error rfl
  · exact (goesOn_finish hunit m₁).bind fun _ _ _ => goesOn_ok _
  · exact (goesOn_finish hunit m₁).bind fun _ _ _ => goesOn_ok _
  · exact (hcaller _ m₁).bind fun _ _ _ => GoesOn.bind (goesOn_ok _) fun _ _ _ => goesOn_ok _
  · exact (goesOn_ofExcept (goesOn_getFallsTo _) m₁).bind fun _ _ _ =>
      GoesOn.bind (goesOn_ok _) fun _ _ _ => goesOn_ok _
  · exact (goesOn_ofExcept (goesOn_branchOfBlock _) m₁).bind fun _ _ _ => goesOn_ok _
  · exact GoesOn.bind (goesOn_ok _) fun _ _ _ => goesOn_error rfl

theorem goesOn_visit (hsource : ctx.source = none) (hunit : ctx.settings.unitTest = 0) (last : Bool)
    {v : Visit} (hpass : ∀ site text m', Runs ctx entries v m site text m' →
      Succeeds ctx site text m') : GoesOn ((visit ctx entries last v).outcome m).1 := by
  refine (goesOn_enter v m).bind fun entered m₁ he => ?_
  rcases entered with _ | ⟨site, texts⟩
  · exact goesOn_ok _
  · refine (goesOn_runAll fun text m' h => hpass site text m' ⟨texts, m₁, he, h⟩).bind
      fun _ m₂ _ => GoesOn.bind (goesOn_ok _) fun _ m₃ _ => ?_
    exact (goesOn_onward hsource hunit v.previous site last m₃).bind fun _ _ _ => goesOn_ok _

theorem goesOn_takeSide (htarget : GoesOn target) (m : Machine) :
    GoesOn ((takeSide ctx parent c target).outcome m).1 := by
  refine GoesOn.bind (goesOn_ok _) fun v m₁ _ => ?_
  split
  · exact goesOn_ok _
  · refine (goesOn_ofExcept htarget m₁).bind fun next m₂ _ =>
      GoesOn.bind (goesOn_ok _) fun _ m₃ _ => GoesOn.bind (goesOn_ok _) fun _ _ _ => goesOn_ok _

theorem goesOn_branch {continue_ : Int → Exec Unit} (htarget : GoesOn target)
    (hk : ∀ next m', (approach ctx parent c target).outcome m = (.ok (some next), m') →
      GoesOn ((continue_ next).outcome m').1) :
      GoesOn ((branch ctx parent c target continue_).outcome m).1 := by
  let m₂ := m.withSolver (m.shared.solver.push.add c.formula)
  let body := follow ctx parent c target continue_
  have hbody : GoesOn (body.outcome m₂).1 := by
    refine (goesOn_takeSide htarget m₂).bind fun side m' ho => ?_
    cases side with
    | none => exact goesOn_ok ()
    | some next => exact hk next m' ho
  have hpop (m : Machine) : GoesOn (popScope.outcome m).1 := by
    refine GoesOn.bind (goesOn_ok _) fun s m₁ _ => ?_
    split
    · exact goesOn_ok _
    · exact goesOn_error rfl
  rw [outcome_branch]
  exact (goesOn_caught hbody).bind fun _ _ _ => GoesOn.bind (goesOn_ok _) fun _ m₄ _ => hpop m₄

theorem goesOn_explore (hsource : ctx.source = none) (hunit : ctx.settings.unitTest = 0)
    (remaining : Nat) (v : Visit) (m : Machine)
    (hpass : Below ctx entries (Succeeds ctx) ⟨remaining, v, m⟩) :
    GoesOn ((explore ctx entries remaining v).outcome m).1 := by
  induction remaining generalizing v m with
  | zero =>
    rw [explore]
    exact (goesOn_visit hsource hunit true (below_iff.1 hpass).1).bind fun _ _ _ => goesOn_ok _
  | succ remaining ih =>
    obtain ⟨hself, hnext⟩ := below_iff.1 hpass
    rw [explore]
    refine (goesOn_visit hsource hunit false hself).bind fun r m₁ hv => ?_
    obtain ⟨site, onward⟩ := r
    cases onward with
    | stop => exact goesOn_ok _
    | go next => exact ih next m₁ (hnext _ (.go hv))
    | fork c b =>
      refine GoesOn.bind (goesOn_ok _) fun parent m₁' hparent => ?_
      cases hparent
      refine GoesOn.bind (goesOn_branch (goesOn_ok _) fun next m' h => ?_) fun _ m₂ ht => ?_
      · exact ih (sideOf v site next) m' (hnext _ (.target hv h))
      · refine GoesOn.bind (goesOn_branch (goesOn_getFallsTo b) fun next m' h => ?_) fun _ m₃ _ =>
          goesOn_ok _
        exact ih (sideOf v site next) m' (hnext _ (.fall hv ht h))

theorem side_returns (hsource : ctx.source = none) (hunit : ctx.settings.unitTest = 0)
    {remaining : Nat} {v : Visit} {site : Site} (htarget : GoesOn target)
    (hpass : ∀ next m', (approach ctx parent c target).outcome m = (.ok (some next), m') →
      Below ctx entries (Succeeds ctx) ⟨remaining, sideOf v site next, m'⟩) :
    ∃ m', (branch ctx parent c target (side ctx entries remaining v site)).outcome m =
      (.ok (), m') := by
  obtain ⟨n, -, h⟩ := @accounts_branch ctx parent c target
    (side ctx entries remaining v site)
    (fun next m₁ => ClosedBelow ctx entries ⟨remaining, sideOf v site next, m₁⟩) m
    fun next m₁ _ => accounts_explore remaining (sideOf v site next) m₁
  have hgo : GoesOn
      ((branch ctx parent c target (side ctx entries remaining v site)).outcome m).1 :=
    goesOn_branch htarget fun next m' ho =>
      goesOn_explore hsource hunit remaining _ m' (hpass next m' ho)
  exact ⟨_, Prod.ext (h hgo).2.2 rfl⟩

end Exec

end EvmAudit
