import EvmAudit.Proofs.Explore.Conditions
import EvmAudit.Proofs.Explore.Moments
import EvmAudit.Proofs.Explore.Restore

/-! Calls are made with the conditions of their path asserted, also where instructions fail on the
way: what a failure leaves open in the solver only hides sides that could be taken. -/

namespace EvmAudit

namespace Exec

variable {α β : Type} {C : Nat → Prop} {Q : Nat → α → Prop} {ctx : Context}
  {entries : Table Int String}
variable {m m' : Machine} {x : Exec α} {c : Condition} {target : Except Fault Int}

/-! ### Branches after a failure -/

def BranchesFresh (m : Machine) : Prop :=
  ∀ k, m.shared.names.other < k → m.shared.graph.Branches (Formula.Over (spare k))

theorem BranchesFresh.of_ledger (h : BranchesFresh m)
    (hbranch : m'.ledger.branch? = m.ledger.branch?)
    (hnames : m.shared.names.other ≤ m'.shared.names.other) : BranchesFresh m' := by
  intro k hk key b v c hb hv hc
  have hkey : (m'.shared.graph.blocks.get? key).map Block.branch =
      (m.shared.graph.blocks.get? key).map Block.branch := congrFun hbranch key
  rw [hb] at hkey
  obtain ⟨b', hb', hsame⟩ := Option.map_eq_some_iff.1 hkey.symm
  exact h k (Nat.lt_of_le_of_lt hnames hk) key b' v c hb' (hsame.trans hv) hc

def Guards (C : Nat → Prop) (x : Exec α) : Prop :=
  ∀ m : Machine, (∀ k, m.shared.names.other < k → C k ∧ m.Fits .spare k) →
    BranchesFresh (x.outcome m).2

theorem Guards.bind {f : α → Exec β} (hx : Guards C x) (hy : Yields C x Q)
    (hf : ∀ a, Guards (fun k => C k ∧ Q k a) (f a)) : Guards C (x >>= f) := by
  intro m hm
  have hfail := hx m hm
  rw [outcome_bind]
  rcases ho : x.outcome m with ⟨e | a, m₁⟩ <;> rw [ho] at hfail
  · exact hfail
  · refine hf a m₁ fun k hk => ?_
    have hleads := hy.2 m a m₁ ho
    obtain ⟨hc, hover⟩ := hm k (Nat.lt_of_le_of_lt hleads.names hk)
    obtain ⟨hover', hq⟩ := hleads.clear k hk hc hover
    exact ⟨⟨hc, hq⟩, hover'⟩

theorem guards_of_books (hbooks : Books False False True x)
    (hnames : ∀ m : Machine, ∃ n, m.Changes n (x.outcome m).2) : Guards C x := by
  intro m hm
  have hfresh : BranchesFresh m := fun k hk => (hm k hk).2.graph
  obtain ⟨n, hchanges⟩ := hnames m
  exact hfresh.of_ledger ((hbooks m).2.2.1.resolve_right id) hchanges.names

theorem guards_of_tame (hx : Within (Machine.Booked False False True) x) (ht : Tame x) :
    Guards C x :=
  guards_of_books hx fun m => ⟨0, ht m⟩

theorem guards_updateBlock (block : Int) {f : Block → Block}
    (hy : Yields C (updateBlock block f) Done) : Guards C (updateBlock block f) := by
  intro m hm
  have hfresh : BranchesFresh m := fun k hk => (hm k hk).2.graph
  rcases ho : (updateBlock block f).outcome m with ⟨e | u, m'⟩
  · have hsame : m' = m := by
      rw [updateBlock, outcome_bind_getShared] at ho
      split at ho
      · exact (Prod.mk.inj ho).2.symm
      · cases ho
    exact hsame ▸ hfresh
  · intro k hk
    have hleads := hy.2 m u m' ho
    obtain ⟨hc, hover⟩ := hm k (Nat.lt_of_le_of_lt hleads.names hk)
    exact (hleads.clear k hk hc hover).1.graph

theorem yields_setBranch {block : Int} {branch : Value}
    (h : ∀ k, C k → ∀ c, branch.asCondition = .ok c → c.Over (spare k)) :
    Yields C (updateBlock block fun b => { b with branch := some branch }) Done :=
  holds_updateBlock (touches_all _) fun k b v c hC hv hc => by
    cases hv
    exact Or.inr (h k hC c hc)

theorem guards_jumpIf (block : Int) : Guards C (jumpIf ctx block) := by
  refine (guards_of_tame (touches_need 2) (touches_need 2)).bind (holds_need 2) fun _ => ?_
  refine (guards_of_tame touches_pop touches_pop).bind holds_pop fun v => ?_
  refine (guards_of_tame (touches_targetOf v) (touches_targetOf v)).bind
    (yields_quiet (touches_targetOf v)) fun target => ?_
  refine (guards_of_tame (touches_setTarget block v target) (touches_setTarget block v target)).bind
    (holds_setTarget block v target) fun _ => ?_
  refine (guards_of_tame touches_pop touches_pop).bind holds_pop fun flag => ?_
  refine (guards_of_tame (touches_ofExcept _) (touches_ofExcept _)).bind
    (holds_ofExcept fun k h => gives_branchOf h.2) fun branch => ?_
  exact (guards_updateBlock block (yields_setBranch fun _ h => h.2)).bind
    (yields_setBranch fun _ h => h.2) fun _ =>
      guards_of_tame (touches_addEdge block target) (touches_addEdge block target)

theorem branchesFresh_traced {site : Site} {text : String} {m : Machine} (hm : m.Fresh) :
    BranchesFresh ((traced ctx site text).outcome m).2 := by
  rcases (@ledger_traced ctx site text m).2.2 with hsame | hop
  · obtain ⟨n, hchanges, -⟩ := @accounts_traced ctx site text m
    exact BranchesFresh.of_ledger (fun k hk => (hm k hk).graph) hsame hchanges.names
  · have hstep : Guards (fun _ => True) (do tick ctx; step ctx site (.ofText text)) := by
      have htick : Guards (fun _ => True) (tick ctx) := fun m hm => by
        rw [outcome_tick]
        exact fun k hk => (hm k hk).2.graph
      refine htick.bind yields_tick fun _ => ?_
      refine (guards_of_tame steady_markVisited.books tame_markVisited).bind yields_markVisited
        fun _ => ?_
      refine (guards_of_books (books_prepare _) fun m => ⟨_, leaves_prepare _ m⟩).bind
        (yields_prepare _) fun _ => ?_
      rw [hop]
      exact guards_jumpIf site.block
    have hbody := hstep m fun k hk => ⟨trivial, hm k hk⟩
    obtain ⟨rows, htraced⟩ := @outcome_traced ctx site text m
    rw [htraced]
    exact hbody

theorem branchesFresh_branch {parent : Path} {continue_ : Int → Exec Unit} (hm : BranchesFresh m)
    (hk : ∀ next m', (approach ctx parent c target).outcome m = (.ok (some next), m') →
      BranchesFresh ((continue_ next).outcome m').2) :
    BranchesFresh ((branch ctx parent c target continue_).outcome m).2 :=
  branch_invariant (P := BranchesFresh) (fun _ _ _ h => h.of_ledger rfl (Nat.le_refl _)) hm
    fun next m' ho _ => hk next m' ho

/-! ### The second side of a branch -/

theorem consistent_branch {m m' : Machine} (hm : m.Consistent) (hframes :
    m'.shared.solver.frames = m.shared.solver.frames) (hpath : m'.path = m.path)
    (hnames : m.shared.names.other ≤ m'.shared.names.other) (hb : BranchesFresh m') :
    m'.Consistent := by
  have ha := Solver.assertions_congr hframes
  refine ⟨fun k hk => ?_, hpath ▸ hm.opening, by rw [ha, hpath, hm.assertions], ha ▸ hm.satisfiable⟩
  have ho := hm.fresh k (Nat.lt_of_le_of_lt hnames hk)
  exact ⟨hpath ▸ ho.path, hb k hk, ha ▸ ho.assertions⟩

theorem satisfiable_append {fs : List Formula} {f : Formula} :
    Satisfiable (fs ++ [f]) ↔ ∃ env, allHold env fs = true ∧ f.eval env = true := by
  simp [Satisfiable, allHold]

theorem left_of_branch {remaining : Nat} {v : Visit} {site : Site} {parent : Path}
    (h : (branch ctx parent c target (side ctx entries remaining v site)).outcome m =
      (.ok (), m')) :
    m'.shared.solver.frames = m.shared.solver.frames ∨ c.formula ∈ m'.shared.solver.assertions := by
  let m₂ := m.withSolver (m.shared.solver.push.add c.formula)
  let continue_ (next : Int) : Exec Unit := explore ctx entries remaining (sideOf v site next)
  obtain ⟨n, hside⟩ : ∃ n, m₂.Changes n (sideEnd ctx parent c target continue_ m) := by
    have htake : m₂.Changes 0 ((approach ctx parent c target).outcome m).2 :=
      tame_takeSide parent c target m₂
    rw [sideEnd]
    rcases ho : (approach ctx parent c target).outcome m with ⟨e | _ | next, m₃⟩ <;>
      rw [ho] at htake
    · exact ⟨0, htake⟩
    · exact ⟨0, htake⟩
    · obtain ⟨n, hn, -⟩ := @accounts_explore ctx entries remaining (sideOf v site next) m₃
      exact ⟨0 + n, htake.trans hn⟩
  obtain ⟨s, p, hend, hclosed⟩ := @branch_end ctx parent c target continue_ m
  obtain ⟨u, hu, -, hleft⟩ := hside.solver.close
  rw [h] at hend hclosed
  cases hu.symm.trans (hclosed rfl).2
  rw [show m' = _ from hend]
  split at hleft
  · exact .inl hleft
  · exact .inr hleft

theorem consistent_fall (hexact : ctx.Exact) {remaining : Nat} {v : Visit} {site : Site}
    {target' : Except Fault Int} {m'' : Machine} {next : Int} (hm : m.Consistent)
    (hc : ∀ k, m.shared.names.other < k → c.Over (spare k))
    (ht : (branch ctx m.path c target (side ctx entries remaining v site)).outcome m = (.ok (), m'))
    (hfresh : BranchesFresh m')
    (hf : (approach ctx m.path (.symbolic c.not) target').outcome m' = (.ok (some next), m'')) :
    m''.Consistent := by
  obtain ⟨n, hchanges⟩ := changes_side ht
  have hpath := path_branch ht
  obtain ⟨-, hverdict, -⟩ := outcome_approach_some hf
  obtain ⟨env, henv, hnot⟩ := satisfiable_append.1 ((hexact.isUnsat _).1 hverdict)
  rcases left_of_branch ht with hframes | hmem
  · have hm' := consistent_branch hm hframes hpath hchanges.names hfresh
    refine consistent_approach hexact hm' hpath.symm (fun k hk => ?_) hf
    exact hc k (Nat.lt_of_le_of_lt hchanges.names hk)
  -- scopes that the first side left open still hold its condition, and no model has both
  · have hset : c.formula.eval env = true := List.all_eq_true.1 henv _ hmem
    change (!c.formula.eval env) = true at hnot
    rw [hset] at hnot
    cases hnot

def Extends (m m' : Machine) : Prop :=
  m.shared.graph.Same m'.shared.graph ∧ ∃ cs, m'.path.conditions = m.path.conditions ++ cs

theorem Extends.trans {m'' : Machine} (h : Extends m m') (h' : Extends m' m'') : Extends m m'' := by
  obtain ⟨hg, cs, hc⟩ := h
  obtain ⟨hg', cs', hc'⟩ := h'
  exact ⟨hg.trans hg', cs ++ cs', by rw [hc', hc, List.append_assoc]⟩

theorem extends_approach {c : Condition} {next : Int}
    (h : (approach ctx m.path c target).outcome m = (.ok (some next), m')) : Extends m m' := by
  obtain ⟨-, -, s, p, rfl, -, hc, -⟩ := outcome_approach_some h
  exact ⟨.refl _, [c], hc⟩

/-! ### Calls -/

section

variable (hexact : ctx.Exact) (hsource : ctx.source = none)
include hexact hsource

theorem branchesFresh_runAll {site : Site}
    {texts : List String} {m : Machine} (hm : m.Fresh) :
    BranchesFresh ((runAll ctx site texts).outcome m).2 := by
  induction texts generalizing m with
  | nil => exact fun k hk => (hm k hk).graph
  | cons text rest ih =>
    have hfail := @branchesFresh_traced ctx site text m hm
    rw [runAll, outcome_bind]
    rcases ho : (traced ctx site text).outcome m with ⟨e | u, m₁⟩ <;> rw [ho] at hfail
    · exact hfail
    · exact ih
        (((yields_traced (C := fun _ => True) hexact hsource site text).2 m u m₁ ho).fresh hm)

theorem branchesFresh_visit (last : Bool) (v : Visit)
    (hm : m.Fresh) : BranchesFresh ((visit ctx entries last v).outcome m).2 := by
  have henter : BranchesFresh ((enter ctx entries v).outcome m).2 :=
    BranchesFresh.of_ledger (fun k hk => (hm k hk).graph)
      (congrArg Ledger.branch? (steady_enter v m)) (tame_enter v m).names
  rw [visit, outcome_bind]
  rcases ho : (enter ctx entries v).outcome m with ⟨e | _ | ⟨site, texts⟩, m₁⟩ <;> rw [ho] at henter
  · exact henter
  · exact henter
  · have hm₁ : m₁.Fresh := ((yields_enter (C := fun _ => True) v).2 m _ m₁ ho).fresh hm
    have hrun := @branchesFresh_runAll ctx hexact hsource site texts m₁ hm₁
    dsimp only
    rw [outcome_bind]
    rcases hr : (runAll ctx site texts).outcome m₁ with ⟨e | u, m₂⟩ <;> rw [hr] at hrun
    · exact hrun
    · obtain ⟨m₃, hrecord, -, hgraph, -⟩ := outcome_record m₂
      have honward : Tame (do return (site, ← onward ctx v.previous site last)) :=
        (tame_onward v.previous site last).bind fun _ => tame_pure _
      have hsteady : Steady (do return (site, ← onward ctx v.previous site last)) :=
        (steady_onward v.previous site last).bind fun _ => fixes_pure _
      have hnames := tame_record m₂
      rw [hrecord] at hnames
      dsimp only
      rw [outcome_bind, hrecord]
      refine hrun.of_ledger ((congrArg Ledger.branch? (hsteady m₃)).trans ?_)
        (Nat.le_trans hnames.names (honward m₃).names)
      exact congrArg (fun g : Graph => fun k => (g.blocks.get? k).map Block.branch) hgraph

theorem consistent_visit {last : Bool} {v : Visit}
    {m m₁ : Machine} {r : Site × Onward} (hm : m.Consistent)
    (h : (visit ctx entries last v).outcome m = (.ok r, m₁)) :
    m₁.Consistent ∧ ∀ k, m₁.shared.names.other < k → ForkOver k r.2 := by
  have hl := (yields_visit (C := fun _ => True) hexact hsource last v).2 m r m₁ h
  exact ⟨hl.consistent hm, fun k hk => hl.result hm.fresh hk⟩

theorem branchesFresh_target {remaining : Nat} {v : Visit} {m m₁ : Machine} {site : Site}
    {b : Block} (hm : m.Consistent) (hv : Forks ctx entries v m site c b m₁)
    (ih : ∀ d, Next ctx entries ⟨remaining + 1, v, m⟩ d → d.machine.Consistent →
      BranchesFresh (d.ending ctx entries)) :
    BranchesFresh ((branch ctx m₁.path c (.ok b.targetAddress)
      (side ctx entries remaining v site)).outcome m₁).2 := by
  obtain ⟨hm₁, hfork⟩ := consistent_visit hexact hsource hm hv
  refine branchesFresh_branch (fun k hk => (hm₁.fresh k hk).graph) fun next m' h => ?_
  exact ih _ (.target hv h) (consistent_approach hexact hm₁ rfl (fun k hk => hfork k hk c b rfl) h)

theorem branchesFresh_explore (c : Call)
    (hm : c.machine.Consistent) : BranchesFresh (c.ending ctx entries) := by
  refine ending_induction (Q := fun c m' => c.machine.Consistent → BranchesFresh m')
    (fun remaining v m hm => branchesFresh_visit hexact hsource _ v hm.fresh) ?go ?target ?fall
    (fun _ _ _ h hm => (h hm).of_ledger rfl (Nat.le_refl _)) c hm
  case go =>
    intro remaining v next m m₁ site hv h hm
    exact h (consistent_visit hexact hsource hm hv).1
  case target =>
    intro remaining v m m₁ m₂ site c b e hv ht ih hm
    have htarget := branchesFresh_target hexact hsource hm hv ih
    rwa [ht] at htarget
  case fall =>
    intro remaining v m m₁ m₂ site c b hv ht ih hm
    obtain ⟨hm₁, hfork⟩ := consistent_visit hexact hsource hm hv
    have htarget := branchesFresh_target hexact hsource hm hv ih
    rw [ht] at htarget
    refine branchesFresh_branch htarget fun next m' hf => ih _ (.fall hv ht hf) ?_
    exact consistent_fall hexact hm₁ (fun k hk => hfork k hk c b rfl) ht htarget hf

theorem extends_visit {last : Bool} {v : Visit} {m₁ : Machine} {r : Site × Onward} (hm : m.Fresh)
    (h : (visit ctx entries last v).outcome m = (.ok r, m₁)) : Extends m m₁ := by
  obtain ⟨n, hchanges⟩ := changes_visit h
  have hleads := (yields_visit (C := fun _ => True) hexact hsource last v).2 m r m₁ h
  obtain ⟨cs, hc, -⟩ := (hleads.change fun k hk => ⟨trivial, hm k hk⟩).1.assertions
  exact ⟨hchanges.graph, cs, hc⟩

/-- Every call is made with the conditions of its path asserted, and these can hold together. Its
path has the conditions of the call before it. -/
theorem consistent_step {c d : Call}
    (hm : c.machine.Consistent) (h : Next ctx entries c d) :
    d.machine.Consistent ∧ Extends c.machine d.machine := by
  cases h with
  | go hv =>
    exact ⟨(consistent_visit hexact hsource hm hv).1, extends_visit hexact hsource hm.fresh hv⟩
  | target hv ht =>
    obtain ⟨hm₁, hfork⟩ := consistent_visit hexact hsource hm hv
    exact ⟨consistent_approach hexact hm₁ rfl (fun k hk => hfork k hk _ _ rfl) ht,
      (extends_visit hexact hsource hm.fresh hv).trans (extends_approach ht)⟩
  | @fall remaining v m m₁ m₂ m₃ site cond b next hv ht hf =>
    obtain ⟨hm₁, hfork⟩ := consistent_visit hexact hsource hm hv
    have hfresh := branchesFresh_target hexact hsource hm hv
      fun d (_ : Next ctx entries ⟨remaining + 1, v, m⟩ d) => branchesFresh_explore hexact hsource d
    rw [ht] at hfresh
    have hm₃ := consistent_fall hexact hm₁ (fun k hk => hfork k hk _ _ rfl) ht hfresh hf
    obtain ⟨n, hchanges⟩ := changes_side ht
    have hpath := path_branch ht
    have hback : Extends m₁ m₂ := ⟨hchanges.graph, [], by rw [hpath, List.append_nil]⟩
    exact ⟨hm₃, (extends_visit hexact hsource hm.fresh hv).trans
      (hback.trans (extends_approach (hpath ▸ hf)))⟩

theorem consistent_of_reach {root c : Call}
    (hm : root.machine.Consistent) (h : Reaches ctx entries root c) :
    c.machine.Consistent ∧ Extends root.machine c.machine := by
  induction h with
  | refl => exact ⟨hm, .refl _, [], (List.append_nil _).symm⟩
  | tail _ hnext ih =>
    obtain ⟨hd, hextends⟩ := consistent_step hexact hsource ih.1 hnext
    exact ⟨hd, ih.2.trans hextends⟩

/-! ### Explorations in which no instruction fails -/

theorem Ran.fresh {site : Site} {texts : List String}
    {text : String} (h : Ran ctx site texts m text m') (hm : m.Fresh) : m'.Fresh := by
  induction h with
  | here => exact hm
  | there hfirst _ ih =>
    exact ih (((yields_traced (C := fun _ => True) hexact hsource _ _).2 _ _ _ hfirst).fresh hm)

theorem closedBelow_of_succeeds {c : Call}
    (hm : c.machine.Consistent) (hpass : Below ctx entries (Succeeds ctx) c) :
    ClosedBelow ctx entries c := by
  intro d hd site text m hrun
  obtain ⟨m', h⟩ := hpass d hd site text m hrun
  obtain ⟨texts, m₁, henter, hran⟩ := hrun
  have hm₁ : m₁.Fresh := ((yields_enter (C := fun _ => True) d.visit).2 d.machine _ m₁ henter).fresh
    (consistent_of_reach hexact hsource hm hd).1.fresh
  exact leavesNone_of_traced hexact hsource (hran.fresh hexact hsource hm₁) h

end

section

variable {remaining : Nat} {v : Visit} {m m₁ m₂ m₃ : Machine} {site : Site} {c : Condition}
  {b : Block} (hclosed : ClosedBelow ctx entries ⟨remaining + 1, v, m⟩)
  (hv : Forks ctx entries v m site c b m₁)
  (ht : (branch ctx m₁.path c (.ok b.targetAddress) fun next =>
    explore ctx entries remaining (sideOf v site next)).outcome m₁ = (.ok (), m₂))

include hclosed hv ht

theorem target_done : SameSolver m₁ m₂ :=
  (sameSolver_branch_iff ht).2 fun _ _ h => (closedBelow_iff.1 hclosed).2 _ (.target hv h)

theorem fall_done
    (hf : (branch ctx m₁.path (.symbolic c.not) b.getFallsTo
      (side ctx entries remaining v site)).outcome m₂ = (.ok (), m₃)) : SameSolver m₁ m₃ := by
  have hpath := path_branch ht
  have hfall : SameSolver m₂ m₃ := (sameSolver_branch_iff (hpath ▸ hf)).2 fun _ _ h =>
    (closedBelow_iff.1 hclosed).2 _ (.fall hv ht (hpath ▸ h))
  have htarget := target_done hclosed hv ht
  exact ⟨hfall.1.trans htarget.1, hfall.2.trans htarget.2⟩

end

end Exec

end EvmAudit
