import Mathlib
import EvmAudit.Proofs.Machine.Fees

/-! The calls that an exploration makes, and the instructions that are executed in each of them.
What an exploration leaves open is the sum over all of these. -/

namespace EvmAudit.Exec

variable {ctx : Context} {entries : Table Int String}
variable {m m' m₁ : Machine} {site : Site} {c : Call} {remaining : Nat} {v : Visit}

/-! ### Parts of the exploration -/

theorem tame_leaveEdge (source target : Int) : Tame (leaveEdge source target) :=
  touches_step .edges fun _ => ⟨_, trivial, rfl⟩

theorem tame_enter (v : Visit) : Tame (enter ctx entries v) :=
  tame_of_touches (touches_enter entries v) (by decide)

theorem tame_record : Tame record := tame_of_touches touches_record (by decide)

theorem tame_onward (previous : Int) (site : Site) (last : Bool) :
    Tame (onward ctx previous site last) :=
  tame_of_touches (touches_onward previous site last) (by decide)

theorem tame_takeSide (parent : Path) (c : Condition) (target : Except Fault Int) :
    Tame (takeSide ctx parent c target) := by
  refine touches_verdict.bind fun v =>
    touches_ite (tame_pure none) ((touches_ofExcept _).bind fun next => ?_)
  exact fun _ => ⟨.refl _, .refl _, Nat.le_refl _⟩

/-! ### The instructions of a block -/

def GoesOn {α : Type} (r : Except Fault α) : Prop := ∀ e, r = .error e → isFinal e = false

/-- As long as the exploration goes on, a computation leaves a scope open exactly where `P`
fails. -/
def Accounts {α : Type} (m : Machine) (o : Except Fault α × Machine) (P : Prop) : Prop :=
  ∃ n, m.Changes n o.2 ∧ (GoesOn o.1 → (n = 0 ↔ P))

theorem Tame.accounts {α : Type} {x : Exec α} (h : Tame x) (m : Machine) :
    Accounts m (x.outcome m) True := ⟨0, h m, fun _ => by simp⟩

theorem Accounts.congr {α : Type} {o : Except Fault α × Machine} {P Q : Prop} (h : Accounts m o P)
    (hpq : P ↔ Q) : Accounts m o Q := by
  obtain ⟨n, hn, hp⟩ := h
  exact ⟨n, hn, fun hg => (hp hg).trans hpq⟩

theorem Accounts.bind {α β : Type} {x : Exec α} {f : α → Exec β} {P : Prop} {R : α → Machine → Prop}
    (hx : Accounts m (x.outcome m) P)
    (hf : ∀ a m₁, x.outcome m = (.ok a, m₁) → Accounts m₁ ((f a).outcome m₁) (R a m₁)) :
    Accounts m ((x >>= f).outcome m) (P ∧ ∀ a m₁, x.outcome m = (.ok a, m₁) → R a m₁) := by
  rw [outcome_bind]
  generalize x.outcome m = r at hx hf ⊢
  obtain ⟨i, hi, hp⟩ := hx
  obtain ⟨e | a, m₁⟩ := r
  · refine ⟨i, hi, fun hg => ?_⟩
    have hgo : GoesOn (Except.error e : Except Fault α) := fun e' he => hg e' (by cases he; rfl)
    simpa using hp hgo
  · obtain ⟨j, hj, hr⟩ := hf a m₁ rfl
    refine ⟨i + j, hi.trans hj, fun hg => ?_⟩
    have hgo : GoesOn (Except.ok a : Except Fault α) := fun e he => by cases he
    have hsum : i + j = 0 ↔ i = 0 ∧ j = 0 := by omega
    rw [hsum, hp hgo, hr hg]
    simp

def LeavesNone (ctx : Context) (site : Site) (text : String) (m : Machine) : Prop :=
  scopesLeft ctx site (Instruction.ofText text).operation m = 0

theorem accounts_traced (site : Site) (text : String) (m : Machine) :
    Accounts m ((traced ctx site text).outcome m) (LeavesNone ctx site text m) := by
  obtain ⟨rows, htraced⟩ := @outcome_traced ctx site text m
  have halike : m.AlikeBut [.executed, .visitedPcs, .fees] (ticked m) :=
    .of_replace (q := .executed) (by decide) m _
  have hcount : m.Changes 0 (ticked m) := ⟨.refl _, .refl _, Nat.le_refl _⟩
  rw [htraced, outcome_bind, outcome_tick]
  by_cases hd : ctx.deadline = some (m.shared.executed + 1)
  · rw [if_pos hd]
    exact ⟨0, ⟨.refl _, .refl _, Nat.le_refl _⟩, fun h => absurd (h .deadline rfl) (by decide)⟩
  · rw [if_neg hd]
    dsimp only
    have hstep := @leaves_step ctx site (.ofText text) (ticked m)
    rw [scopesLeft_of_alike halike] at hstep
    generalize (step ctx site (.ofText text)).outcome (ticked m) = o at hstep ⊢
    obtain ⟨hgraph, hsolver, hnames⟩ := hcount.zero_trans hstep
    exact ⟨_, ⟨hgraph, hsolver, hnames⟩, fun _ => Iff.rfl⟩

inductive Ran (ctx : Context) (site : Site) : List String → Machine → String → Machine → Prop
  | here {text : String} {rest : List String} {m : Machine} : Ran ctx site (text :: rest) m text m
  | there {first text : String} {rest : List String} {m m₁ m' : Machine}
      (h : Traces ctx site first m m₁) (hrest : Ran ctx site rest m₁ text m') :
      Ran ctx site (first :: rest) m text m'

theorem forall_ran_cons {first : String} {rest : List String} {P : String → Machine → Prop} :
    (∀ text m', Ran ctx site (first :: rest) m text m' → P text m') ↔
      P first m ∧ ∀ u m₁, (traced ctx site first).outcome m = (.ok u, m₁) →
        ∀ text m', Ran ctx site rest m₁ text m' → P text m' := by
  constructor
  · exact fun h => ⟨h _ _ .here, fun u m₁ ho text m' hr => h text m' (.there ho hr)⟩
  · rintro ⟨hfirst, hrest⟩ text m' (_ | ⟨ho, hr⟩)
    · exact hfirst
    · exact hrest _ _ ho text m' hr

theorem forall_ran {texts : List String} {P : Machine → Prop}
    (h : ∀ text m', Ran ctx site texts m text m' → P m' → P ((traced ctx site text).outcome m').2)
    (hm : P m) : (∀ text m', Ran ctx site texts m text m' → P m') ∧
    P ((runAll ctx site texts).outcome m).2 := by
  induction texts generalizing m with
  | nil => exact ⟨fun text m' hran => (by cases hran), hm⟩
  | cons text rest ih =>
    have hfirst := h text m .here hm
    rw [runAll, outcome_bind]
    rcases ho : (traced ctx site text).outcome m with ⟨e | u, m₁⟩ <;> rw [ho] at hfirst
    · refine ⟨forall_ran_cons.2 ⟨hm, fun u m₁ hok => ?_⟩, hfirst⟩
      rw [ho] at hok
      cases hok
    · obtain ⟨hall, hend⟩ := ih (fun text m' hran => h text m' (.there ho hran)) hfirst
      refine ⟨forall_ran_cons.2 ⟨hm, fun u m₂ hok => ?_⟩, hend⟩
      rw [ho] at hok
      cases hok
      exact hall

theorem runAll_of_ran {texts : List String} {text : String} {P : Machine → Prop}
    (h : ∀ text m', Ran ctx site texts m text m' → P m' → P ((traced ctx site text).outcome m').2)
    (hran : Ran ctx site texts m text m') (hbehind : P ((traced ctx site text).outcome m').2) :
    P ((runAll ctx site texts).outcome m).2 := by
  induction hran with
  | here =>
    rename_i text rest m
    rw [runAll, outcome_bind]
    rcases ho : (traced ctx site text).outcome m with ⟨e | u, m₁⟩ <;> rw [ho] at hbehind
    · exact hbehind
    · exact (forall_ran (fun text m' hran => h text m' (.there ho hran)) hbehind).2
  | there hfirst _ ih =>
    rw [runAll, outcome_bind, hfirst]
    exact ih (fun text m' hran => h text m' (.there hfirst hran)) hbehind

theorem ran_iff {texts : List String} {text : String} :
    Ran ctx site texts m text m' ↔ ∃ front back, texts = front ++ text :: back ∧
      (runAll ctx site front).outcome m = (.ok (), m') := by
  constructor
  · intro h
    induction h with
    | here => exact ⟨[], _, rfl, rfl⟩
    | @there first text rest m m₁ m' h hrest ih =>
      obtain ⟨front, back, rfl, hfront⟩ := ih
      refine ⟨first :: front, back, rfl, ?_⟩
      rw [runAll, outcome_bind, h]
      exact hfront
  · rintro ⟨front, back, rfl, hfront⟩
    induction front generalizing m with
    | nil =>
      cases hfront
      exact .here
    | cons first front ih =>
      rw [runAll] at hfront
      obtain ⟨_, m₁, hfirst, hfront⟩ := outcome_bind_eq_ok.1 hfront
      exact .there hfirst (ih hfront)

theorem runAll_append (front back : List String) :
    runAll ctx site (front ++ back) = (do runAll ctx site front; runAll ctx site back) := by
  induction front with
  | nil => rfl
  | cons text front ih => rw [List.cons_append, runAll, runAll, ih, bind_assoc]

theorem outcome_runAll_append {front : List String}
    (h : (runAll ctx site front).outcome m = (.ok (), m')) (back : List String) :
    (runAll ctx site (front ++ back)).outcome m = (runAll ctx site back).outcome m' := by
  rw [runAll_append, outcome_bind, h]

theorem runAll_append_ok {front back : List String}
    (h : (runAll ctx site (front ++ back)).outcome m = (.ok (), m')) :
    ∃ m₁, (runAll ctx site front).outcome m = (.ok (), m₁) ∧
    (runAll ctx site back).outcome m₁ = (.ok (), m') := by
  rw [runAll_append] at h
  obtain ⟨_, m₁, hfront, hback⟩ := outcome_bind_eq_ok.1 h
  exact ⟨m₁, hfront, hback⟩

theorem accounts_runAll (site : Site) (texts : List String) (m : Machine) :
    Accounts m ((runAll ctx site texts).outcome m)
      (∀ text m', Ran ctx site texts m text m' → LeavesNone ctx site text m') := by
  induction texts generalizing m with
  | nil =>
    refine ((tame_pure ()).accounts m).congr ⟨fun _ text m' h => ?_, fun _ => trivial⟩
    cases h
  | cons first rest ih =>
    rw [runAll]
    exact ((accounts_traced site first m).bind fun u m₁ _ => ih m₁).congr forall_ran_cons.symm

/-! ### Calls -/

def Runs (ctx : Context) (entries : Table Int String) (v : Visit) (m : Machine) (site : Site)
    (text : String) (m' : Machine) : Prop :=
  ∃ texts m₁, (enter ctx entries v).outcome m = (.ok (some (site, texts)), m₁) ∧
    Ran ctx site texts m₁ text m'

theorem accounts_visit (last : Bool) (v : Visit) (m : Machine) :
    Accounts m ((visit ctx entries last v).outcome m)
      (∀ site text m', Runs ctx entries v m site text m' → LeavesNone ctx site text m') := by
  have hrest (site : Site) (texts : List String) (m₁ : Machine) :
      Accounts m₁ ((do
          runAll ctx site texts
          record
          return (site, ← onward ctx v.previous site last)).outcome m₁)
        (∀ text m', Ran ctx site texts m₁ text m' → LeavesNone ctx site text m') := by
    have htame : Tame (do record; return (site, ← onward ctx v.previous site last)) :=
      tame_record.bind fun _ => (tame_onward v.previous site last).bind fun _ => tame_pure _
    exact ((accounts_runAll site texts m₁).bind fun _ m₂ _ => htame.accounts m₂).congr (by simp)
  refine (((tame_enter v).accounts m).bind (R := fun entered m₁ => ∀ site texts,
      entered = some (site, texts) → ∀ text m', Ran ctx site texts m₁ text m' →
      LeavesNone ctx site text m') ?_).congr ?_
  · intro entered m₁ _
    rcases entered with _ | ⟨site, texts⟩
    · exact ((tame_pure _).accounts m₁).congr (by simp)
    · refine (hrest site texts m₁).congr ⟨?_, fun h => h site texts rfl⟩
      rintro h _ _ ⟨⟩
      exact h
  · constructor
    · rintro ⟨-, h⟩ site text m' ⟨texts, m₁, ho, hr⟩
      exact h _ m₁ ho site texts rfl text m' hr
    · refine fun h => ⟨trivial, ?_⟩
      rintro _ m₁ ho site texts rfl text m' hr
      exact h site text m' ⟨texts, m₁, ho, hr⟩

/-- Turns to one side of a branch: where its condition cannot hold, there is no block to go on
with. -/
def approach (ctx : Context) (parent : Path) (c : Condition) (target : Except Fault Int) :
    Exec (Option Int) := do
  pushScope
  assertThat c
  takeSide ctx parent c target

def follow (ctx : Context) (parent : Path) (c : Condition) (target : Except Fault Int)
    (continue_ : Int → Exec Unit) : Exec Unit := do
  match ← takeSide ctx parent c target with
  | none => return
  | some next => continue_ next

theorem outcome_branch (parent : Path) (c : Condition) (target : Except Fault Int)
    (continue_ : Int → Exec Unit) (m : Machine) :
    (branch ctx parent c target continue_).outcome m =
      ((tryCatch (follow ctx parent c target continue_) fun cause => do
        if isFinal cause then throw cause) >>= fun _ => do
          modifyPath fun _ => parent
          popScope).outcome (m.withSolver (m.shared.solver.push.add c.formula)) := rfl

theorem outcome_approach (parent : Path) (c : Condition) (target : Except Fault Int) (m : Machine) :
    (approach ctx parent c target).outcome m =
      (takeSide ctx parent c target).outcome (m.withSolver (m.shared.solver.push.add c.formula)) :=
      rfl

theorem goesOn_of_caught {x : Exec Unit}
    (h : (tryCatch x fun cause => do if isFinal cause then throw cause).outcome m = (.ok (), m')) :
    GoesOn (x.outcome m).1 := by
  intro e he
  rw [outcome_tryCatch] at h
  generalize x.outcome m = r at h he
  obtain ⟨e' | _, m₁⟩ := r <;> cases he
  dsimp only at h
  cases hfinal : isFinal e with
  | false => rfl
  | true =>
    rw [hfinal] at h
    cases h

theorem isFinal_of_passed {x : Exec Unit} {e : Fault}
    (h : (tryCatch x fun cause => do if isFinal cause then throw cause).outcome m =
      (.error e, m')) : isFinal e = true := by
  rw [outcome_tryCatch] at h
  generalize x.outcome m = r at h
  obtain ⟨e' | _, m₁⟩ := r
  · dsimp only at h
    cases hfinal : isFinal e' with
    | false =>
      rw [hfinal] at h
      cases h
    | true =>
      rw [hfinal] at h
      cases h
      exact hfinal
  · cases h

theorem machine_caught (x : Exec Unit) (m : Machine) :
    ((tryCatch x fun cause => do if isFinal cause then throw cause).outcome m).2 =
      (x.outcome m).2 := by
  rw [outcome_tryCatch]
  generalize x.outcome m = r
  obtain ⟨e | _, m₁⟩ := r
  · dsimp only
    cases isFinal e <;> rfl
  · rfl

theorem approach_end (parent : Path) (c : Condition) (target : Except Fault Int) (m : Machine) :
    ∃ s p, ((approach ctx parent c target).outcome m).2 = { m.withSolver s with path := p } := by
  rw [outcome_approach, takeSide, outcome_bind, outcome_verdict]
  dsimp only
  split
  · exact ⟨_, _, rfl⟩
  · cases target with
    | error e => exact ⟨_, _, rfl⟩
    | ok next => exact ⟨_, _, rfl⟩

theorem path_approach {parent : Path} {c : Condition} {target : Except Fault Int} {m m' : Machine}
    {next : Int} (h : (approach ctx parent c target).outcome m = (.ok (some next), m')) :
    m'.path = { parent with
      world := { parent.world with pc := next }
      conditions := parent.conditions ++ [c]
      analysis := { parent.analysis with
        conditionPcs := parent.analysis.conditionPcs.insert
          parent.conditions.length parent.world.pc } } := by
  rw [outcome_approach, takeSide, outcome_bind, outcome_verdict] at h
  dsimp only at h
  split at h
  · cases h
  · cases target with
    | error e => cases h
    | ok n =>
      cases h
      have hlength : (parent.conditions ++ [c]).length - 1 = parent.conditions.length := by simp
      change ({ parent with
        world := { parent.world with pc := next }
        conditions := parent.conditions ++ [c]
        analysis := { parent.analysis with
          conditionPcs := parent.analysis.conditionPcs.insert
            ((parent.conditions ++ [c]).length - 1) parent.world.pc } } : Path) = _
      rw [hlength]

def sideEnd (ctx : Context) (parent : Path) (c : Condition) (target : Except Fault Int)
    (continue_ : Int → Exec Unit) (m : Machine) : Machine :=
  match (approach ctx parent c target).outcome m with
  | (.ok (some next), m') => ((continue_ next).outcome m').2
  | (_, m') => m'

theorem branch_end (parent : Path) (c : Condition) (target : Except Fault Int)
    (continue_ : Int → Exec Unit) (m : Machine) :
    ∃ s p, ((branch ctx parent c target continue_).outcome m).2 =
        { (sideEnd ctx parent c target continue_ m).withSolver s with path := p } ∧
      (((branch ctx parent c target continue_).outcome m).1 = .ok () → p = parent ∧
        (sideEnd ctx parent c target continue_ m).shared.solver.pop? = some s) := by
  let m₂ := m.withSolver (m.shared.solver.push.add c.formula)
  have hfollow : ((follow ctx parent c target continue_).outcome m₂).2 =
      sideEnd ctx parent c target continue_ m := by
    rw [sideEnd, outcome_approach, follow, outcome_bind]
    generalize (takeSide ctx parent c target).outcome m₂ = o
    obtain ⟨e | _ | next, m'⟩ := o <;> rfl
  have hcaught := machine_caught (follow ctx parent c target continue_) m₂
  rw [hfollow] at hcaught
  rw [outcome_branch, outcome_bind]
  generalize (tryCatch (follow ctx parent c target continue_) fun cause => do
    if isFinal cause then throw cause).outcome m₂ = o at hcaught ⊢
  obtain ⟨e | u, m₃⟩ := o <;> cases hcaught
  · exact ⟨_, _, rfl, fun h => by cases h⟩
  · dsimp only
    rw [outcome_bind, outcome_modifyPath]
    dsimp only
    rw [popScope, outcome_bind_getShared]
    split
    next s hs =>
      exact ⟨s, parent, rfl, fun _ => ⟨rfl, hs⟩⟩
    · exact ⟨_, _, rfl, fun h => by cases h⟩

theorem path_branch {parent : Path} {c : Condition} {target : Except Fault Int}
    {continue_ : Int → Exec Unit} {m m' : Machine}
    (h : (branch ctx parent c target continue_).outcome m = (.ok (), m')) : m'.path = parent := by
  obtain ⟨s, p, hend, hp⟩ := @branch_end ctx parent c target continue_ m
  rw [h] at hend hp
  rw [show m' = _ from hend]
  exact (hp rfl).1

theorem branch_invariant {parent : Path} {c : Condition} {target : Except Fault Int}
    {continue_ : Int → Exec Unit} {P : Machine → Prop} {m : Machine}
    (hkeep : ∀ m s p, P m → P { m.withSolver s with path := p }) (hm : P m)
    (hk : ∀ next m', (approach ctx parent c target).outcome m = (.ok (some next), m') → P m' →
      P ((continue_ next).outcome m').2) :
    P ((branch ctx parent c target continue_).outcome m).2 := by
  obtain ⟨s, p, hend, -⟩ := @branch_end ctx parent c target continue_ m
  obtain ⟨s', p', happroach⟩ := @approach_end ctx parent c target m
  have hturned : P ((approach ctx parent c target).outcome m).2 := happroach ▸ hkeep m s' p' hm
  rw [hend]
  refine hkeep _ s p ?_
  rw [sideEnd]
  rcases ho : (approach ctx parent c target).outcome m with ⟨e | _ | next, m'⟩ <;>
    rw [ho] at hturned
  · exact hturned
  · exact hturned
  · exact hk next m' ho hturned

theorem accounts_branch {parent : Path} {c : Condition} {target : Except Fault Int}
    {continue_ : Int → Exec Unit} {R : Int → Machine → Prop} {m : Machine}
    (hk : ∀ next m', (approach ctx parent c target).outcome m = (.ok (some next), m') →
      Accounts m' ((continue_ next).outcome m') (R next m')) :
    ∃ n, m.Changes n ((branch ctx parent c target continue_).outcome m).2 ∧
      (GoesOn ((branch ctx parent c target continue_).outcome m).1 →
        (n = 0 ↔ ∀ next m', (approach ctx parent c target).outcome m = (.ok (some next), m') →
          R next m') ∧
        (n = 0 → ((branch ctx parent c target continue_).outcome m).2.shared.solver.frames =
          m.shared.solver.frames) ∧ ((branch ctx parent c target continue_).outcome m).1 =
            .ok ()) := by
  let m₂ := m.withSolver (m.shared.solver.push.add c.formula)
  let body := follow ctx parent c target continue_
  have hbody : Accounts m₂ (body.outcome m₂)
      (∀ next m', (approach ctx parent c target).outcome m = (.ok (some next), m') →
        R next m') := by
    refine (((tame_takeSide parent c target).accounts m₂).bind (R := fun side m' =>
      ∀ next, side = some next → R next m') ?_).congr ?_
    · intro side m' ho
      cases side with
      | none => exact ((tame_pure ()).accounts m').congr (by simp)
      | some next =>
        exact (hk next m' ho).congr ⟨fun h _ he => by cases he; exact h, fun h => h next rfl⟩
    · exact ⟨fun h next m' ho => h.2 _ m' ho next rfl,
        fun h => ⟨trivial, fun side m' ho next he => h next m' (he ▸ ho)⟩⟩
  obtain ⟨n, hn, hiff⟩ := hbody
  have hopen : m.Changes 1 m₂ :=
    .of_solver ((Solver.Left.push m.shared.solver).trans (Solver.Left.add c.formula _))
  replace hn : m₂.Changes n ((tryCatch body fun cause => do
      if isFinal cause then throw cause).outcome m₂).2 :=
    Tame.handling (fun e => touches_ite (touches_throw e) (tame_pure ())) hn
  rw [outcome_branch, outcome_bind]
  rcases ho : (tryCatch body fun cause => do if isFinal cause then throw cause).outcome m₂ with
    ⟨e | _, m₃⟩ <;> rw [ho] at hn
  · refine ⟨1 + n, hopen.trans hn, fun hg => ?_⟩
    have hfinal := isFinal_of_passed ho
    rw [hg e rfl] at hfinal
    cases hfinal
  · obtain ⟨s, hpop, hleft, hframes⟩ := hn.solver.close
    have hend : (do modifyPath fun _ => parent; popScope).outcome m₃ =
        (.ok (), Machine.withSolver { m₃ with path := parent } s) := by
      rw [outcome_bind, outcome_modifyPath]
      exact outcome_popScope (m := { m₃ with path := parent }) hpop
    dsimp only
    rw [hend]
    exact ⟨n, ⟨hopen.graph.trans hn.graph, hleft, Nat.le_trans hopen.names hn.names⟩,
      fun _ => ⟨hiff (goesOn_of_caught ho), fun h => (if_pos h).mp hframes, rfl⟩⟩

/-- Explores on from a block, by the depth that is left below it. -/
def explore (ctx : Context) (entries : Table Int String) : Nat → Visit → Exec Unit
  | 0, v => do
    let _ ← visit ctx entries true v
  | remaining + 1, v => do
    let (site, onward) ← visit ctx entries false v
    match onward with
    | .stop => return
    | .go next => explore ctx entries remaining next
    | .fork c b =>
      let parent ← getPath
      let side (next : Int) : Exec Unit :=
        explore ctx entries remaining ⟨next, v.block, v.caller, site.function⟩
      branch ctx parent c (.ok b.targetAddress) side
      branch ctx parent (.symbolic c.not) b.getFallsTo side
      leaveEdge v.previous v.block

theorem exploreFrom_eq (ctx : Context) (entries : Table Int String) (depth : Int) (v : Visit) :
    exploreFrom ctx entries depth v =
      explore ctx entries (ctx.settings.depthLimit - depth).toNat v := by
  induction hleft : (ctx.settings.depthLimit - depth).toNat generalizing depth v with
  | zero =>
    rw [exploreFrom, if_pos (by omega)]
    rfl
  | succ remaining ih =>
    have hbelow (v : Visit) :
        exploreFrom ctx entries (depth + 1) v = explore ctx entries remaining v :=
      ih (depth + 1) v (by omega)
    rw [exploreFrom, if_neg (by omega)]
    simp only [hbelow]
    rfl

/-- A visit of a block in a state, with the depth that is left below it. -/
structure Call where
  remaining : Nat
  visit : Visit
  machine : Machine

def Completes (ctx : Context) (entries : Table Int String) (c : Call) (m : Machine) : Prop :=
  ∃ site texts m₁, (enter ctx entries c.visit).outcome c.machine = (.ok (some (site, texts)), m₁) ∧
    (runAll ctx site texts).outcome m₁ = (.ok (), m)

/-- The first call of an exploration of a graph. -/
structure Begins (ctx : Context) (g : Graph) (entries : Table Int String) (c : Call) : Prop where
  started : (start ctx).outcome { shared := { graph := g } } = (.ok (), c.machine)
  entries : (match ctx.source with
    | none => .ok {}
    | some _ => c.machine.shared.graph.signatures : Except Fault (Table Int String)) = .ok entries
  visit : c.visit = ⟨0, 0, -1, "fallback"⟩
  remaining : c.remaining = ctx.settings.depthLimit.toNat

/-- Whatever is asked has a model. -/
def affirming : Context where
  decide := fun _ => .sat []

def Call.first (ctx : Context) (g : Graph) : Call where
  remaining := ctx.settings.depthLimit.toNat
  visit := ⟨0, 0, -1, "fallback"⟩
  machine := ((start ctx).outcome { shared := { graph := g } }).2

theorem begins_unsourced {g g' : Graph} (hg : g = g') (hsource : ctx.source = none)
    (hstart : ((start ctx).outcome { shared := { graph := g' } }).1.isOk = true) :
    Begins ctx g {} (.first ctx g') := by
  subst hg
  exact ⟨outcome_eq_of_isOk hstart, by rw [hsource], rfl, rfl⟩

theorem Begins.outcome_exploreAll {g : Graph} (h : Begins ctx g entries c) :
    (exploreAll ctx).outcome { shared := { graph := g } } =
      (explore ctx entries c.remaining c.visit).outcome c.machine := by
  rw [exploreAll, outcome_bind, h.started, h.visit, h.remaining]
  simp only [exploreFrom_eq, Int.sub_zero]
  have hentries := h.entries
  cases hsource : ctx.source with
  | none =>
    rw [hsource] at hentries
    cases hentries
    rfl
  | some map =>
    rw [hsource] at hentries
    dsimp only at hentries
    rw [outcome_bind_getShared, outcome_bind, outcome_ofExcept, hentries]

def sideOf (v : Visit) (site : Site) (next : Int) : Visit :=
  ⟨next, v.block, v.caller, site.function⟩

/-- The exploration of a side of the jump in which a visit has ended. -/
abbrev side (ctx : Context) (entries : Table Int String) (remaining : Nat) (v : Visit)
    (site : Site) : Int → Exec Unit :=
  fun next => explore ctx entries remaining (sideOf v site next)

/-- The visit `v` from `m` ends in `m₁`, at a jump of `b` on the condition `c`. -/
abbrev Forks (ctx : Context) (entries : Table Int String) (v : Visit) (m : Machine) (site : Site)
    (c : Condition) (b : Block) (m₁ : Machine) : Prop :=
  (visit ctx entries false v).outcome m = (.ok (site, .fork c b), m₁)

/-- What follows a call: the one block that control goes to, the target of a jump whose condition
can hold, or, when all that has been explored, the block behind the jump. -/
inductive Next (ctx : Context) (entries : Table Int String) : Call → Call → Prop
  | go {remaining : Nat} {v next : Visit} {m m₁ : Machine} {site : Site}
      (hv : (visit ctx entries false v).outcome m = (.ok (site, .go next), m₁)) :
      Next ctx entries ⟨remaining + 1, v, m⟩ ⟨remaining, next, m₁⟩
  | target {remaining : Nat} {v : Visit} {m m₁ m₂ : Machine} {site : Site} {c : Condition}
      {b : Block} {next : Int}
      (hv : Forks ctx entries v m site c b m₁)
      (ht : (approach ctx m₁.path c (.ok b.targetAddress)).outcome m₁ = (.ok (some next), m₂)) :
      Next ctx entries ⟨remaining + 1, v, m⟩ ⟨remaining, sideOf v site next, m₂⟩
  | fall {remaining : Nat} {v : Visit} {m m₁ m₂ m₃ : Machine} {site : Site} {c : Condition}
      {b : Block} {next : Int}
      (hv : Forks ctx entries v m site c b m₁)
      (ht : (branch ctx m₁.path c (.ok b.targetAddress) fun next =>
        explore ctx entries remaining (sideOf v site next)).outcome m₁ = (.ok (), m₂))
      (hf : (approach ctx m₁.path (.symbolic c.not) b.getFallsTo).outcome m₂ =
        (.ok (some next), m₃)) :
      Next ctx entries ⟨remaining + 1, v, m⟩ ⟨remaining, sideOf v site next, m₃⟩

abbrev Reaches (ctx : Context) (entries : Table Int String) : Call → Call → Prop :=
  Relation.ReflTransGen (Next ctx entries)

theorem Next.inv {onward : Onward} {c' : Call}
    (hv : (visit ctx entries false v).outcome m = (.ok (site, onward), m₁))
    (h : Next ctx entries ⟨remaining + 1, v, m⟩ c') :
    match onward with
    | .stop => False
    | .go next => c' = ⟨remaining, next, m₁⟩
    | .fork c b =>
      (∃ next m₂, (approach ctx m₁.path c (.ok b.targetAddress)).outcome m₁ =
          (.ok (some next), m₂) ∧ c' = ⟨remaining, sideOf v site next, m₂⟩) ∨
      ∃ next m₂ m₃,
        (branch ctx m₁.path c (.ok b.targetAddress) (side ctx entries remaining v site)).outcome
          m₁ = (.ok (), m₂) ∧
        (approach ctx m₁.path (.symbolic c.not) b.getFallsTo).outcome m₂ = (.ok (some next), m₃) ∧
        c' = ⟨remaining, sideOf v site next, m₃⟩ := by
  cases h with
  | go hv' =>
    cases hv.symm.trans hv'
    rfl
  | target hv' ht =>
    cases hv.symm.trans hv'
    exact Or.inl ⟨_, _, ht, rfl⟩
  | fall hv' ht hf =>
    cases hv.symm.trans hv'
    exact Or.inr ⟨_, _, _, ht, hf, rfl⟩

def ahead? (ctx : Context) (entries : Table Int String) : Call → Option Call
  | ⟨0, _, _⟩ => none
  | ⟨remaining + 1, v, m⟩ =>
    match (visit ctx entries false v).outcome m with
    | (.ok (_, .go next), m₁) => some ⟨remaining, next, m₁⟩
    | _ => none

theorem ahead_some {c d : Call} (h : ahead? ctx entries c = some d) :
    ∃ v m site, c = ⟨d.remaining + 1, v, m⟩ ∧
      (visit ctx entries false v).outcome m = (.ok (site, .go d.visit), d.machine) := by
  unfold ahead? at h
  split at h
  · cases h
  · split at h
    · cases h
      exact ⟨_, _, _, rfl, ‹_›⟩
    · cases h

theorem next_iff_of_ahead {c d d' : Call} (h : ahead? ctx entries c = some d) :
    Next ctx entries c d' ↔ d' = d := by
  obtain ⟨v, m, site, rfl, hv⟩ := ahead_some h
  constructor
  · exact fun hnext => hnext.inv hv
  · rintro rfl
    exact .go hv

def Below (ctx : Context) (entries : Table Int String) (P : Site → String → Machine → Prop)
    (c : Call) : Prop :=
  ∀ c', Relation.ReflTransGen (Next ctx entries) c c' → ∀ site text m,
    Runs ctx entries c'.visit c'.machine site text m → P site text m

theorem below_iff {P : Site → String → Machine → Prop} :
    Below ctx entries P c ↔
      (∀ site text m, Runs ctx entries c.visit c.machine site text m → P site text m) ∧
      ∀ c', Next ctx entries c c' → Below ctx entries P c' := by
  constructor
  · exact fun h => ⟨h c .refl, fun c' hc d hd => h d (.head hc hd)⟩
  · rintro ⟨hself, hnext⟩ d hd
    rcases hd.cases_head with rfl | ⟨c', hc, hd⟩
    · exact hself
    · exact hnext c' hc d hd

def ClosedBelow (ctx : Context) (entries : Table Int String) (c : Call) : Prop :=
  Below ctx entries (LeavesNone ctx) c

theorem closedBelow_iff :
    ClosedBelow ctx entries c ↔
      (∀ site text m, Runs ctx entries c.visit c.machine site text m → LeavesNone ctx site text m) ∧
      ∀ c', Next ctx entries c c' → ClosedBelow ctx entries c' := below_iff

theorem accounts_fork {c : Condition} {b : Block} (hv : Forks ctx entries v m site c b m₁)
    (ih : ∀ v m, Accounts m ((explore ctx entries remaining v).outcome m)
      (ClosedBelow ctx entries ⟨remaining, v, m⟩)) :
    Accounts m₁ ((do
        let parent ← getPath
        let side (next : Int) : Exec Unit := explore ctx entries remaining (sideOf v site next)
        branch ctx parent c (.ok b.targetAddress) side
        branch ctx parent (.symbolic c.not) b.getFallsTo side
        leaveEdge v.previous v.block).outcome m₁)
      (∀ c', Next ctx entries ⟨remaining + 1, v, m⟩ c' → ClosedBelow ctx entries c') := by
  have hside (c : Condition) (target : Except Fault Int) (m₁ : Machine) (parent : Path) :
      Accounts m₁ ((branch ctx parent c target (side ctx entries remaining v site)).outcome m₁)
        (∀ next m', (approach ctx parent c target).outcome m₁ = (.ok (some next), m') →
          ClosedBelow ctx entries ⟨remaining, sideOf v site next, m'⟩) := by
    obtain ⟨n, hn, h⟩ := @accounts_branch ctx parent c target
      (side ctx entries remaining v site)
      (fun next m' => ClosedBelow ctx entries ⟨remaining, sideOf v site next, m'⟩) m₁
      fun next m' _ => ih (sideOf v site next) m'
    exact ⟨n, hn, fun hg => (h hg).1⟩
  rw [outcome_bind_getPath]
  refine ((hside c (.ok b.targetAddress) m₁ m₁.path).bind fun _ m₂ _ =>
    (hside (.symbolic c.not) b.getFallsTo m₂ m₁.path).bind fun _ m₃ _ =>
      (tame_leaveEdge v.previous v.block).accounts m₃).congr ⟨?_, ?_⟩
  · rintro ⟨htarget, hfall⟩ c' hc
    rcases hc.inv hv with ⟨next, m₂, ht, rfl⟩ | ⟨next, m₂, m₃, ht, hf, rfl⟩
    · exact htarget _ _ ht
    · exact (hfall _ _ ht).1 _ _ hf
  · exact fun h => ⟨fun next m' ho => h _ (.target hv ho),
      fun _ m₂ ho => ⟨fun next m' hf => h _ (.fall hv ho hf), fun _ _ _ => trivial⟩⟩

theorem accounts_explore (remaining : Nat) (v : Visit) (m : Machine) :
    Accounts m ((explore ctx entries remaining v).outcome m)
    (ClosedBelow ctx entries ⟨remaining, v, m⟩) := by
  induction remaining generalizing v m with
  | zero =>
    rw [explore]
    refine ((accounts_visit true v m).bind fun _ m₁ _ => (tame_pure ()).accounts m₁).congr ?_
    rw [closedBelow_iff]
    refine and_congr_right fun _ => ⟨fun _ c' hc => ?_, fun _ _ _ _ => trivial⟩
    cases hc
  | succ remaining ih =>
    rw [explore, closedBelow_iff]
    refine ((accounts_visit false v m).bind (R := fun _ _ =>
      ∀ c', Next ctx entries ⟨remaining + 1, v, m⟩ c' → ClosedBelow ctx entries c') ?_).congr ?_
    · rintro ⟨site, onward⟩ m₁ hv
      cases onward with
      | stop =>
        exact ((tame_pure ()).accounts m₁).congr
          ⟨fun _ c' hc => (hc.inv hv).elim, fun _ => trivial⟩
      | go next =>
        refine (ih next m₁).congr ⟨fun h c' hc => ?_, fun h => h _ (.go hv)⟩
        obtain rfl := hc.inv hv
        exact h
      | fork c b => exact accounts_fork hv ih
    · refine and_congr_right fun _ => ⟨fun h c' hc => ?_, fun h _ _ _ => h⟩
      cases hc with
      | go hv => exact h _ _ hv _ (.go hv)
      | target hv ht => exact h _ _ hv _ (.target hv ht)
      | fall hv ht hf => exact h _ _ hv _ (.fall hv ht hf)

theorem changes_visit {last : Bool} {r : Except Fault (Site × Onward)}
    (h : (visit ctx entries last v).outcome m = (r, m')) : ∃ n, m.Changes n m' := by
  obtain ⟨n, hchanges, -⟩ := @accounts_visit ctx entries last v m
  rw [h] at hchanges
  exact ⟨n, hchanges⟩

theorem changes_side {c : Condition} {target : Except Fault Int} {parent : Path}
    {r : Except Fault Unit}
    (h : (branch ctx parent c target (side ctx entries remaining v site)).outcome m = (r, m')) :
    ∃ n, m.Changes n m' := by
  obtain ⟨n, hchanges, -⟩ := @accounts_branch ctx parent c target
    (side ctx entries remaining v site)
    (fun next m₁ => ClosedBelow ctx entries ⟨remaining, sideOf v site next, m₁⟩) m
    fun next m₁ _ => accounts_explore remaining (sideOf v site next) m₁
  rw [h] at hchanges
  exact ⟨n, hchanges⟩

end EvmAudit.Exec
