import EvmAudit.Proofs.Explore.Edges
import EvmAudit.Proofs.Machine.Ledger

/-! The states that an exploration goes through, and what becomes of the ledger on the way: the
instructions of a block add to it, and the rest of a call only records. -/

namespace EvmAudit.Exec

variable {ctx : Context} {entries : Table Int String}

/-! ### The end of a call -/

def Call.ending (ctx : Context) (entries : Table Int String) (c : Call) : Machine :=
  ((explore ctx entries c.remaining c.visit).outcome c.machine).2

theorem Begins.ending_eq {g : Graph} {root : Call} (h : Begins ctx g entries root) :
    ((exploreAll ctx).outcome { shared := { graph := g } }).2 = root.ending ctx entries := by
  rw [h.outcome_exploreAll, Call.ending]

theorem Next.remaining {c d : Call} (h : Next ctx entries c d) : c.remaining = d.remaining + 1 := by
  cases h <;> rfl

/-- A call ends with its block, with the one call that follows it, or at a fork: with the first side
if that is fatal, and else with the second one. -/
theorem ending_induction {Q : Call → Machine → Prop}
    (left : ∀ remaining v m,
      Q ⟨remaining, v, m⟩ ((visit ctx entries (remaining == 0) v).outcome m).2)
    (go : ∀ {remaining v next m m₁ site},
      (visit ctx entries false v).outcome m = (.ok (site, .go next), m₁) →
        Q ⟨remaining, next, m₁⟩ (Call.ending ctx entries ⟨remaining, next, m₁⟩) →
          Q ⟨remaining + 1, v, m⟩ (Call.ending ctx entries ⟨remaining, next, m₁⟩))
    (target : ∀ {remaining v m m₁ m₂ site c b e}, Forks ctx entries v m site c b m₁ →
      (branch ctx m₁.path c (.ok b.targetAddress) (side ctx entries remaining v site)).outcome m₁ =
        (.error e, m₂) →
      (∀ d, Next ctx entries ⟨remaining + 1, v, m⟩ d → Q d (Call.ending ctx entries d)) →
      Q ⟨remaining + 1, v, m⟩ m₂)
    (fall : ∀ {remaining v m m₁ m₂ site c b}, Forks ctx entries v m site c b m₁ →
      (branch ctx m₁.path c (.ok b.targetAddress) (side ctx entries remaining v site)).outcome m₁ =
        (.ok (), m₂) →
      (∀ d, Next ctx entries ⟨remaining + 1, v, m⟩ d → Q d (Call.ending ctx entries d)) →
      Q ⟨remaining + 1, v, m⟩
        ((branch ctx m₁.path (.symbolic c.not) b.getFallsTo
          (side ctx entries remaining v site)).outcome m₂).2)
    (edges : ∀ c m counts, Q c m →
      Q c { m with shared := { m.shared with visitedEdges := counts } })
    (c : Call) : Q c (Call.ending ctx entries c) := by
  obtain ⟨remaining, v, m⟩ := c
  induction remaining generalizing v m with
  | zero =>
    have hleft : Q ⟨0, v, m⟩ ((visit ctx entries true v).outcome m).2 := left 0 v m
    rw [Call.ending, explore, outcome_bind]
    generalize (visit ctx entries true v).outcome m = o at hleft ⊢
    obtain ⟨e | r, m₁⟩ := o <;> exact hleft
  | succ remaining ih =>
    have hbelow (d : Call) (h : Next ctx entries ⟨remaining + 1, v, m⟩ d) :
        Q d (Call.ending ctx entries d) := by
      obtain ⟨r, v', m'⟩ := d
      obtain rfl : remaining = r := Nat.succ.inj h.remaining
      exact ih v' m'
    have hleft : Q ⟨remaining + 1, v, m⟩ ((visit ctx entries false v).outcome m).2 :=
      left (remaining + 1) v m
    rcases hv : (visit ctx entries false v).outcome m with ⟨e | ⟨site, _ | next | ⟨c, b⟩⟩, m₁⟩ <;>
      rw [hv] at hleft
    · rwa [Call.ending, explore, outcome_bind, hv]
    · rwa [Call.ending, explore, outcome_bind, hv]
    · have hgo := go hv (ih next m₁)
      rwa [Call.ending, explore, outcome_bind, hv]
    · rw [Call.ending, explore_fork hv, outcome_bind, outcome_bind]
      rcases ht : (branch ctx m₁.path c (.ok b.targetAddress)
        (side ctx entries remaining v site)).outcome m₁ with ⟨e | u, m₂⟩
      · exact target hv ht hbelow
      · have hfall := fall hv ht hbelow
        dsimp only
        generalize (branch ctx m₁.path (.symbolic c.not) b.getFallsTo
          (side ctx entries remaining v site)).outcome m₂ = o at hfall ⊢
        -- only after a second side that is not fatal is the edge counted down
        obtain ⟨e | u, m₃⟩ := o
        · exact hfall
        · exact edges _ _ _ hfall

/-! ### States on the way -/

theorem entered_of_onward {v : Visit} {last : Bool} {m m₁ : Machine} {site : Site} {o : Onward}
    (hv : (visit ctx entries last v).outcome m = (.ok (site, o), m₁)) (h : o ≠ .stop) :
    ∃ texts m' m₂ m₃, (enter ctx entries v).outcome m = (.ok (some (site, texts)), m') ∧
      (runAll ctx site texts).outcome m' = (.ok (), m₂) ∧ m₃.path = m₂.path ∧
      m₃.shared.graph = m₂.shared.graph ∧
      (onward ctx v.previous site last).outcome m₃ = (.ok o, m₁) := by
  obtain ⟨entered, m', henter, hrest⟩ := outcome_bind_eq_ok.1 hv
  rcases entered with _ | ⟨site', texts⟩
  · cases hrest
    exact absurd rfl h
  · obtain ⟨_, m₂, hrun, hrest⟩ := outcome_bind_eq_ok.1 hrest
    obtain ⟨_, m₃, hrecord, hrest⟩ := outcome_bind_eq_ok.1 hrest
    obtain ⟨_, m₄, honward, hrest⟩ := outcome_bind_eq_ok.1 hrest
    cases hrest
    obtain ⟨m₃', hrecord', hpath, hgraph, -⟩ := outcome_record m₂
    rw [hrecord'] at hrecord
    cases hrecord
    exact ⟨texts, m', m₂, m₃, henter, hrun, hpath, hgraph, honward⟩

theorem getFallsTo_eq_ok {b : Block} {next : Int} : b.getFallsTo = .ok next ↔
    b.fallsTo = some next := by
  unfold Block.getFallsTo
  cases b.fallsTo <;> simp

theorem onward_ok {previous : Int} {site : Site} {m m' : Machine} {o : Onward}
    (h : (onward ctx previous site false).outcome m = (.ok o, m')) :
    match o with
    | .stop => True
    | .go next => ∃ b, m.shared.graph.blocks.get? site.block = some b ∧
        m'.path = { m.path with world := { m.path.world with pc := next.block } } ∧
        (m.shared.graph.endings.get? site.block = some .unconditional ∧
          next.block = b.targetAddress ∨
          m.shared.graph.endings.get? site.block = some .fallsTo ∧ b.fallsTo = some next.block)
    | .fork c b => m' = m ∧ m.shared.graph.blocks.get? site.block = some b ∧
        m.shared.graph.endings.get? site.block = some .conditional ∧
        ∃ found, b.branch = some found ∧ found.asCondition = .ok c := by
  rw [onward, outcome_bind_getShared] at h
  dsimp only at h
  split at h
  · cases h
  · cases h
  · obtain ⟨_, m₁, -, h⟩ := outcome_bind_eq_ok.1 h
    cases h
    trivial
  · obtain ⟨_, m₁, -, h⟩ := outcome_bind_eq_ok.1 h
    cases h
    trivial
  next b he hb _ =>
    obtain ⟨caller, m₁, hcaller, hgo⟩ := outcome_bind_eq_ok.1 h
    obtain rfl : m₁ = m := by
      have hm := @within_callerAfter ctx (Stays id) _ site.caller m
      rwa [hcaller] at hm
    cases hgo
    exact ⟨b, hb, rfl, .inl ⟨he, rfl⟩⟩
  next b he hb _ =>
    obtain ⟨next, hnext, h⟩ := outcome_ofExcept_bind_eq_ok.1 h
    cases h
    exact ⟨b, hb, rfl, .inr ⟨he, getFallsTo_eq_ok.1 hnext⟩⟩
  next b he hb _ =>
    obtain ⟨c, hc, h⟩ := outcome_ofExcept_bind_eq_ok.1 h
    cases h
    refine ⟨rfl, hb, he, ?_⟩
    rw [Block.getBranch] at hc
    cases hbranch : b.branch with
    | none =>
      rw [hbranch] at hc
      cases hc
    | some found =>
      rw [hbranch] at hc
      exact ⟨found, rfl, hc⟩
  · obtain ⟨_, m₁, -, h⟩ := outcome_bind_eq_ok.1 h
    cases h

/-- A state that the exploration of a call goes through: at the call and when its block is entered,
before and after every instruction, when the block is left, at both sides of a branch and when they
are done, and when the call is over. -/
inductive Moment (ctx : Context) (entries : Table Int String) : Call → Machine → Prop
  | called (c : Call) : Moment ctx entries c c.machine
  | entered (c : Call) : Moment ctx entries c ((enter ctx entries c.visit).outcome c.machine).2
  | before {c : Call} {site : Site} {text : String} {m : Machine}
      (h : Runs ctx entries c.visit c.machine site text m) : Moment ctx entries c m
  | after {c : Call} {site : Site} {text : String} {m : Machine}
      (h : Runs ctx entries c.visit c.machine site text m) :
      Moment ctx entries c ((traced ctx site text).outcome m).2
  | left (c : Call) :
      Moment ctx entries c ((visit ctx entries (c.remaining == 0) c.visit).outcome c.machine).2
  | turned {remaining : Nat} {v : Visit} {m m₁ : Machine} {site : Site} {c : Condition} {b : Block}
      (hv : Forks ctx entries v m site c b m₁) :
      Moment ctx entries ⟨remaining + 1, v, m⟩
        ((approach ctx m₁.path c (.ok b.targetAddress)).outcome m₁).2
  | returned {remaining : Nat} {v : Visit} {m m₁ : Machine} {site : Site} {c : Condition}
      {b : Block} (hv : Forks ctx entries v m site c b m₁) :
      Moment ctx entries ⟨remaining + 1, v, m⟩
        ((branch ctx m₁.path c (.ok b.targetAddress) fun next =>
          explore ctx entries remaining (sideOf v site next)).outcome m₁).2
  | turnedBehind {remaining : Nat} {v : Visit} {m m₁ m₂ : Machine} {site : Site} {c : Condition}
      {b : Block} (hv : Forks ctx entries v m site c b m₁)
      (ht : (branch ctx m₁.path c (.ok b.targetAddress) fun next =>
        explore ctx entries remaining (sideOf v site next)).outcome m₁ = (.ok (), m₂)) :
      Moment ctx entries ⟨remaining + 1, v, m⟩
        ((approach ctx m₁.path (.symbolic c.not) b.getFallsTo).outcome m₂).2
  | returnedBehind {remaining : Nat} {v : Visit} {m m₁ m₂ : Machine} {site : Site} {c : Condition}
      {b : Block} (hv : Forks ctx entries v m site c b m₁)
      (ht : (branch ctx m₁.path c (.ok b.targetAddress) fun next =>
        explore ctx entries remaining (sideOf v site next)).outcome m₁ = (.ok (), m₂)) :
      Moment ctx entries ⟨remaining + 1, v, m⟩
        ((branch ctx m₁.path (.symbolic c.not) b.getFallsTo fun next =>
          explore ctx entries remaining (sideOf v site next)).outcome m₂).2
  | ended (c : Call) :
      Moment ctx entries c ((explore ctx entries c.remaining c.visit).outcome c.machine).2

theorem Next.moment {c d : Call} (h : Next ctx entries c d) : Moment ctx entries c d.machine := by
  cases h with
  | @go remaining v v' m m' site hv =>
    have hleft : Moment ctx entries ⟨remaining + 1, v, m⟩
        ((visit ctx entries false v).outcome m).2 :=
      .left ⟨remaining + 1, v, m⟩
    rwa [hv] at hleft
  | @target remaining v m m₁ m₂ site c b next hv ht =>
    have hturned : Moment ctx entries ⟨remaining + 1, v, m⟩ _ := .turned hv
    rwa [ht] at hturned
  | @fall remaining v m m₁ m₂ m₃ site c b next hv ht hf =>
    have hturned : Moment ctx entries ⟨remaining + 1, v, m⟩ _ := .turnedBehind hv ht
    rwa [hf] at hturned

/-! ### The ledger on the way -/

theorem steady_enter (v : Visit) : Steady (enter ctx entries v) :=
  steady_of_touches (touches_enter entries v) (by decide)

theorem steady_onward (previous : Int) (site : Site) (last : Bool) :
    Steady (onward ctx previous site last) :=
  have : Permits (Stays Machine.ledger) [.pc, .edges] :=
    { replace := fun hp m _ _ => by
        simp only [List.mem_cons, List.not_mem_nil, or_false] at hp
        rcases hp with rfl | rfl <;> rfl }
  within_onward (R := Stays Machine.ledger) (fun _ _ _ _ => rfl) previous site last

theorem ledger_traced (site : Site) (text : String) (m : Machine) :
    m.ledger.Accrues (Pays (Instruction.ofText text).operation)
        ((traced ctx site text).outcome m).2.ledger ∧
      ((traced ctx site text).outcome m).2.shared.executed = m.shared.executed + 1 ∧
      (((traced ctx site text).outcome m).2.ledger.branch? = m.ledger.branch? ∨
        (Instruction.ofText text).operation = .jumpIf) := by
  have hstart : m.ledger.Accrues (Pays (Instruction.ofText text).operation) (ticked m).ledger :=
    .of_kept rfl rfl rfl rfl rfl
  obtain ⟨rows, htraced⟩ := @outcome_traced ctx site text m
  rw [htraced, outcome_bind, outcome_tick]
  split
  next heq =>
    have hm := (Prod.mk.inj heq).2
    subst hm
    have hstep := @books_step ctx site (.ofText text) (ticked m)
    generalize (step ctx site (.ofText text)).outcome (ticked m) = o at hstep ⊢
    obtain ⟨hadds, hcount, hbranch, -⟩ := hstep
    exact ⟨hstart.trans hadds, hcount, hbranch⟩
  next heq =>
    have hm := (Prod.mk.inj heq).2
    subst hm
    exact ⟨hstart, rfl, .inl rfl⟩

end EvmAudit.Exec
