import EvmAudit.Proofs.Explore.Consistency
import EvmAudit.Proofs.Explore.Jumps
import EvmAudit.Proofs.Machine.Opening

/-! Explorations in which no instruction fails, under an exact solver. Every block is entered with
the conditions of its path asserted, and the two sides of a conditional jump are explored exactly if
they can be reached. -/

namespace EvmAudit

namespace Exec

variable {C : Nat → Prop} {ctx : Context} {entries : Table Int String}
variable {m m' : Machine} {call root : Call} {target : Except Fault Int}

/-! ### The first call -/

/-- The conditions that every path begins with: the value and the contract's balance are not
negative, and the sender can pay. -/
def Opens (ctx : Context) (cs : List Condition) : Prop :=
  ∃ o paid payable owned, opening ctx = .ok o ∧ o.value.ge (.word (.const 0)) = .ok paid ∧
    o.senderBalance.ge o.value = .ok payable ∧ o.contractBalance.ge (.word (.const 0)) = .ok owned ∧
    cs = [paid, payable, owned]

theorem Begins.consistent {code : Listing.Code} (h : Begins ctx code.linked entries root) :
    root.machine.Consistent ∧ Opens ctx root.machine.path.conditions ∧
      root.machine.shared = { graph := code.linked } := by
  obtain ⟨o, paid, payable, owned, ho, hpaid, hpayable, howned, hfurnish⟩ := start_ok h.started
  let view (m : Machine) := (m.path.conditions, m.shared)
  obtain ⟨hconditions, hshared⟩ := Prod.mk.inj ((congrArg (fun r => view r.2) hfurnish).symm.trans
    (@fixes_furnish _ view (fun _ _ _ => rfl) o _))
  have hopens : Opens ctx root.machine.path.conditions :=
    ⟨o, paid, payable, owned, ho, hpaid, hpayable, howned, hconditions⟩
  have hgraph (k : Nat) : code.linked.Branches (Formula.Over (spare k)) := by
    intro key b v c hb hv
    rw [code.unexplored_linked key b hb] at hv
    cases hv
  have hfresh : root.machine.Fresh := by
    have hopening (k : Nat) : o.All (Value.Over (spare k)) :=
      Opening.gives_opening (fun _ => trivial) trivial
      (fun h hc => spare_of_head h (by rintro rfl; simp at hc)) o ho
    have hyields : Yields (fun _ => True) (furnish o) Done := holds_furnish hopening
      (fun h => spare_of_head h (by decide)) fun ha hb =>
      ⟨Value.gives_add ha hb, Value.gives_sub ha hb⟩
    refine (hyields.2 _ _ _ hfurnish).fresh fun k _ =>
      ⟨⟨?_, Table.all_empty⟩, hgraph k, fun f hf => by cases hf⟩
    have hover := hopening k
    have hgiven : ∀ v ∈ ({} : World).given, v.Over (spare k) := by simp [World.given, Value.Over]
    exact ⟨by simp, Table.all_empty, Table.all_empty,
      ((Table.all_empty.insert hover.sender).insert hover.receiver).insert hover.value,
      Table.all_empty, trivial,
      hgiven⟩
  refine ⟨⟨hfresh, ?_, ?_, ?_⟩, hopens, hshared⟩
  · rw [hconditions]
    exact Nat.le_refl 3
  · rw [hconditions, hshared]
    rfl
  · rw [hshared]
    exact ⟨fun _ => 0, rfl⟩

/-! ### Both sides of a jump -/

/-- The calls that a conditional jump leads to: on one side for its target, and on the other, when
the target is done, for the block behind it. -/
inductive Turns (ctx : Context) (entries : Table Int String) : Call → Bool → Call → Prop
  | target {remaining : Nat} {v : Visit} {m m₁ m₂ : Machine} {site : Site} {c : Condition}
      {b : Block} {next : Int}
      (hv : Forks ctx entries v m site c b m₁)
      (ht : (approach ctx m₁.path c (.ok b.targetAddress)).outcome m₁ = (.ok (some next), m₂)) :
      Turns ctx entries ⟨remaining + 1, v, m⟩ true ⟨remaining, sideOf v site next, m₂⟩
  | fall {remaining : Nat} {v : Visit} {m m₁ m₂ m₃ : Machine} {site : Site} {c : Condition}
      {b : Block} {next : Int}
      (hv : Forks ctx entries v m site c b m₁)
      (ht : (branch ctx m₁.path c (.ok b.targetAddress) fun next =>
        explore ctx entries remaining (sideOf v site next)).outcome m₁ = (.ok (), m₂))
      (hf : (approach ctx m₁.path (.symbolic c.not) b.getFallsTo).outcome m₂ =
        (.ok (some next), m₃)) :
      Turns ctx entries ⟨remaining + 1, v, m⟩ false ⟨remaining, sideOf v site next, m₃⟩

def takeTurn (ctx : Context) (call : Call) (site : Site) (parent : Path) (c : Condition)
    (target : Except Fault Int) : Exec Unit :=
  branch ctx parent c target fun next =>
    explore ctx {} (call.remaining - 1) (sideOf call.visit site next)

section Fork

variable {remaining : Nat} {v : Visit} {m m₁ : Machine} {site : Site} {c : Condition} {b : Block}

theorem turns_target_iff (hv : Forks ctx entries v m site c b m₁)
    {d : Call} : Turns ctx entries ⟨remaining + 1, v, m⟩ true d ↔
      ∃ m₂, (approach ctx m₁.path c (.ok b.targetAddress)).outcome m₁ =
          (.ok (some b.targetAddress), m₂) ∧
          d = ⟨remaining, sideOf v site b.targetAddress, m₂⟩ := by
  constructor
  · intro h
    cases h with
    | target hv' ht =>
      cases hv.symm.trans hv'
      obtain ⟨hnext, -⟩ := outcome_approach_some ht
      cases hnext
      exact ⟨_, ht, rfl⟩
  · rintro ⟨m₂, ht, rfl⟩
    exact .target hv ht

theorem turns_fall_iff {m₂ : Machine} (hv : Forks ctx entries v m site c b m₁)
    (ht : (branch ctx m₁.path c (.ok b.targetAddress) (side ctx entries remaining v site)).outcome
      m₁ = (.ok (), m₂))
    {d : Call} : Turns ctx entries ⟨remaining + 1, v, m⟩ false d ↔
      ∃ next m₃, b.fallsTo = some next ∧
        (approach ctx m₁.path (.symbolic c.not) (.ok next)).outcome m₂ = (.ok (some next), m₃) ∧
        d = ⟨remaining, sideOf v site next, m₃⟩ := by
  constructor
  · intro h
    cases h with
    | fall hv' ht' hf =>
      cases hv.symm.trans hv'
      rw [ht] at ht'
      cases ht'
      obtain ⟨hnext, -⟩ := outcome_approach_some hf
      exact ⟨_, _, getFallsTo_eq_ok.1 hnext, hnext ▸ hf, rfl⟩
  · rintro ⟨next, m₃, hnext, hf, rfl⟩
    exact .fall hv ht (getFallsTo_eq_ok.2 hnext ▸ hf)

end Fork

/-- A jump on `flag` to the address `n`, made in the state `m` at the end of a call's block. Its
target is explored exactly if the flag can be set, and when the target is done, the block behind the
jump exactly if the flag can be zero. A side that is done leaves the assertions as they were before
the jump; and unless a recorded test is compared, both sides come to be done. -/
structure SidesExplored (ctx : Context) (call : Call) (site : Site) (m : Machine) (n : Int)
    (flag : Value) (c : Condition) (b : Block) (m₁ : Machine) : Prop where
  forks : Forks ctx {} call.visit call.machine site c b m₁
  block : m₁.shared.graph.blocks.get? call.visit.block = some b
  target : (∃ d, Turns ctx {} call true d) ↔
    ∃ env, allHold env m.shared.solver.assertions = true ∧ flag.IsSet env
  target_block : ∀ d, Turns ctx {} call true d → d.visit.block = n
  target_done : ∀ m₂, (takeTurn ctx call site m₁.path c (.ok n)).outcome m₁ = (.ok (), m₂) →
    m₂.shared.solver.assertions = m.shared.solver.assertions
  fall : ∀ m₂, (takeTurn ctx call site m₁.path c (.ok n)).outcome m₁ = (.ok (), m₂) →
    ∀ next, b.fallsTo = some next → ((∃ d, Turns ctx {} call false d) ↔
      ∃ env, allHold env m.shared.solver.assertions = true ∧ ¬ flag.IsSet env)
  fall_block : ∀ d, Turns ctx {} call false d → b.fallsTo = some d.visit.block
  fall_done : ∀ m₂, (takeTurn ctx call site m₁.path c (.ok n)).outcome m₁ = (.ok (), m₂) →
    ∀ m₃, (takeTurn ctx call site m₁.path (.symbolic c.not) b.getFallsTo).outcome m₂ =
      (.ok (), m₃) → m₃.shared.solver.assertions = m.shared.solver.assertions
  returns : ctx.settings.unitTest = 0 → ∃ m₂ m₃,
    (takeTurn ctx call site m₁.path c (.ok n)).outcome m₁ = (.ok (), m₂) ∧
    (takeTurn ctx call site m₁.path (.symbolic c.not) b.getFallsTo).outcome m₂ = (.ok (), m₃)

theorem sidesExplored_of_jumpIf (hexact : ctx.Exact) (hsource : ctx.source = none)
    {code : Listing.Code} {remaining : Nat} {v : Visit} {m₀ m : Machine} {site : Site}
    {text : String} {target flag : Value} {rest : List Value}
    (hgraph : code.linked.Same m₀.shared.graph) (hm : m₀.Consistent)
    (hpass : Below ctx {} (Succeeds ctx) ⟨remaining + 1, v, m₀⟩)
    (hrun : Runs ctx {} v m₀ site text m) (hop : (Instruction.ofText text).operation = .jumpIf)
    (hstack : m.path.stack = target :: flag :: rest) (hflag : flag.IsNumber) :
    ∃ n c b m₁, (∀ m', (targetOf ctx target).outcome m' = (.ok n, m')) ∧
      SidesExplored ctx ⟨remaining + 1, v, m₀⟩ site m n flag c b m₁ := by
  obtain ⟨n, c, b, m₁, hv, hn, rfl, hset, hb, hsolver⟩ := visit_jumpIf hgraph hrun hop
    ((below_iff.1 hpass).1 site text m hrun) hstack hflag
  have hunset (env : Assignment) : Formula.eval env c.not = true ↔ ¬ flag.IsSet env := by
    rw [← hset env]
    simp [Condition.not, Formula.eval]
  have hclosed := closedBelow_of_succeeds hexact hsource hm hpass
  have hdone {m₂ : Machine} (ht : (takeTurn ctx ⟨remaining + 1, v, m₀⟩ site m₁.path c
      (.ok b.targetAddress)).outcome m₁ = (.ok (), m₂)) :
      m₂.shared.solver.assertions = m.shared.solver.assertions := by
    rw [(target_done hclosed hv ht).2, hsolver]
  refine ⟨b.targetAddress, c, b, m₁, hn, hv, hb, ?_, ?_, fun m₂ => hdone, ?_, ?_, ?_, ?_⟩
  · have hturn : (∃ d, Turns ctx {} ⟨remaining + 1, v, m₀⟩ true d) ↔ ∃ m₂,
        (approach ctx m₁.path c (.ok b.targetAddress)).outcome m₁ =
        (.ok (some b.targetAddress), m₂) :=
      ⟨fun ⟨d, hd⟩ => ((turns_target_iff hv).1 hd).imp fun _ h => h.1,
       fun ⟨m₂, ht⟩ => ⟨_, .target hv ht⟩⟩
    rw [hturn, approach_iff, hexact.isUnsat, satisfiable_append, hsolver]
    exact exists_congr fun env => and_congr_right fun _ => hset env
  · intro d hd
    obtain ⟨m₂, -, rfl⟩ := (turns_target_iff hv).1 hd
    rfl
  · intro m₂ ht next hnext
    have hturn : (∃ d, Turns ctx {} ⟨remaining + 1, v, m₀⟩ false d) ↔ ∃ m₃,
        (approach ctx m₁.path (.symbolic c.not) (.ok next)).outcome m₂ = (.ok (some next), m₃) := by
      constructor
      · rintro ⟨d, hd⟩
        obtain ⟨next', m₃, hnext', hf, -⟩ := (turns_fall_iff hv ht).1 hd
        rw [hnext] at hnext'
        cases hnext'
        exact ⟨m₃, hf⟩
      · rintro ⟨m₃, hf⟩
        exact ⟨_, (turns_fall_iff hv ht).2 ⟨next, m₃, hnext, hf, rfl⟩⟩
    rw [hturn, approach_iff, hexact.isUnsat, satisfiable_append, hdone ht]
    exact exists_congr fun env => and_congr_right fun _ => hunset env
  · intro d hd
    cases hd with
    | fall hv' ht hf =>
      cases hv.symm.trans hv'
      exact getFallsTo_eq_ok.1 (outcome_approach_some hf).1
  · intro m₂ ht m₃ hf
    rw [(fall_done hclosed hv ht hf).2, hsolver]
  · intro hunit
    have hnext := (below_iff.1 hpass).2
    obtain ⟨m₂, ht⟩ := side_returns hsource hunit (goesOn_ok b.targetAddress) fun next m' h =>
      hnext _ (.target hv h)
    obtain ⟨m₃, hf⟩ := side_returns hsource hunit (goesOn_getFallsTo b) fun next m' h =>
      hnext _ (.fall hv ht h)
    exact ⟨m₂, m₃, ht, hf⟩

/-- An exploration under an exact solver in which no instruction fails. At every call the assertions
are the conditions of the path behind the first three, and can hold together. The sides of every
conditional jump on a number are explored exactly if they can be reached, unless the jump is at the
depth limit. -/
theorem sides_explored_iff (hexact : ctx.Exact) (hsource : ctx.source = none) (code : Listing.Code)
    {root call : Call} (hroot : Begins ctx code.linked {} root)
    (hpass : Below ctx {} (Succeeds ctx) root)
    (hreach : Relation.ReflTransGen (Next ctx {}) root call) :
    (∃ first rest, Opens ctx first ∧ call.machine.path.conditions = first ++ rest ∧
      call.machine.shared.solver.assertions = rest.map Condition.formula ∧
      Satisfiable call.machine.shared.solver.assertions) ∧
    ∀ site text m target flag rest, Runs ctx {} call.visit call.machine site text m →
      (Instruction.ofText text).operation = .jumpIf → m.path.stack = target :: flag :: rest →
      flag.IsNumber →
      (call.remaining = 0 → ∀ d, ¬ Next ctx {} call d) ∧
      (0 < call.remaining → ∃ n c b m₁, (∀ m', (targetOf ctx target).outcome m' = (.ok n, m')) ∧
        SidesExplored ctx call site m n flag c b m₁) := by
  obtain ⟨hfirst, hopens, hshared⟩ := hroot.consistent
  obtain ⟨hm, hsame, cs, hconditions⟩ := consistent_of_reach hexact hsource hfirst hreach
  have hbelow : Below ctx {} (Succeeds ctx) call := fun d hd => hpass d (hreach.trans hd)
  rw [hshared] at hsame
  refine ⟨⟨_, cs, hopens, hconditions, ?_, hm.satisfiable⟩, ?_⟩
  · obtain ⟨o, paid, payable, owned, -, -, -, -, hthree⟩ := hopens
    rw [hm.assertions, hconditions, hthree]
    rfl
  · intro site text m target flag rest hrun hop hstack hflag
    obtain ⟨remaining, v, m₀⟩ := call
    cases remaining with
    | zero =>
      refine ⟨fun _ d hd => ?_, fun h => absurd h (Nat.lt_irrefl 0)⟩
      cases hd
    | succ remaining =>
      exact ⟨fun h => absurd h (Nat.succ_ne_zero remaining), fun _ =>
        sidesExplored_of_jumpIf hexact hsource hsame hm hbelow hrun hop hstack hflag⟩

/-! ### A jump on the value that is paid -/

def onPayment : Listing.Code := .ofDrafts
  [⟨0, "CALLVALUE", none⟩, ⟨1, "PUSH1", some "07"⟩, ⟨3, "JUMPI", none⟩, ⟨4, "STOP", none⟩]

/-- What is left of a call's block when some of its instructions have run. -/
def Call.after? (ctx : Context) (entries : Table Int String) (c : Call) (k : Nat) :
    Option (Site × List String × Machine) :=
  match (enter ctx entries c.visit).outcome c.machine with
  | (.ok (some (site, texts)), m) =>
    match (runAll ctx site (texts.take k)).outcome m with
    | (.ok _, m') => some (site, texts.drop k, m')
    | _ => none
  | _ => none

section

variable {k : Nat} {site : Site} {text : String} {texts : List String}

theorem after_some (h : call.after? ctx entries k = some (site, texts, m')) :
    ∃ all m, (enter ctx entries call.visit).outcome call.machine = (.ok (some (site, all)), m) ∧
      (runAll ctx site (all.take k)).outcome m = (.ok (), m') ∧ texts = all.drop k := by
  unfold Call.after? at h
  split at h
  · split at h
    · cases h
      exact ⟨_, _, ‹_›, ‹_›, rfl⟩
    · cases h
  · cases h

theorem runs_of_after {stack : List Value} (h : (call.after? ctx entries k).map (fun r =>
      (r.2.1, r.2.2.path.stack, r.2.2.shared.solver.assertions)) =
        some (text :: texts, stack, [])) :
    ∃ site m, Runs ctx entries call.visit call.machine site text m ∧ m.path.stack = stack ∧
      ∀ env, allHold env m.shared.solver.assertions = true := by
  obtain ⟨⟨site, left, m⟩, hafter, heq⟩ := Option.map_eq_some_iff.1 h
  obtain ⟨hleft, hstate⟩ := Prod.mk.inj heq
  obtain ⟨hstack, hnone⟩ := Prod.mk.inj hstate
  obtain ⟨all, m₀, henter, hrun, hdrop⟩ := after_some hafter
  have hall : all = all.take k ++ text :: texts := by
    rw [← hleft, hdrop, List.take_append_drop]
  refine ⟨site, m, ⟨all, m₀, henter, ran_iff.2 ⟨_, texts, hall, hrun⟩⟩, hstack, fun env => ?_⟩
  rw [hnone]
  rfl

theorem succeeds_of_after (h : (call.after? ctx entries k).map (·.2.1) = some [])
    (hruns : Runs ctx entries call.visit call.machine site text m) : Succeeds ctx site text m := by
  obtain ⟨⟨site', left, m'⟩, hafter, hleft⟩ := Option.map_eq_some_iff.1 h
  obtain ⟨all, m₀, henter, hrun, hdrop⟩ := after_some hafter
  obtain ⟨all', m₁, henter', hran⟩ := hruns
  rw [henter] at henter'
  cases henter'
  rw [List.take_of_length_le (List.drop_eq_nil_iff.1 (hdrop.symm.trans hleft))] at hrun
  exact hran.succeeds hrun

end

noncomputable def onPaymentRoot : Call := .first (exactly 1) onPayment.assembled

theorem begins_onPayment : Begins (exactly 1) onPayment.linked {} onPaymentRoot :=
  begins_unsourced onPayment.linked_sorted rfl rfl

theorem same_onPayment : onPayment.linked.Same onPaymentRoot.machine.shared.graph := by
  rw [begins_onPayment.consistent.2.2]
  exact .refl _

theorem runs_onPayment : ∃ site m,
    Runs (exactly 1) {} onPaymentRoot.visit onPaymentRoot.machine site "JUMPI " m ∧
    m.path.stack = [.int 7, .var "Iv"] ∧ ∀ env, allHold env m.shared.solver.assertions = true :=
  @runs_of_after _ _ _ 2 _ [] _ (by decide +kernel)

theorem succeeds_onPayment {site : Site} {text : String} {m : Machine}
    (h : Runs (exactly 1) {} onPaymentRoot.visit onPaymentRoot.machine site text m) :
    Succeeds (exactly 1) site text m :=
  @succeeds_of_after _ _ _ _ 3 _ _ (by decide +kernel) h

theorem falls_onPayment {g : Graph} {b : Block} (hsame : onPayment.linked.Same g)
    (hb : g.blocks.get? 0 = some b) : b.fallsTo = some 4 := by
  obtain ⟨b', hb', hfixed⟩ := hsame.block hb
  rw [onPayment.linked_sorted] at hb'
  have hfalls : (onPayment.assembled.blocks.get? 0).bind Block.fallsTo = some 4 := by
    decide +kernel
  rw [hb'] at hfalls
  exact (congrArg Block.fallsTo hfixed).symm.trans hfalls

theorem next_onPayment {c : Call} (h : Next (exactly 1) {} onPaymentRoot c) :
    c.remaining = 0 ∧ onPayment.linked.Same c.machine.shared.graph ∧
      (c.visit.block = 7 ∨ c.visit.block = 4) := by
  obtain ⟨site, m, hruns, hstack, -⟩ := runs_onPayment
  obtain ⟨n, cond, b, m₁, hv, hn, haddress, -, hb, -⟩ := visit_jumpIf
    same_onPayment hruns (by decide) (succeeds_onPayment hruns) hstack trivial
  have hseven : n = 7 := by
    have h := (hn {}).symm
    cases h
    rfl
  have hextends := extends_visit (exact_exactly 1) rfl begins_onPayment.consistent.1.fresh hv
  have hsame := same_onPayment.trans hextends.1
  have hnext : Next (exactly 1) {} ⟨0 + 1, onPaymentRoot.visit, onPaymentRoot.machine⟩ c := h
  rcases hnext.inv hv with ⟨next, m₂, ht, rfl⟩ | ⟨next, m₂, m₃, ht, hf, rfl⟩
  · obtain ⟨hto, -⟩ := outcome_approach_some ht
    refine ⟨rfl, hsame.trans (extends_approach ht).1, .inl ?_⟩
    exact (Except.ok.inj hto).symm.trans (haddress.trans hseven)
  · obtain ⟨hto, -, s, p, rfl, -⟩ := outcome_approach_some hf
    obtain ⟨n, hchanges⟩ := changes_side ht
    have hdone : onPayment.linked.Same m₂.shared.graph := hsame.trans hchanges.graph
    refine ⟨rfl, hdone, .inr ?_⟩
    have hfour := getFallsTo_eq_ok.1 hto
    rw [falls_onPayment hsame hb] at hfour
    exact (Option.some.inj hfour).symm

theorem succeeds_stop (site : Site) (m : Machine) : Succeeds (exactly 1) site "STOP " m := ⟨_, rfl⟩

theorem below_onPayment : Below (exactly 1) {} (Succeeds (exactly 1)) onPaymentRoot := by
  refine below_iff.2 ⟨fun _ _ _ => succeeds_onPayment, fun c hc => ?_⟩
  obtain ⟨hlast, hsame, hblock⟩ := next_onPayment hc
  refine below_iff.2 ⟨fun site text m ⟨texts, m₁, henter, hran⟩ => ?_, fun c' hc' => ?_⟩
  · obtain ⟨-, -, -, -, b, hb, rfl⟩ := enter_some henter
    obtain ⟨b', hb', hfixed⟩ := hsame.block hb
    have hall : ∀ k ∈ [(7 : Int), 4],
        (onPayment.assembled.blocks.get? k).all (·.instructions = ["STOP "]) = true := by
      decide +kernel
    have hstopped := hall c.visit.block (by simpa using hblock)
    rw [← onPayment.linked_sorted, hb'] at hstopped
    have htexts : b.instructions = b'.instructions := (congrArg Block.instructions hfixed).symm
    rw [htexts, of_decide_eq_true hstopped] at hran
    obtain ⟨front, back, hstop, -⟩ := ran_iff.1 hran
    have hmem : text ∈ front ++ text :: back := by simp
    rw [← hstop] at hmem
    obtain rfl : text = "STOP " := by simpa using hmem
    exact succeeds_stop site m
  · cases hc' <;> cases hlast

/-- Both sides of the jump are explored, for a value may be paid or not. -/
theorem sides_explored_iff_onPayment :
    (exactly 1).Exact ∧ Begins (exactly 1) onPayment.linked {} onPaymentRoot ∧
    Below (exactly 1) {} (Succeeds (exactly 1)) onPaymentRoot ∧
    (∃ c, Turns (exactly 1) {} onPaymentRoot true c) ∧
    ∃ c, Turns (exactly 1) {} onPaymentRoot false c := by
  obtain ⟨site, m, hruns, hstack, hall⟩ := runs_onPayment
  have hjump := (sides_explored_iff (exact_exactly 1) rfl onPayment begins_onPayment
    below_onPayment .refl).2 _ _ _ _ _ _ hruns (by decide) hstack trivial
  obtain ⟨n, cond, b, m₁, -, hsides⟩ := hjump.2 Nat.one_pos
  have hextends := extends_visit (exact_exactly 1) rfl begins_onPayment.consistent.1.fresh
    hsides.forks
  have hfalls := falls_onPayment (same_onPayment.trans hextends.1) hsides.block
  obtain ⟨m₂, m₃, ht, -⟩ := hsides.returns rfl
  exact ⟨exact_exactly 1, begins_onPayment, below_onPayment,
    hsides.target.2 ⟨fun _ => 1, hall _, by simp [Value.var, Value.IsSet, Term.eval]⟩,
    (hsides.fall m₂ ht 4 hfalls).2
    ⟨fun _ => 0, hall _, by simp [Value.var, Value.IsSet, Term.eval]⟩⟩

/-! ### The same jump behind another one -/

def laterPayment : Listing.Code := .ofDrafts
  [⟨0, "PUSH1", some "03"⟩, ⟨2, "JUMP", none⟩, ⟨3, "JUMPDEST", none⟩, ⟨4, "CALLVALUE", none⟩,
    ⟨5, "PUSH1", some "09"⟩, ⟨7, "JUMPI", none⟩, ⟨8, "STOP", none⟩]

/-- At the depth limit neither side of the jump is explored, though the flag can be set and can be
zero. -/
theorem sides_cut_at_limit : ∃ root call site m,
    (exactly 1).Exact ∧ Begins (exactly 1) laterPayment.linked {} root ∧
    Below (exactly 1) {} (Succeeds (exactly 1)) root ∧
    Relation.ReflTransGen (Next (exactly 1) {}) root call ∧
    Runs (exactly 1) {} call.visit call.machine site "JUMPI " m ∧
    m.path.stack = [.int 9, .var "Iv"] ∧
    (∀ env, allHold env m.shared.solver.assertions = true) ∧
    ∀ c, ¬ Next (exactly 1) {} call c := by
  let root : Call := .first (exactly 1) laterPayment.assembled
  obtain ⟨call, hahead⟩ : ∃ call, ahead? (exactly 1) {} root = some call :=
    Option.isSome_iff_exists.1 (by decide +kernel)
  have hbefore : ((ahead? (exactly 1) {} root).bind (Call.after? (exactly 1) {} · 3)).map (fun r =>
      (r.2.1, r.2.2.path.stack, r.2.2.shared.solver.assertions)) =
      some (["JUMPI "], [.int 9, .var "Iv"], []) := by
    decide +kernel
  have hwhole : ((ahead? (exactly 1) {} root).bind (Call.after? (exactly 1) {} · 4)).map (·.2.1) =
      some [] := by
    decide +kernel
  rw [hahead] at hbefore hwhole
  obtain ⟨site, m, hruns, hstack, hall⟩ := runs_of_after hbefore
  have hlast (c : Call) : ¬ Next (exactly 1) {} call c := by
    obtain ⟨v, m₀, site₀, hroot, -⟩ := ahead_some hahead
    have hremaining : 1 = call.remaining + 1 := congrArg Call.remaining hroot
    intro h
    cases h <;> cases hremaining
  refine ⟨root, call, site, m, exact_exactly 1, begins_unsourced laterPayment.linked_sorted rfl rfl,
    ?_, .single ((next_iff_of_ahead hahead).2 rfl), hruns, hstack, hall, hlast⟩
  refine below_iff.2 ⟨fun _ _ _ => ?_, fun c hc => ?_⟩
  · exact @succeeds_of_after _ _ _ _ 2 _ _ (by decide +kernel)
  · obtain rfl := (next_iff_of_ahead hahead).1 hc
    exact below_iff.2 ⟨fun _ _ _ => succeeds_of_after hwhole, fun d hd => absurd hd (hlast d)⟩

end Exec

end EvmAudit
