import EvmAudit.Proofs.Explore.Histories
import EvmAudit.Proofs.Explore.Origins
import EvmAudit.Proofs.Machine.Dealings

/-! The dealings of a path, instruction by instruction and block by block: a block adds transfers
exactly if one of its instructions makes one, and what follows it goes on from there. -/

namespace EvmAudit.Exec

variable {ctx : Context} {entries : Table Int String}
variable {m m' m₁ : Machine} {c d : Call} {text : String} {site : Site}

/-! ### Instructions -/

def examine (ctx : Context) (text : String) : Exec Unit := do
  tick ctx
  markVisited
  updateAnalysis ctx (.ofText text)

theorem outcome_begin (m : Machine) : ∃ m₁ : Machine, m₁.path = m.path ∧
    m₁.ledger.dealings = m.ledger.dealings ∧
    ((∀ x : Exec Unit, (do tick ctx; markVisited; x).outcome m = (.error .deadline, m₁)) ∨
      ∀ x : Exec Unit, (do tick ctx; markVisited; x).outcome m = x.outcome m₁) := by
  by_cases hlate : ctx.deadline = some (m.shared.executed + 1)
  · refine ⟨ticked m, rfl, rfl, .inl fun x => ?_⟩
    rw [outcome_bind, outcome_tick, if_pos hlate]
  · obtain ⟨pcs, hvisited⟩ := outcome_markVisited (ticked m)
    refine ⟨(ticked m).replace .visitedPcs pcs, rfl, rfl, .inr fun x => ?_⟩
    rw [outcome_bind, outcome_tick, if_neg hlate]
    dsimp only
    rw [outcome_bind, hvisited]
    rfl

theorem looked_examine (text : String) (m : Machine) :
    Looked ctx (.ofText text) m ((examine ctx text).outcome m) := by
  obtain ⟨m₁, hpath, hdealings, hlate | hbegun⟩ := @outcome_begin ctx m
  · rw [examine, hlate]
    exact .fails hdealings
  · rw [examine, hbegun]
    refine (looked_updateAnalysis _ m₁).congr (by rw [hpath]) (fun _ => ?_) hdealings
    exact checkReentrancy_congr (by rw [hpath])

theorem pc_examine (h : (examine ctx text).outcome m = (.ok (), m')) :
    m'.path.world.pc = m.path.world.pc := by
  obtain ⟨m₁, hpath, -, hlate | hbegun⟩ := @outcome_begin ctx m
  · rw [examine, hlate] at h
    cases h
  · rw [examine, hbegun] at h
    rw [pc_updateAnalysis h, hpath]

def reported (text : String) (m : Machine) : Dealings :=
  if (Instruction.ofText text).operation = .call ∧
    m.path.analysis.reentrancy.getLast? = some true then
    { m.ledger.dealings with alarms := m.shared.problems.reentrancy ++ [m.path.world.pc] }
  else m.ledger.dealings

theorem reported_kept (text : String) (m : Machine) :
    (reported text m).flows = m.path.analysis.flows ∧
    (reported text m).answers = m.path.analysis.reentrancy := by
  unfold reported
  split <;> exact ⟨rfl, rfl⟩

theorem mem_alarms_reported {r : Int} :
    r ∈ (reported text m).alarms ↔ r ∈ m.shared.problems.reentrancy ∨
    ((Instruction.ofText text).operation = .call ∧
        m.path.analysis.reentrancy.getLast? = some true) ∧ m.path.world.pc = r := by
  unfold reported
  split
  next h =>
    simp [h, eq_comm]
  next h =>
    simp only [h, false_and, or_false]
    exact Iff.rfl

theorem dealings_noteReentrancy (text : String) (m : Machine) :
    ∃ m', (if (Instruction.ofText text).operation = .call then noteReentrancy else pure ()).outcome
      m = (.ok (), m') ∧ m'.ledger.dealings = reported text m := by
  unfold reported
  split
  next hcall =>
    rw [noteReentrancy, outcome_bind_getPath]
    split
    next hlast =>
      exact ⟨_, rfl, by rw [if_pos ⟨hcall, hlast⟩]; rfl⟩
    next hlast =>
      exact ⟨_, rfl, by rw [if_neg fun h => hlast h.2]⟩
  next hcall =>
    exact ⟨_, rfl, by rw [if_neg fun h => hcall h.1]⟩

theorem dealings_perform (site : Site) (name : String) (op : Operation) (m : Machine) :
    ((perform ctx site name op).outcome m).2.ledger.dealings = m.ledger.dealings :=
  ((books_perform site name op m).2.2.2).resolve_right id

theorem dealings_traced (site : Site) (text : String) (m : Machine) :
    ((traced ctx site text).outcome m).2.ledger.dealings =
      if isFree (Instruction.ofText text).operation then m.ledger.dealings
      else match (examine ctx text).outcome m with
        | (.ok (), m₁) => reported text m₁
        | (.error _, _) => m.ledger.dealings := by
  obtain ⟨rows, htraced⟩ := @outcome_traced ctx site text m
  have hrow : ((traced ctx site text).outcome m).2.ledger.dealings =
      ((do tick ctx; step ctx site (.ofText text)).outcome m).2.ledger.dealings := by
    rw [htraced]
    rfl
  rw [hrow, examine, step]
  obtain ⟨m₁, -, hdealings, hlate | hbegun⟩ := @outcome_begin ctx m
  · rw [hlate, hlate]
    split <;> exact hdealings
  · rw [hbegun, hbegun, prepare, outcome_bind]
    by_cases hfree : isFree (Instruction.ofText text).operation = true
    · rw [if_pos hfree, if_pos hfree]
      exact (dealings_perform _ _ _ _).trans hdealings
    · rw [if_neg hfree, if_neg hfree]
      have hlooked := @looked_updateAnalysis ctx (.ofText text) m₁
      rw [outcome_bind]
      generalize (updateAnalysis ctx (.ofText text)).outcome m₁ = o at hlooked ⊢
      obtain ⟨e | u, m₂⟩ := o
      · cases hlooked with
        | fails h => exact h.trans hdealings
      · obtain ⟨m₃, hnoted, hreported⟩ := dealings_noteReentrancy text m₂
        dsimp only
        rw [hnoted]
        exact (dealings_perform _ _ _ _).trans hreported

theorem examine_of_traced (hfree : isFree (Instruction.ofText text).operation = false)
    (h : Traces ctx site text m m') : ∃ m₁, (examine ctx text).outcome m = (.ok (), m₁) := by
  have hstep : ∃ m₂, (do tick ctx; step ctx site (.ofText text)).outcome m = (.ok (), m₂) := by
    generalize hbody : (do tick ctx; step ctx site (.ofText text) : Exec Unit) = body
    rw [Traces, traced, hbody, outcome_bind, outcome_tryCatch] at h
    generalize body.outcome m = o at h ⊢
    obtain ⟨e | u, m₂⟩ := o
    · cases h
    · exact ⟨m₂, rfl⟩
  obtain ⟨m₂, hstep⟩ := hstep
  rw [step] at hstep
  rw [examine]
  obtain ⟨m₁, -, -, hlate | hbegun⟩ := @outcome_begin ctx m
  · rw [hlate] at hstep
    cases hstep
  · rw [hbegun] at hstep ⊢
    obtain ⟨_, m₃, hprepare, -⟩ := outcome_bind_eq_ok.1 hstep
    rw [prepare, if_neg (by rw [hfree]; decide)] at hprepare
    obtain ⟨_, m₄, hlooked, -⟩ := outcome_bind_eq_ok.1 hprepare
    exact ⟨m₄, hlooked⟩

theorem asks_eq_false_of_free {i : Instruction} (h : isFree i.operation = true) (p : Path) :
    i.transfers p = false ∧ i.asks p = false := by
  have hcall : i.operation ≠ .call := by
    intro hop
    rw [hop] at h
    cases h
  have hdestroys : i.operation ≠ .selfDestruct := by
    intro hop
    rw [hop] at h
    cases h
  simp [Instruction.transfers, Instruction.asks, hcall, hdestroys]

theorem asks_eq_false {i : Instruction} {p : Path} (h : i.transfers p = false) :
    i.asks p = false := by
  simp only [Instruction.transfers, Bool.or_eq_false_iff] at h
  exact h.2

theorem dealings_of_traced (h : Traces ctx site text m m') :
    ∃ fs bs, m'.path.analysis.flows = m.path.analysis.flows ++ fs ∧
      m'.path.analysis.reentrancy = m.path.analysis.reentrancy ++ bs ∧
      (fs = [] ↔ (Instruction.ofText text).transfers m.path = false) ∧
      (if (Instruction.ofText text).asks m.path then
        ∃ answer, ((checkReentrancy ctx).outcome m).1 = .ok answer ∧
          bs = [answer] else bs = []) := by
  have hdealings := @dealings_traced ctx site text m
  rw [h] at hdealings
  by_cases hfree : isFree (Instruction.ofText text).operation = true
  · obtain ⟨htransfers, hasks⟩ := asks_eq_false_of_free hfree m.path
    rw [if_pos hfree] at hdealings
    have hflows : m'.path.analysis.flows = m.path.analysis.flows :=
      congrArg Dealings.flows hdealings
    have hanswers : m'.path.analysis.reentrancy = m.path.analysis.reentrancy :=
      congrArg Dealings.answers hdealings
    exact ⟨[], [], by simp [hflows], by simp [hanswers], by simp [htransfers], by simp [hasks]⟩
  · obtain ⟨m₁, hexamined⟩ := examine_of_traced (by simpa using hfree) h
    have hlooked := @looked_examine ctx text m
    rw [if_neg hfree, hexamined] at hdealings
    rw [hexamined] at hlooked
    obtain ⟨hflows, hanswers⟩ := reported_kept text m₁
    have hflows' : m'.path.analysis.flows = m₁.path.analysis.flows :=
      (congrArg Dealings.flows hdealings).trans hflows
    have hanswers' : m'.path.analysis.reentrancy = m₁.path.analysis.reentrancy :=
      (congrArg Dealings.answers hdealings).trans hanswers
    rw [hflows', hanswers']
    cases hlooked with
    | passes hi hlooked =>
      have hkept : m₁.path.analysis.flows = m.path.analysis.flows := congrArg Dealings.flows hlooked
      have hsame : m₁.path.analysis.reentrancy = m.path.analysis.reentrancy :=
        congrArg Dealings.answers hlooked
      exact ⟨[], [], by simp [hkept], by simp [hsame], by simp [hi], by simp [asks_eq_false hi]⟩
    | destroys flow hi hlooked =>
      have hsame : m₁.path.analysis.reentrancy = m.path.analysis.reentrancy :=
        congrArg Dealings.answers hlooked
      exact ⟨[flow], [], congrArg Dealings.flows hlooked, by simp [hsame],
        by simp [Instruction.transfers, hi], by simp [Instruction.asks, hi]⟩
    | @pays flow answer _ hi hanswer hlooked =>
      exact ⟨[flow], [answer], congrArg Dealings.flows hlooked, congrArg Dealings.answers hlooked,
        by simp [Instruction.transfers, hi], by simp [hi, hanswer]⟩

/-- The call is looked at, and the last answer on its path is that a transfer can be entered again.
It is its own answer if it is asked about. -/
structure Raises (ctx : Context) (text : String) (m : Machine) : Prop where
  call : (Instruction.ofText text).operation = .call
  examined : ((examine ctx text).outcome m).1 = .ok ()
  last : if (Instruction.ofText text).asks m.path then ((checkReentrancy ctx).outcome m).1 =
    .ok true
    else m.path.analysis.reentrancy.getLast? = some true

theorem alarms_examine (h : (examine ctx text).outcome m = (.ok (), m₁)) :
    m₁.shared.problems.reentrancy = m.shared.problems.reentrancy := by
  have hlooked := @looked_examine ctx text m
  rw [h] at hlooked
  cases hlooked with
  | passes _ hlooked => exact congrArg Dealings.alarms hlooked
  | destroys _ _ hlooked => exact congrArg Dealings.alarms hlooked
  | pays _ _ _ hlooked => exact congrArg Dealings.alarms hlooked

theorem raises_iff (h : (examine ctx text).outcome m = (.ok (), m₁)) :
    Raises ctx text m ↔ (Instruction.ofText text).operation = .call ∧
      m₁.path.analysis.reentrancy.getLast? = some true := by
  have hlooked := @looked_examine ctx text m
  have hok : ((examine ctx text).outcome m).1 = .ok () := by rw [h]
  rw [h] at hlooked
  have hlast : (Instruction.ofText text).operation = .call →
      ((if (Instruction.ofText text).asks m.path then ((checkReentrancy ctx).outcome m).1 = .ok true
        else m.path.analysis.reentrancy.getLast? = some true) ↔
        m₁.path.analysis.reentrancy.getLast? = some true) := by
    intro hcall
    cases hlooked with
    | passes hi hlooked =>
      have hsame : m₁.path.analysis.reentrancy = m.path.analysis.reentrancy :=
        congrArg Dealings.answers hlooked
      simp [asks_eq_false hi, hsame]
    | destroys flow hi hlooked =>
      rw [hcall] at hi
      cases hi
    | @pays flow answer _ hi hanswer hlooked =>
      have hadded : m₁.path.analysis.reentrancy = m.path.analysis.reentrancy ++ [answer] :=
        congrArg Dealings.answers hlooked
      simp [hi, hanswer, hadded]
  exact ⟨fun hr => ⟨hr.call, (hlast hr.call).1 hr.last⟩, fun hr => ⟨hr.1, hok, (hlast hr.1).2 hr.2⟩⟩

theorem mem_alarms_traced {r : Int} :
    r ∈ ((traced ctx site text).outcome m).2.shared.problems.reentrancy ↔
      r ∈ m.shared.problems.reentrancy ∨ Raises ctx text m ∧ m.path.world.pc = r := by
  have hdealings := congrArg Dealings.alarms (@dealings_traced ctx site text m)
  change r ∈ ((traced ctx site text).outcome m).2.ledger.dealings.alarms ↔ _
  rw [hdealings]
  have hnone (h : ¬ Raises ctx text m) : r ∈ m.shared.problems.reentrancy ↔
      r ∈ m.shared.problems.reentrancy ∨ Raises ctx text m ∧ m.path.world.pc = r := by simp [h]
  split
  next hfree =>
    refine hnone fun h => ?_
    rw [h.call] at hfree
    cases hfree
  · rcases hexamined : (examine ctx text).outcome m with ⟨e | u, m₁⟩
    · refine hnone fun h => ?_
      have hok := h.examined
      rw [hexamined] at hok
      cases hok
    · dsimp only
      rw [mem_alarms_reported, pc_examine hexamined, alarms_examine hexamined, raises_iff hexamined]

/-! ### Blocks -/

theorem flows_runAll {texts : List String} (h : (runAll ctx site texts).outcome m = (.ok (), m')) :
    ∃ fs, m'.path.analysis.flows = m.path.analysis.flows ++ fs ∧
      (fs = [] ↔ ∀ text m₁, Ran ctx site texts m text m₁ →
        (Instruction.ofText text).transfers m₁.path = false) := by
  induction texts generalizing m with
  | nil =>
    cases h
    exact ⟨[], by simp, iff_of_true rfl fun text m₁ hran => by cases hran⟩
  | cons text rest ih =>
    obtain ⟨_, m₁, hfirst, hrest⟩ := outcome_bind_eq_ok.1 h
    obtain ⟨fs, -, hflows, -, hfs, -⟩ := dealings_of_traced hfirst
    obtain ⟨gs, hflows', hgs⟩ := ih hrest
    refine ⟨fs ++ gs, by rw [hflows', hflows, List.append_assoc], ?_⟩
    rw [forall_ran_cons, List.append_eq_nil_iff, hfs, hgs]
    refine and_congr_right fun _ => ⟨fun hall u m₂ hm₂ => ?_, fun hall => hall () m₁ hfirst⟩
    rw [hfirst] at hm₂
    cases hm₂
    exact hall

theorem Completes.unique (h : Completes ctx entries c m) (h' : Completes ctx entries c m') :
    m = m' := by
  obtain ⟨site, texts, m₁, henter, hrun⟩ := h
  obtain ⟨site', texts', m₁', henter', hrun'⟩ := h'
  rw [henter] at henter'
  cases henter'
  rw [hrun] at hrun'
  exact (Prod.mk.inj hrun').2

def Spends (ctx : Context) (entries : Table Int String) (c : Call) : Prop :=
  ∃ m, Completes ctx entries c m ∧ ∃ site text m', Runs ctx entries c.visit c.machine site text m' ∧
    (Instruction.ofText text).transfers m'.path = true

theorem flows_completes (h : Completes ctx entries c m) :
    ∃ fs, m.path.analysis.flows = c.machine.path.analysis.flows ++ fs ∧
    (fs ≠ [] ↔ Spends ctx entries c) := by
  have hcompletes := h
  obtain ⟨site, texts, m₁, henter, hrun⟩ := h
  obtain ⟨fs, hflows, hfs⟩ := flows_runAll hrun
  obtain ⟨-, rfl, -⟩ := enter_some henter
  refine ⟨fs, hflows, ?_⟩
  rw [ne_eq, hfs]
  constructor
  · intro hsome
    by_contra hspends
    refine hsome fun text m' hran => ?_
    by_contra htransfers
    exact hspends ⟨m, hcompletes, site, text, m',
      ⟨texts, _, henter, hran⟩, by simpa using htransfers⟩
  · rintro ⟨_, -, site', text, m', ⟨texts', m₁', henter', hran⟩, htransfers⟩ hnone
    rw [henter] at henter'
    cases henter'
    rw [hnone text m' hran] at htransfers
    cases htransfers

theorem spends_iff_lt (h : Completes ctx entries c m) : Spends ctx entries c ↔
    c.machine.path.analysis.flows.length < m.path.analysis.flows.length := by
  obtain ⟨fs, hflows, hspends⟩ := flows_completes h
  rw [← hspends, hflows, List.length_append, ← List.length_pos_iff]
  omega

/-! ### Calls -/

theorem Next.completes (h : Next ctx entries c d) :
    ∃ m places, Completes ctx entries c m ∧
      d.machine.path.analysis = { m.path.analysis with conditionPcs := places } := by
  obtain ⟨m, hcompletes, pc, conditions, places, hpath⟩ := h.path
  exact ⟨m, places, hcompletes, congrArg Path.analysis hpath⟩

theorem Next.flows (h : Next ctx entries c d) (hm : Completes ctx entries c m) :
    d.machine.path.analysis.flows = m.path.analysis.flows := by
  obtain ⟨m', places, hm', hanalysis⟩ := h.completes
  rw [hanalysis, hm.unique hm']

theorem flows_prefix_of_reach (h : Reaches ctx entries c d) :
    c.machine.path.analysis.flows <+: d.machine.path.analysis.flows := by
  induction h with
  | refl => exact List.prefix_refl _
  | tail _ hnext ih =>
    obtain ⟨m, places, hm, -⟩ := hnext.completes
    obtain ⟨fs, hflows, -⟩ := flows_completes hm
    rw [hnext.flows hm, hflows]
    exact ih.trans (List.prefix_append _ _)

end EvmAudit.Exec
