import EvmAudit.Proofs.Machine.Ledger

/-! What an instruction notes about money. A call whose amount is not the number zero and the
destruction of the contract are transfers. Whether such a call can be entered again is asked at
once, and the answer is kept with the path; a call is reported by the last answer on its path. -/

namespace EvmAudit

def Instruction.asks (i : Instruction) (p : Path) : Bool :=
  i.operation = .call && (p.stack[2]?).any fun amount => amount.toInt? ≠ some 0

def Instruction.transfers (i : Instruction) (p : Path) : Bool :=
  i.operation = .selfDestruct || i.asks p

def Path.uncharged (p : Path) : Path :=
  { p with analysis := { p.analysis with gas := 0, memoryGas := 0 } }

namespace Exec

variable {α β : Type} {ctx : Context}
variable {m m' : Machine} {i : Instruction}

/-! ### Computations that leave the path as it is -/

abbrev KeepsPath (x : Exec α) : Prop := Fixes Machine.path x

theorem keepsPath_inquire (i : Inquiry α) : KeepsPath (inquire ctx i) := by
  intro m
  obtain ⟨inner, s, -, -, ho⟩ := Inquiry.opens_inquire ctx i m
  rw [ho]
  rfl

theorem outcome_peek (n : Nat) (m : Machine) :
    (peek n).outcome m = ((m.path.stack[n]?).elim (.error .missingItem) .ok, m) := by
  rw [peek, outcome_bind_getPath]
  cases m.path.stack[n]? <;> rfl

theorem keepsPath_peek (n : Nat) : KeepsPath (peek n) := by
  intro m
  rw [outcome_peek]

/-! ### The question about a call -/

theorem keepsPath_checkReentrancy : KeepsPath (checkReentrancy ctx) := by
  have hsay {x : Exec Bool} (text : String) (hx : KeepsPath x) : KeepsPath (do
      if on ctx.settings.debugMode then say .info text
      x) :=
    fixes_ite (Fixes.bind (fun _ => rfl) fun _ => hx) hx
  refine Fixes.bind (fun _ => rfl) fun path => (keepsPath_peek 2).bind fun amount =>
    (fixes_ofExcept _).bind fun extra => hsay _ ?_
  exact (keepsPath_peek 0).bind fun gas => (fixes_ofExcept _).bind fun answer =>
    hsay _ (fixes_pure answer)

theorem answer_checkReentrancy (m : Machine) : ((checkReentrancy ctx).outcome m).1 = (do
    let amount ← (m.path.stack[2]?).elim (.error .missingItem) .ok
    let extra ← entryConditions m.path.conditions m.path.world.storage amount
    let gas ← (m.path.stack[0]?).elim (.error .missingItem) .ok
    mayReenter ctx m.path.conditions extra gas amount) := by
  have hsay (text : String) (m : Machine) (x : Exec Bool) (r : Except Fault Bool)
      (hx : ∀ m' : Machine, m'.path = m.path → (x.outcome m').1 = r) :
      ((do
        if on ctx.settings.debugMode then say .info text
        x).outcome m).1 = r := by
    split
    · exact hx _ rfl
    · exact hx _ rfl
  rw [checkReentrancy, outcome_bind_getPath, outcome_bind, outcome_peek]
  cases m.path.stack[2]? with
  | none => rfl
  | some amount =>
    change ((ofExcept (entryConditions m.path.conditions m.path.world.storage amount) >>= _).outcome
      m).1 = (entryConditions m.path.conditions m.path.world.storage amount >>= _)
    rw [outcome_bind, outcome_ofExcept]
    cases entryConditions m.path.conditions m.path.world.storage amount with
    | error e => rfl
    | ok extra =>
      refine hsay _ m _ _ fun m' hm' => ?_
      rw [outcome_bind, outcome_peek, hm']
      cases m.path.stack[0]? with
      | none => rfl
      | some gas =>
        change ((ofExcept (mayReenter ctx m.path.conditions extra gas amount) >>= _).outcome m').1 =
          mayReenter ctx m.path.conditions extra gas amount
        rw [outcome_bind, outcome_ofExcept]
        cases mayReenter ctx m.path.conditions extra gas amount with
        | error e => rfl
        | ok answer => exact hsay _ m' _ _ fun _ _ => rfl

theorem checkReentrancy_congr (h : m'.path.uncharged = m.path.uncharged) :
    ((checkReentrancy ctx).outcome m').1 = ((checkReentrancy ctx).outcome m).1 := by
  have hstack : m'.path.stack = m.path.stack := (congrArg Path.stack h :)
  have hconditions : m'.path.conditions = m.path.conditions := (congrArg Path.conditions h :)
  have hworld : m'.path.world = m.path.world := (congrArg Path.world h :)
  rw [answer_checkReentrancy, answer_checkReentrancy, hstack, hconditions, hworld]

/-! ### What is noted -/

theorem uncharged_charge (h : i.operation = .call) (m : Machine) :
    ((Gas.charge ctx i).outcome m).2.path.uncharged = m.path.uncharged := by
  have hvalue (amount : Value) : KeepsPath (Gas.callValue ctx amount) := by
    unfold Gas.callValue
    split
    · exact fixes_pure _
    · exact (keepsPath_inquire _).bind fun free => fixes_pure _
  have hdynamic : KeepsPath (Gas.dynamic ctx i.operation) := by
    rw [h]
    refine Fixes.bind (fun _ => rfl) fun path => ?_
    match path.stack with
    | [] | [_] | [_, _] => exact fixes_pure 0
    | _ :: _ :: amount :: _ => exact (hvalue amount).bind fun n => fixes_pure _
  have hpath := hdynamic m
  rw [Gas.charge, outcome_bind]
  generalize (Gas.dynamic ctx i.operation).outcome m = o at hpath ⊢
  obtain ⟨e | n, m₁⟩ := o
  · exact congrArg Path.uncharged hpath
  · exact (congrArg Path.uncharged hpath :)

/-- What becomes of the dealings when an instruction is looked at, before it is performed. -/
inductive Looked (ctx : Context) (i : Instruction) (m : Machine) :
    Except Fault Unit × Machine → Prop
  | fails {e : Fault} {m' : Machine} (h : m'.ledger.dealings = m.ledger.dealings) :
      Looked ctx i m (.error e, m')
  | passes {m' : Machine} (hi : i.transfers m.path = false)
      (h : m'.ledger.dealings = m.ledger.dealings) : Looked ctx i m (.ok (), m')
  | destroys (flow : Flow) {m' : Machine} (hi : i.operation = .selfDestruct)
      (h : m'.ledger.dealings =
        { m.ledger.dealings with flows := m.ledger.dealings.flows ++ [flow] }) :
      Looked ctx i m (.ok (), m')
  | pays (flow : Flow) {answer : Bool} {m' : Machine} (hi : i.asks m.path = true)
      (hanswer : ((checkReentrancy ctx).outcome m).1 = .ok answer)
      (h : m'.ledger.dealings =
        { m.ledger.dealings with
          flows := m.ledger.dealings.flows ++ [flow]
          answers := m.ledger.dealings.answers ++ [answer] }) :
      Looked ctx i m (.ok (), m')

theorem Looked.congr {o : Except Fault Unit × Machine} (hasks : i.asks m'.path = i.asks m.path)
    (hanswer : i.asks m.path = true →
      ((checkReentrancy ctx).outcome m').1 = ((checkReentrancy ctx).outcome m).1)
    (hdealings : m'.ledger.dealings = m.ledger.dealings) (h : Looked ctx i m' o) :
    Looked ctx i m o := by
  cases h with
  | fails h => exact .fails (h.trans hdealings)
  | passes hi h =>
    refine .passes ?_ (h.trans hdealings)
    rwa [Instruction.transfers, ← hasks]
  | destroys flow hi h => exact .destroys flow hi (by rw [h, hdealings])
  | pays flow hi hb h =>
    rw [hasks] at hi
    exact .pays flow hi ((hanswer hi).symm.trans hb) (by rw [h, hdealings])

theorem looked_call (hi : i.operation = .call) (m : Machine) :
    Looked ctx i m ((noteMove ctx .call).outcome m) := by
  have hasks {amount : Value} (h : m.path.stack[2]? = some amount) :
      i.asks m.path = decide (amount.toInt? ≠ some 0) := by
    simp [Instruction.asks, hi, h]
  rw [noteMove, outcome_bind, outcome_peek]
  cases m.path.stack[1]? with
  | none => exact .fails rfl
  | some recipient =>
    dsimp only [Option.elim]
    rw [outcome_bind, outcome_peek]
    cases hamount : m.path.stack[2]? with
    | none => exact .fails rfl
    | some amount =>
      dsimp only [Option.elim]
      split
      next hzero =>
        refine .passes ?_ rfl
        simp [Instruction.transfers, hi, hasks hamount, hzero]
      next hzero =>
        rw [outcome_bind, outcome_ofExcept]
        cases recipientText ctx recipient with
        | error e => exact .fails rfl
        | ok text =>
          dsimp only
          have hledger := (@touches_checkReentrancy ctx).steady m
          rw [outcome_bind]
          rcases hanswer : (checkReentrancy ctx).outcome m with ⟨e | answer, m₁⟩ <;>
            rw [hanswer] at hledger
          · exact .fails (congrArg Ledger.dealings hledger)
          · have hpath : m₁.path = m.path := by
              have hkept := @keepsPath_checkReentrancy ctx m
              rwa [hanswer] at hkept
            have halarms : m₁.shared.problems.reentrancy = m.shared.problems.reentrancy :=
              congrArg Ledger.alarms hledger
            refine .pays ⟨"Ia", text, ctx.print.value amount⟩
              (by rw [hasks hamount, decide_eq_true hzero]) (by rw [hanswer]) ?_
            change Dealings.mk (m₁.path.analysis.flows ++ [⟨"Ia", text, ctx.print.value amount⟩])
              (m₁.path.analysis.reentrancy ++ [answer]) m₁.shared.problems.reentrancy = _
            rw [hpath, halarms]
            rfl

theorem looked_selfDestruct (hi : i.operation = .selfDestruct) (m : Machine) :
    Looked ctx i m ((noteMove ctx .selfDestruct).outcome m) := by
  rw [noteMove, outcome_bind, outcome_peek]
  cases m.path.stack[0]? with
  | none => exact .fails rfl
  | some recipient =>
    dsimp only [Option.elim]
    rw [outcome_bind, outcome_ofExcept]
    cases recipientText ctx recipient with
    | error e => exact .fails rfl
    | ok text => exact .destroys ⟨"Ia", text, "all_remaining"⟩ hi rfl

theorem looked_noteMove (i : Instruction) (m : Machine) :
    Looked ctx i m ((noteMove ctx i.operation).outcome m) := by
  by_cases hcall : i.operation = .call
  · rw [hcall]
    exact looked_call hcall m
  · by_cases hdestroys : i.operation = .selfDestruct
    · rw [hdestroys]
      exact looked_selfDestruct hdestroys m
    · have hnone : noteMove ctx i.operation = pure () := by
        unfold noteMove
        split <;> simp_all
      rw [hnone]
      exact .passes (by simp [Instruction.transfers, Instruction.asks, hcall, hdestroys]) rfl

theorem looked_updateAnalysis (i : Instruction) (m : Machine) :
    Looked ctx i m ((updateAnalysis ctx i).outcome m) := by
  have hledger := @steady_charge ctx i m
  have hcharged : i.operation = .call →
      ((Gas.charge ctx i).outcome m).2.path.uncharged = m.path.uncharged :=
        fun h => uncharged_charge h m
  rw [updateAnalysis, outcome_bind]
  generalize (Gas.charge ctx i).outcome m = o at hledger hcharged ⊢
  obtain ⟨e | u, m₁⟩ := o
  · exact .fails (congrArg Ledger.dealings hledger)
  · replace hledger : m₁.ledger.dealings = m.ledger.dealings := congrArg Ledger.dealings hledger
    have hasks : i.asks m₁.path = i.asks m.path := by
      unfold Instruction.asks
      by_cases hcall : i.operation = .call
      · have hstack : m₁.path.stack = m.path.stack := (congrArg Path.stack (hcharged hcall) :)
        rw [hstack]
      · simp [hcall]
    refine (looked_noteMove i m₁).congr hasks (fun hi => ?_) hledger
    simp only [Instruction.asks, Bool.and_eq_true, decide_eq_true_eq] at hi
    exact checkReentrancy_congr (hcharged hi.1)

theorem pc_updateAnalysis
    (h : (updateAnalysis ctx i).outcome m = (.ok (), m')) : m'.path.world.pc = m.path.world.pc := by
  have hmoves : Moves m.path.world.pc (-1) ⟨0, 0, 0⟩ (updateAnalysis ctx i) ⟨0, 0, 0⟩ :=
    (quiet_charge i).then fun _ => moves_noteMove _
  have hpc := ((hmoves m.marks m (Motion.reached_start (-1) m.marks)).2 () m' h).pc
  rwa [Int.add_zero] at hpc

end Exec

end EvmAudit
