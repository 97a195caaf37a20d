import EvmAudit.Proofs.Machine.Leaks

/-! What charging an instruction leaves open, and with it what a whole step leaves open. -/

namespace EvmAudit

namespace Gas

open Exec

variable {ctx : Context}

/-! ### Fees -/

def storeLeft (p : Printer) (storage : Table Key Value) (place value : Value) : Nat :=
  (match storageAt? p storage place with
    | none => 0
    | some old => askLeft (do let _ ← old.eq (.int 0); value.ne (.int 0))) +
  askLeft (value.ne (.int 0))

theorem outcome_storeFee (f : Formula) (m : Machine) :
    ∃ fee, (storeFee ctx f).outcome (m.withSolver m.shared.solver.push) =
      (.ok fee, m.withSolver { m.shared.solver with hasModel := false }) := ⟨_, rfl⟩

theorem leaves_storeNew (value : Value) :
    Leaves (fun _ => askLeft (value.ne (.int 0))) (do
      pushScope
      let nonzero ← Exec.ofExcept (value.ne (.int 0))
      storeFee ctx nonzero.not) := by
  intro m
  rw [outcome_bind, outcome_pushScope]
  dsimp only
  rw [outcome_bind, outcome_ofExcept]
  cases value.ne (.int 0) with
  | error e => exact .of_solver (Solver.Left.push _)
  | ok nonzero =>
    obtain ⟨fee, h⟩ := @outcome_storeFee ctx nonzero.not m
    dsimp only
    rw [h]
    exact .of_solver (Solver.Left.of_frames rfl)

theorem leaves_storeSymbol (place value : Value) :
    Leaves (fun m => storeLeft ctx.print m.path.world.storage place value)
    (storeSymbol ctx place value) := by
  intro m
  dsimp only [storeLeft]
  rw [storeSymbol, outcome_tryCatch, storeOver, outcome_bind_getWorld]
  cases storageAt? ctx.print m.path.world.storage place with
  | none => exact (Machine.Changes.refl m).trans (leaves_storeNew value m)
  | some old =>
    have hpush : m.Changes 1 (m.withSolver m.shared.solver.push) :=
      .of_solver (Solver.Left.push _)
    have hnew := @leaves_storeNew ctx value (m.withSolver m.shared.solver.push)
    dsimp only
    rw [outcome_bind, outcome_pushScope]
    dsimp only
    rw [outcome_bind, outcome_ofExcept]
    cases old.eq (.int 0) with
    | error e => exact hpush.trans hnew
    | ok wasZero =>
      dsimp only
      rw [outcome_bind, outcome_ofExcept]
      cases hne : value.ne (.int 0) with
      | error e =>
        rw [hne] at hnew
        exact hpush.trans hnew
      | ok nonzero =>
        obtain ⟨fee, h⟩ := @outcome_storeFee ctx (.not (.and wasZero.formula nonzero.formula)) m
        dsimp only
        rw [h]
        exact .of_solver (Solver.Left.of_frames rfl)

theorem leaves_callValue (amount : Value) :
    Leaves (fun _ => if amount.isConcrete then 0 else askLeft (amount.ne (.int 0)))
    (callValue ctx amount) := by
  intro m
  unfold callValue Value.isConcrete
  cases amount.toInt? with
  | some n => exact .refl m
  | none =>
    have hrest (free : Bool) : Tame (pure (if free = true then 0 else Fee.callValue) : Exec Int) :=
      tame_pure _
    have h := (leaves_inquire ctx (.whether do return (← amount.ne (.int 0)).not)).bind_tame hrest m
    simp only [left_whether] at h
    cases hne : amount.ne (.int 0) <;> rw [hne] at h <;> exact h

def feeLeft (ctx : Context) (op : Operation) (m : Machine) : Nat :=
  match op, m.path.stack with
  | .sstore, place :: value :: _ =>
    if value.isConcrete then 0 else storeLeft ctx.print m.path.world.storage place value
  | .call, _ :: _ :: amount :: _ | .callCode, _ :: _ :: amount :: _
  | .delegateCall, _ :: _ :: amount :: _ =>
    if amount.isConcrete then 0 else askLeft (amount.ne (.int 0))
  | _, _ => 0

def asksFee : Operation → Bool
  | .sstore | .call | .callCode | .delegateCall => true
  | _ => false

theorem still_dynamic {op : Operation} (h : asksFee op = false) (m : Machine) :
    ((dynamic ctx op).outcome m).2 = m := by
  rw [dynamic, outcome_bind_getPath]
  dsimp only
  split <;> simp [asksFee] at h <;> try rfl
  all_goals split <;> rfl

theorem feeLeft_of_asksFee {op : Operation} (h : asksFee op = false) (m : Machine) :
    feeLeft ctx op m = 0 := by
  unfold feeLeft
  split
  · cases h
  · cases h
  · cases h
  · cases h
  · rfl

theorem leaves_dynamic (op : Operation) : Leaves (feeLeft ctx op) (dynamic ctx op) := by
  intro m
  cases h : asksFee op with
  | false =>
    rw [still_dynamic h m, feeLeft_of_asksFee h m]
    exact .refl m
  | true =>
    have hcall (amount : Value) :
        m.Changes _ ((do return Fee.call + (← callValue ctx amount) : Exec Int).outcome m).2 :=
      (leaves_callValue amount).bind_tame (fun _ => tame_pure _) m
    rw [dynamic, outcome_bind_getPath]
    dsimp only [feeLeft]
    cases op <;> simp only [asksFee, Bool.false_eq_true] at h
    · rcases m.path.stack with _ | ⟨place, _ | ⟨value, rest⟩⟩
      · exact .refl m
      · exact .refl m
      · dsimp only
        cases hv : value.toInt? with
        | some n =>
          rw [if_pos (by rw [Value.isConcrete, hv]; rfl)]
          exact .refl m
        | none =>
          rw [if_neg (by simp [Value.isConcrete, hv])]
          exact leaves_storeSymbol place value m
    all_goals
      rcases m.path.stack with _ | ⟨gas, _ | ⟨recipient, _ | ⟨amount, rest⟩⟩⟩
      · exact .refl m
      · exact .refl m
      · exact .refl m
      · exact hcall amount

end Gas

namespace Exec

variable {ctx : Context}
variable {m m' : Machine}

theorem leaves_updateAnalysis (instruction : Instruction) :
    Leaves (Gas.feeLeft ctx instruction.operation) (updateAnalysis ctx instruction) :=
  ((Gas.leaves_dynamic _).bind_tame fun _ =>
    touches_getPath.bind fun _ => touches_step .fees fun _ => ⟨(_, _), trivial, rfl⟩).bind_tame
    fun _ =>
    tame_of_touches (touches_noteMove instruction.operation) (by decide)

theorem outcome_markVisited (m : Machine) :
    ∃ pcs, markVisited.outcome m =
      (.ok (), { m with shared := { m.shared with visitedPcs := pcs } }) := by
  by_cases h : m.shared.visitedPcs.contains m.path.world.pc = true
  · refine ⟨m.shared.visitedPcs, ?_⟩
    change (Except.ok (), { m with shared := if _ then _ else _ }) = _
    rw [if_pos h]
  · refine ⟨m.path.world.pc :: m.shared.visitedPcs, ?_⟩
    change (Except.ok (), { m with shared := if _ then _ else _ }) = _
    rw [if_neg h]

theorem tame_markVisited : Tame markVisited :=
  tame_of_touches (touches_markVisited : Touches [.visitedPcs] markVisited) (by decide)

theorem plain_of_asksSolver {op : Operation} (h : asksSolver op = true) :
    Gas.asksFee op = false ∧ isFree op = false ∧ op ≠ .call ∧ noteMove ctx op = pure () := by
  cases op <;> first | exact ⟨rfl, rfl, by decide, rfl⟩ | cases h

theorem performLeft_of_asksSolver {site : Site} {op : Operation} (h : asksSolver op = false) :
    performLeft ctx site op = fun _ => 0 := by
  cases op <;> first | rfl | cases h

def tooManyBytes (v : Value) : Bool :=
  match v.toInt? with
  | none => false
  | some n => match Gas.copyWords n with
    | .error _ => true
    | .ok _ => false

def feeFails (op : Operation) (stack : List Value) : Bool :=
  match op, stack with
  | .extCodeCopy, _ :: _ :: third :: _ => tooManyBytes third
  | .codeCopy, _ :: _ :: _ :: fourth :: _ => tooManyBytes fourth
  | _, _ => false

def scopesLeft (ctx : Context) (site : Site) (op : Operation) (m : Machine) : Nat :=
  if Gas.asksFee op then Gas.feeLeft ctx op m
  else if feeFails op m.path.stack then 0
  else performLeft ctx site op m

def copyFee (v : Value) : Exec Int :=
  match v.toInt? with
  | some n => Exec.ofExcept do return Fee.copy * (← Gas.copyWords n)
  | none => return 0

theorem isOk_copyFee (v : Value) (m : Machine) :
    ((copyFee v).outcome m).1.isOk = !tooManyBytes v := by
  unfold tooManyBytes copyFee
  cases v.toInt? with
  | none => rfl
  | some n =>
    dsimp only
    cases Gas.copyWords n <;> rfl

theorem isOk_dynamic {op : Operation} (h : asksSolver op = true) (m : Machine) :
    ((Gas.dynamic ctx op).outcome m).1.isOk = !feeFails op m.path.stack := by
  rw [Gas.dynamic, outcome_bind_getPath]
  dsimp only [feeFails]
  cases op <;> simp only [asksSolver, Bool.false_eq_true] at h
  case codeCopy =>
    rcases m.path.stack with _ | ⟨a, _ | ⟨b, _ | ⟨c, _ | ⟨d, rest⟩⟩⟩⟩
    · rfl
    · rfl
    · rfl
    · rfl
    · exact isOk_copyFee d m
  case extCodeCopy =>
    rcases m.path.stack with _ | ⟨a, _ | ⟨b, _ | ⟨c, rest⟩⟩⟩
    · rfl
    · rfl
    · rfl
    · exact isOk_copyFee c m
  all_goals rfl

theorem prepare_of_asksSolver {instruction : Instruction}
    (h : asksSolver instruction.operation = true) (m : Machine) :
    ((prepare ctx instruction).outcome m).1.isOk = !feeFails instruction.operation m.path.stack ∧
      m.AlikeBut [.fees] ((prepare ctx instruction).outcome m).2 := by
  obtain ⟨hfee, hfree, hcall, hmove⟩ := @plain_of_asksSolver ctx _ h
  have hok := @isOk_dynamic ctx _ h m
  have hstill := @Gas.still_dynamic ctx _ hfee m
  simp only [prepare, hfree, Bool.false_eq_true, if_false, hcall, updateAnalysis, hmove, Gas.charge,
    outcome_bind]
  generalize (Gas.dynamic ctx instruction.operation).outcome m = o at hok hstill ⊢
  obtain ⟨_ | _, m'⟩ := o <;> cases hstill
  · exact ⟨hok, .refl m'⟩
  · exact ⟨hok, .of_replace (q := .fees) (by decide) m' (_, _)⟩

section Alike

variable (h : m.AlikeBut [.executed, .visitedPcs, .fees] m')
include h

theorem performLeft_of_alike (site : Site) (op : Operation) :
    performLeft ctx site op m' = performLeft ctx site op m := by
  have hknown (address : Value) : knownWord? m'.path address = knownWord? m.path address := by
    simp only [knownWord?, h.words, h.activeWords]
  cases op with
  | mstore =>
    simp only [performLeft, mstoreLeft, accessLeft, growLeft, Inquiry.left, h.stack, h.activeWords,
      h.solver]
    rcases m.path.stack with _ | ⟨address, _ | ⟨v, rest⟩⟩
    · rfl
    · rfl
    · dsimp only
      rw [(@onBytes_storeBytes ctx address v _ _ h.bytes).1]
  | _ =>
    simp only [performLeft, onTwo, addLeft, subLeft, wrapLeft, settleLeft, byteLeft, modularLeft,
      mloadLeft, mstore8Left, codeCopyLeft, extCodeCopyLeft, copyLeft, accessLeft, growLeft,
      Inquiry.left, hknown, h.stack, h.activeWords, h.graph, h.solver]

theorem scopesLeft_of_alike (site : Site) (op : Operation) :
    scopesLeft ctx site op m' = scopesLeft ctx site op m := by
  unfold scopesLeft Gas.feeLeft
  rw [h.stack, h.storage, performLeft_of_alike h]

end Alike

theorem leaves_prepare (instruction : Instruction) :
    Leaves (Gas.feeLeft ctx instruction.operation) (prepare ctx instruction) := by
  have hnote : Tame (if instruction.operation = .call then noteReentrancy else pure ()) :=
    touches_ite (tame_of_touches touches_noteReentrancy (by decide)) (tame_pure ())
  intro m
  unfold prepare
  split
  next h =>
    have hfee : Gas.asksFee instruction.operation = false := by
      cases hop : instruction.operation <;> rw [hop] at h <;> first | rfl | cases h
    rw [Gas.feeLeft_of_asksFee hfee]
    exact .refl m
  · exact (leaves_updateAnalysis instruction).bind_tame (fun _ => hnote) m

theorem leaves_step (site : Site) (instruction : Instruction) :
    Leaves (scopesLeft ctx site instruction.operation) (step ctx site instruction) := by
  intro m
  obtain ⟨pcs, hvisited⟩ := outcome_markVisited m
  have hmark := tame_markVisited m
  have halike : m.AlikeBut [.executed, .visitedPcs, .fees] _ := touches_markVisited m
  rw [step, outcome_bind]
  rw [hvisited] at hmark halike ⊢
  generalize { m with shared := { m.shared with visitedPcs := pcs } } = m₁ at hmark halike ⊢
  refine hmark.zero_trans ?_
  dsimp only
  rw [← scopesLeft_of_alike halike, scopesLeft]
  have hperform := @leaves_perform ctx site instruction.name instruction.operation
  cases hsolver : asksSolver instruction.operation with
  | false =>
    rw [performLeft_of_asksSolver hsolver] at hperform ⊢
    have h := (@leaves_prepare ctx instruction).bind_tame (fun _ => hperform) m₁
    cases hfee : Gas.asksFee instruction.operation with
    | true => exact h
    | false =>
      rw [Gas.feeLeft_of_asksFee hfee] at h
      simpa using h
  | true =>
    obtain ⟨hfee, -⟩ := @plain_of_asksSolver ctx _ hsolver
    have hprepare := @leaves_prepare ctx instruction m₁
    rw [Gas.feeLeft_of_asksFee hfee] at hprepare
    obtain ⟨hok, halike⟩ := @prepare_of_asksSolver ctx _ hsolver m₁
    rw [hfee, if_neg Bool.false_ne_true, outcome_bind]
    generalize (prepare ctx instruction).outcome m₁ = o at hok halike hprepare ⊢
    obtain ⟨e | _, m₂⟩ := o
    · rw [if_pos (by simpa [Except.isOk, Except.toBool] using hok)]
      exact hprepare
    · rw [if_neg (by simpa [Except.isOk, Except.toBool] using hok)]
      rw [← performLeft_of_alike (halike.mono (by decide))]
      exact hprepare.zero_trans (hperform m₂)

end Exec

end EvmAudit
