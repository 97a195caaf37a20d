import EvmAudit.Proofs.Explore.Reentry

/-! What calls spend. A call that is paid for has compared its amount with the balance of the
contract as signed words, and takes it from the balance as words do. -/

namespace EvmAudit

theorem Word.le_iff_of_sle {x y : Word} (h : x.sle y = true) :
    x ≤ y ↔ (x.msb = true → y.msb = true) := by
  rw [BitVec.sle_iff_toInt_le, BitVec.toInt_eq_msb_cond, BitVec.toInt_eq_msb_cond] at h
  have hx := x.isLt
  have hy := y.isLt
  rw [BitVec.le_def]
  rw [BitVec.msb_eq_decide, BitVec.msb_eq_decide] at h ⊢
  simp only [decide_eq_true_eq] at h ⊢
  split_ifs at h <;> omega

theorem Word.sub_exact_iff (x y : Word) : (y - x).toNat + x.toNat = y.toNat ↔ x ≤ y := by
  rw [BitVec.le_def]
  constructor
  · omega
  · intro h
    rw [BitVec.toNat_sub_of_le (BitVec.le_def.2 h)]
    omega

namespace Value

variable {amount held left : Value} {enough : Condition}
variable {env : Assignment}

theorem le_words {t : Term} (hword : amount = .word t ∨ held = .word t)
    (h : amount.le held = .ok enough) : ∃ x y, amount.asTerm = .ok x ∧ held.asTerm = .ok y ∧
      ∀ env, enough.formula.eval env = (x.eval env).sle (y.eval env) := by
  have hrelate (x y : Term) (env : Assignment) :
      (relate .sle x y).formula.eval env = (x.eval env).sle (y.eval env) := by
    unfold relate
    split <;> rfl
  have hother {v : Except Fault Term} {f : Term → Condition}
      (h : (do return f (← v)) = Except.ok enough) : ∃ x, v = .ok x ∧ enough = f x := by
    cases v <;> cases h
    exact ⟨_, rfl, rfl⟩
  rcases hword with rfl | rfl
  · cases held with
    | word y =>
      cases h
      exact ⟨t, y, rfl, rfl, hrelate t y⟩
    | _ =>
      obtain ⟨y, hy, rfl⟩ := hother h
      exact ⟨t, y, rfl, hy, fun _ => rfl⟩
  · cases amount with
    | word x =>
      cases h
      exact ⟨x, t, rfl, rfl, hrelate x t⟩
    | _ =>
      obtain ⟨x, hx, rfl⟩ := hother h
      exact ⟨x, t, hx, rfl, fun _ => rfl⟩

theorem le_of_le {a n : Int} (ha : amount.toInt? = some a) (hn : held.toInt? = some n)
    (h : amount.le held = .ok enough) (henv : enough.formula.eval env = true) : a ≤ n := by
  have hle : amount.le held = .ok (.settled (compare a n != .gt)) := by
    cases amount <;> cases ha <;> cases held <;> cases hn <;> rfl
  rw [hle] at h
  cases h
  simpa [Condition.formula, Formula.eval, compare_gt_iff_gt] using henv

theorem sub_words {t x y : Term} (hword : amount = .word t ∨ held = .word t)
    (hx : amount.asTerm = .ok x) (hy : held.asTerm = .ok y) (h : held.sub amount = .ok left) :
    left = .word (.binary .sub y x) := by
  rcases hword with rfl | rfl
  · cases hx
    cases held with
    | word z =>
      cases hy
      cases h
      rfl
    | _ =>
      simp only [sub, Arithmetic.apply, hy] at h
      cases h
      rfl
  · cases hy
    simp only [sub, Arithmetic.apply, hx] at h
    cases h
    rfl

theorem sub_ints {a n : Int} (ha : amount.toInt? = some a)
    (hn : held.toInt? = some n) (h : held.sub amount = .ok left) : left = .int (n - a) := by
  cases amount <;> cases ha <;> cases held <;> cases hn <;> cases h <;> rfl

/-- What is left of a balance after a call has spent an amount, where the assignment is one that the
call allows. Numbers are compared by value. Words are compared as signed ones, so that the amount is
less by size, and what is left does not wrap, unless only the amount has the sign. -/
structure Spent (env : Assignment) (amount held left : Value) : Prop where
  numbers (a n : Int) : amount.toInt? = some a → held.toInt? = some n → left = .int (n - a) ∧ a ≤ n
  words (t : Term) : amount = .word t ∨ held = .word t → ∃ x y z,
    amount.asTerm = .ok x ∧ held.asTerm = .ok y ∧ left = .word z ∧
    (x.eval env).sle (y.eval env) = true ∧ z.eval env = y.eval env - x.eval env ∧
    (x.eval env ≤ y.eval env ↔ ((x.eval env).msb = true → (y.eval env).msb = true)) ∧
    ((z.eval env).toNat + (x.eval env).toNat = (y.eval env).toNat ↔ x.eval env ≤ y.eval env)

theorem spent_of_le (hle : amount.le held = .ok enough) (hsub : held.sub amount = .ok left)
    (henv : enough.formula.eval env = true) : Spent env amount held left where
  numbers a n ha hn := ⟨sub_ints ha hn hsub, le_of_le ha hn hle henv⟩
  words t hword := by
    obtain ⟨x, y, hx, hy, heval⟩ := le_words hword hle
    have hsle := (heval env).symm.trans henv
    exact ⟨x, y, _, hx, hy, sub_words hword hx hy hsub, hsle, rfl, Word.le_iff_of_sle hsle,
      Word.sub_exact_iff _ _⟩

end Value

namespace Exec

variable {α β : Type} {ctx : Context} {entries : Table Int String}
variable {m m' : Machine} {gas recipient : Value} {rest : List Value}

def ownBalance (m : Machine) : Option Value := m.path.world.balance.get? "Ia"

theorem balanceOf_ok {owner : String} {v : Value}
    (h : (balanceOf owner).outcome m = (.ok v, m')) :
    m = m' ∧ m.path.world.balance.get? owner = some v := by
  rw [balanceOf, outcome_bind_getWorld] at h
  split at h <;> cases h
  exact ⟨rfl, ‹_›⟩

theorem pay_ok {paid : Bool} (h : (pay ctx amount).outcome m = (.ok paid, m')) :
    ∃ held enough, ownBalance m = some held ∧ amount.le held = .ok enough ∧
      ownBalance m' = some held ∧ m'.path.stack.head? = some (.int (if paid then 1 else 0)) ∧
      (paid = true → enough ∈ m'.path.conditions ∧
        enough.formula ∈ m'.shared.solver.assertions) := by
  obtain ⟨held, m₁, hheld, h⟩ := outcome_bind_eq_ok.1 h
  obtain ⟨rfl, hown⟩ := balanceOf_ok hheld
  obtain ⟨enough, hle, h⟩ := outcome_ofExcept_bind_eq_ok.1 h
  obtain ⟨can, m₂, hcan, h⟩ := outcome_bind_eq_ok.1 h
  obtain ⟨-, s, -, rfl⟩ := outcome_inquire_ok hcan
  cases can with
  | false =>
    cases h
    exact ⟨held, enough, hown, hle, hown, rfl, by simp⟩
  | true =>
    cases h
    refine ⟨held, enough, hown, hle, hown, rfl, fun _ => ⟨by simp, ?_⟩⟩
    exact Solver.assertions_add _ _ ▸ by simp

abbrev LeavesOwn (x : Exec α) : Prop := Fixes ownBalance x

theorem leavesOwn_of_touches {x : Exec α} (h : Touches [.names, .vars, .solver, .conditions] x) :
    LeavesOwn x := fun m =>
  congrArg (fun t : Table String Value => t.get? "Ia") (h m .balance (by decide))

theorem leavesOwn_setBalance {owner : String} (h : owner ≠ "Ia") (v : Value) :
    LeavesOwn (setBalance owner v) := fun _ => Table.get?_insert_of_ne h.symm _ _

theorem stem_append_ne {stem : String} (h : 2 < stem.length) (s : String) : stem ++ s ≠ "Ia" := by
  intro heq
  have hlength := congrArg String.length heq
  have hshort : "Ia".length = 2 := rfl
  rw [String.length_append, hshort] at hlength
  omega

theorem leavesOwn_creditUnknown (recipient amount : Value) :
    LeavesOwn (creditUnknown recipient amount) := by
  have hcredit {owner : String} (howner : owner ≠ "Ia") : LeavesOwn (creditTo amount owner) :=
    (leavesOwn_of_touches (touches_fresh _)).bind fun name =>
      (leavesOwn_of_touches (touches_declare name)).bind fun _ =>
      (leavesOwn_of_touches (touches_ofExcept _)).bind fun known =>
      (leavesOwn_of_touches (touches_assertThat known)).bind fun _ =>
      (leavesOwn_of_touches (touches_addCondition known)).bind fun _ =>
      (leavesOwn_of_touches (touches_ofExcept _)).bind fun v => leavesOwn_setBalance howner v
  rw [creditUnknown_eq, ownerOf]
  split
  · rw [pure_bind]
    exact hcredit (stem_append_ne (by decide) _)
  · intro m
    have hfresh := (leavesOwn_of_touches (touches_fresh Names.freshAddress)) m
    rw [outcome_bind]
    exact (hcredit (stem_append_ne (by decide) _) _).trans hfresh

theorem moveValue_eq (recipient amount : Value) : ∃ credit, moveValue ctx recipient amount =
    (do let held ← balanceOf "Ia"; setBalance "Ia" (← ofExcept (held.sub amount)); credit) ∧
      LeavesOwn credit := by
  refine ⟨_, moveValue_eq_credit recipient amount,
    (leavesOwn_of_touches touches_getPath).bind fun path =>
    (leavesOwn_of_touches (touches_ofExcept _)).bind fun sender =>
    (leavesOwn_of_touches (touches_ofExcept _)).bind fun address =>
    (leavesOwn_of_touches (touches_ofExcept _)).bind fun other =>
    (leavesOwn_of_touches (touches_inquire _)).bind fun may => ?_⟩
  split
  · exact leavesOwn_creditUnknown recipient amount
  · exact (leavesOwn_of_touches (touches_balanceOf _)).bind fun old =>
      (leavesOwn_of_touches (touches_ofExcept _)).bind fun v => leavesOwn_setBalance (by decide) v

theorem moveValue_ok (hheld : ownBalance m = some held)
    (h : (moveValue ctx recipient amount).outcome m = (.ok (), m')) :
    ∃ left, held.sub amount = .ok left ∧ ownBalance m' = some left := by
  obtain ⟨credit, heq, hcredit⟩ := @moveValue_eq ctx recipient amount
  rw [heq] at h
  obtain ⟨held', m₁, hheld', h⟩ := outcome_bind_eq_ok.1 h
  obtain ⟨rfl, hown⟩ := balanceOf_ok hheld'
  cases hheld.symm.trans hown
  obtain ⟨left, hleft, h⟩ := outcome_ofExcept_bind_eq_ok.1 h
  obtain ⟨_, m₁, hset, h⟩ := outcome_bind_eq_ok.1 h
  cases hset
  have hkept := hcredit ((setBalance "Ia" left).outcome m).2
  rw [show credit.outcome ((setBalance "Ia" left).outcome m).2 = _ from h] at hkept
  exact ⟨left, hleft, hkept.trans (Table.get?_insert_self _ _ _)⟩

theorem outcome_operands (f : Value → Value → Exec α)
    (h : m.path.stack = gas :: recipient :: amount :: rest) :
    (do advance 1; drop 1; let recipient ← pop; let amount ← pop; f recipient amount).outcome m =
      (f recipient amount).outcome (m.taken rest) := by
  change (do drop 1; let recipient ← pop; let amount ← pop; f recipient amount).outcome
    (m.taken m.path.stack) = _
  rw [h]
  rfl

theorem call_ok (hstack : m.path.stack = gas :: recipient :: amount :: rest)
    (hzero : amount.toInt? ≠ some 0) (h : (call ctx).outcome m = (.ok (), m'))
    (htop : m'.path.stack.head? = some (.int 1)) : ∃ held enough left, ownBalance m = some held ∧
    amount.le held = .ok enough ∧
      held.sub amount = .ok left ∧ ownBalance m' = some left ∧ enough ∈ m'.path.conditions ∧
      ∀ env, allHold env m'.shared.solver.assertions = true → enough.formula.eval env = true := by
  unfold call at h
  obtain ⟨_, m₁, hneed, h⟩ := outcome_bind_eq_ok.1 h
  obtain ⟨_, m₂, hnote, h⟩ := outcome_bind_eq_ok.1 h
  have hnoted : m.AlikeBut [.calls, .affected] m₂ := by
    have hneeds : Machine.AlikeBut [.calls, .affected] _ _ := touches_need 7 m
    have hnotes : Machine.AlikeBut [.calls, .affected] _ _ := touches_noteCall m₁
    rw [hneed] at hneeds
    rw [hnote] at hnotes
    exact hneeds.trans hnotes
  have hstack₂ : m₂.path.stack = _ := hnoted.stack.trans hstack
  rw [outcome_operands _ hstack₂] at h
  obtain ⟨_, m₃, hdrop, h⟩ := outcome_bind_eq_ok.1 h
  rw [if_neg hzero] at h
  obtain ⟨paid, m₄, hpay, h⟩ := outcome_bind_eq_ok.1 h
  obtain ⟨held, enough, hheld, hle, hheld', hput, hpaid⟩ := pay_ok hpay
  have hheld₁ : ownBalance m = some held := by
    have hdrops : Machine.AlikeBut [.stack] _ m₃ := Touches.alike (touches_drop 4) hdrop
    have hbalance : m₃.path.world.balance = m₂.path.world.balance := hdrops.balance
    rwa [ownBalance, hbalance, hnoted.balance] at hheld
  cases paid with
  | false =>
    cases h
    rw [hput] at htop
    cases htop
  | true =>
    obtain ⟨hcondition, hasserted⟩ := hpaid rfl
    obtain ⟨left, hsub, hleft⟩ := moveValue_ok hheld' h
    have hbooked : Machine.Booked False False False _ _ :=
      @touches_moveValue ctx _ _ _ recipient amount _ _ _ _ _ m₄
    have hgrows := hbooked.1.conditions
    have hchanges : Machine.Changes 0 _ _ :=
      @touches_moveValue ctx _ _ _ recipient amount _ _ _ _ _ m₄
    rw [show (moveValue ctx recipient amount).outcome m₄ = _ from h] at hgrows hchanges
    refine ⟨held, enough, left, hheld₁, hle, hsub, hleft, hgrows.subset hcondition,
      fun env henv => ?_⟩
    exact List.all_eq_true.1 (allHold_of_changes hchanges henv) _ hasserted

/-- The instruction is a call that spends: for an amount that is not zero it puts one, and what is
left of the balance takes its place. -/
structure PaysOut (ctx : Context) (s : String × Machine) (amount held left : Value) : Prop where
  call : (Instruction.ofText s.1).operation = .call
  operands : ∃ gas recipient rest, s.2.path.stack = gas :: recipient :: amount :: rest
  amount : amount.toInt? ≠ some 0
  held : ownBalance s.2 = some held
  paid : ∃ m₁ m₂, (ready ctx s.1).outcome s.2 = (.ok (), m₁) ∧ (Exec.call ctx).outcome m₁ =
    (.ok (), m₂) ∧ m₂.path.stack.head? = some (.int 1) ∧ ownBalance m₂ = some left

def Compared (enough : Condition) (amount held left : Value) : Prop :=
  amount.le held = .ok enough ∧ held.sub amount = .ok left

theorem PaysOut.compared {site : Site} {text : String} {m m' : Machine} {amount held left : Value}
    (hs : PaysOut ctx (text, m) amount held left) (h : Traces ctx site text m m') :
    ownBalance m' = some left ∧ ∃ enough ∈ m'.path.conditions, Compared enough amount held left ∧
      ∀ env, allHold env m'.shared.solver.assertions = true → enough.formula.eval env = true := by
  obtain ⟨hcall, ⟨gas, recipient, rest, hstack⟩, hzero, hheld, m₁, m₂, hready, hpaid, htop,
    hleft⟩ := hs
  obtain ⟨m₁', m₂', hready', heffect, hrow⟩ := performed_of_traced h
  cases hready.symm.trans hready'
  rw [effect, show (Instruction.ofText text).operation = .call from hcall] at heffect
  cases hpaid.symm.trans heffect
  have halike := (touches_ready text).alike hready
  obtain ⟨held', enough, left', hheld', hle, hsub, hleft', hmem, hasserted⟩ :=
    call_ok (halike.stack.trans hstack) hzero hpaid htop
  have hsame : ownBalance m₁ = ownBalance m := by rw [ownBalance, ownBalance, halike.balance]
  cases hheld.symm.trans (hsame.symm.trans hheld')
  cases hleft.symm.trans hleft'
  rw [ownBalance, hrow.balance, hrow.conditions, hrow.solver]
  exact ⟨hleft, enough, hmem, ⟨hle, hsub⟩, hasserted⟩

theorem keeps_compared : Keeps ctx fun history p => ∀ w ∈ history, ∀ amount held left,
    PaysOut ctx w amount held left → ∃ enough ∈ p.conditions, Compared enough amount held left where
  traced {history site text m m'} hbefore h w hw amount held left hspends := by
    rcases List.mem_append.1 hw with hw | hw
    · obtain ⟨enough, hmem, hcompared⟩ := hbefore w hw amount held left hspends
      have hgrows := (@ledger_traced ctx site text m).1.conditions
      rw [h] at hgrows
      exact ⟨enough, hgrows.subset hmem, hcompared⟩
    · cases List.mem_singleton.1 hw
      obtain ⟨-, enough, hmem, hcompared, -⟩ := hspends.compared h
      exact ⟨enough, hmem, hcompared⟩
  continues hbefore h w hw amount held left hspends := by
    obtain ⟨pc, conditions, conditionPcs, rfl⟩ := h
    obtain ⟨enough, hmem, hcompared⟩ := hbefore w hw amount held left hspends
    exact ⟨enough, List.mem_append_left _ hmem, hcompared⟩

/-- What calls spend. In every state, under every assignment that the solver allows afterwards, the
amount is at most the balance in the signed order, and what is left of the balance wraps exactly if
only the amount has the sign. The conditions of a path go on to say so of each call on it. -/
theorem balance_spent :
    (∀ site text m m' amount held left, (traced ctx site text).outcome m = (.ok (), m') →
      PaysOut ctx (text, m) amount held left →
      ownBalance m' = some left ∧ ∀ env, allHold env m'.shared.solver.assertions = true →
        Value.Spent env amount held left) ∧
    ∀ root history s, Reached ctx entries root history s →
      ∀ w ∈ history, ∀ amount held left, PaysOut ctx w amount held left →
        ∀ env, (∀ c ∈ s.2.path.conditions, c.formula.eval env = true) →
          Value.Spent env amount held left := by
  constructor
  · intro site text m m' amount held left h hspends
    obtain ⟨hleft, enough, -, ⟨hle, hsub⟩, hasserted⟩ := hspends.compared h
    exact ⟨hleft, fun env henv => Value.spent_of_le hle hsub (hasserted env henv)⟩
  · intro root history s hs w hw amount held left hspends env henv
    obtain ⟨enough, hmem, hle, hsub⟩ :=
      hs.keeps keeps_compared (by simp) w hw amount held left hspends
    exact Value.spent_of_le hle hsub (henv enough hmem)

def sendMost : Listing.Code := .ofDrafts
  [⟨0, "PUSH1", some "00"⟩, ⟨2, "PUSH1", some "00"⟩, ⟨4, "PUSH1", some "00"⟩,
    ⟨6, "PUSH1", some "00"⟩,
    ⟨8, "PUSH32", some "ffffffffffffffffffffffffffffffffffffffffffffffffffffffffffffffff"⟩,
    ⟨41, "CALLER", none⟩, ⟨42, "PUSH1", some "00"⟩, ⟨44, "CALL", none⟩, ⟨45, "STOP", none⟩]

def sendTexts : List String :=
  ["PUSH1 0x00 ", "PUSH1 0x00 ", "PUSH1 0x00 ", "PUSH1 0x00 ",
    "PUSH32 0xffffffffffffffffffffffffffffffffffffffffffffffffffffffffffffffff ", "CALLER ",
    "PUSH1 0x00 "]

theorem block_sendMost : (sendMost.linked.blocks.get? 0).map Block.instructions =
    some (sendTexts ++ "CALL " :: ["STOP "]) := by
  rw [Listing.Code.linked_sorted]
  decide +kernel

def mostAmount : Word := BitVec.allOnes 256

def givenBalance : Term := .binary .add (.var "init_Ia") (.var "Iv")

theorem run_sendMost :
    let m := Call.openedBy affirming sendMost.linked sendTexts
    let r := (ready affirming "CALL ").outcome m
    let o := (call affirming).outcome r.2
    let m' := Call.openedBy affirming sendMost.linked (sendTexts ++ ["CALL "])
    Call.Passes affirming sendMost.linked (sendTexts ++ ["CALL "]) ∧
    m.path.stack = [.int 0, .var "Is", .int mostAmount.toNat, .int 0, .int 0, .int 0, .int 0] ∧
    ownBalance m = some (.word givenBalance) ∧ r.1.isOk = true ∧ o.1.isOk = true ∧
    o.2.path.stack.head? = some (.int 1) ∧
    ownBalance o.2 = some (.word (.binary .sub givenBalance (.const mostAmount))) ∧
    allHold (fun _ => 0) m'.shared.solver.assertions = true ∧
    allHold (fun _ => 0) (m'.path.conditions.map Condition.formula) = true := by
  decide +kernel

theorem reached_sendMost :
    ∃ history w s, Begins affirming sendMost.linked {} (.first affirming sendMost.linked) ∧
    Reached affirming {} (.first affirming sendMost.linked) (history ++ [w]) s ∧
    PaysOut affirming w (.int mostAmount.toNat) (.word givenBalance)
      (.word (.binary .sub givenBalance (.const mostAmount))) ∧
    allHold (fun _ => 0) s.2.shared.solver.assertions = true ∧
    ∀ c ∈ s.2.path.conditions, c.formula.eval (fun _ => 0) = true := by
  obtain ⟨hrun, hstack, hheld, hready, hcall, htop, hleft, hasserted, hconditions⟩ := run_sendMost
  have hreached :=
    reached_first rfl (block_sendMost.trans (by rw [List.append_cons])) (by decide) (by decide) hrun
  rw [steps_openedBy hrun] at hreached
  refine ⟨_, _, _, begins_first (.inl rfl) (by decide +kernel), hreached, ?_, hasserted,
    fun c hc => ?_⟩
  · exact ⟨by decide, ⟨_, _, _, hstack⟩, by decide, hheld, _, _, outcome_eq_of_isOk hready,
      outcome_eq_of_isOk hcall, htop, hleft⟩
  · exact List.all_eq_true.1 hconditions _ (List.mem_map_of_mem hc)

theorem balance_spent_sendMost : ∃ history s,
    Reached affirming {} (.first affirming sendMost.linked) history s ∧
    ∃ w ∈ history, ∃ amount held left, PaysOut affirming w amount held left ∧
      Value.Spent (fun _ => 0) amount held left := by
  obtain ⟨history, w, s, -, hs, hpays, -, hconditions⟩ := reached_sendMost
  have hw : w ∈ history ++ [w] := by simp
  exact ⟨_, s, hs, w, hw, _, _, _, hpays, balance_spent.2 _ _ s hs w hw _ _ _ hpays _ hconditions⟩

/-- A contract without a balance sends the largest amount, and has something left. -/
theorem balance_wrapped : ∃ history w s amount held left,
    Begins affirming sendMost.linked {} (.first affirming sendMost.linked) ∧
    Reached affirming {} (.first affirming sendMost.linked) (history ++ [w]) s ∧
    PaysOut affirming w amount (.word held) (.word left) ∧
    ∃ env x, amount.asTerm = .ok x ∧ allHold env s.2.shared.solver.assertions = true ∧
      (∀ c ∈ s.2.path.conditions, c.formula.eval env = true) ∧
      held.eval env < x.eval env ∧ held.eval env < left.eval env := by
  obtain ⟨history, w, s, hroot, hs, hpays, hasserted, hconditions⟩ := reached_sendMost
  exact ⟨history, w, s, _, _, _, hroot, hs, hpays, _,
    .const mostAmount, by decide, hasserted, hconditions, by decide, by decide⟩

end Exec

end EvmAudit
