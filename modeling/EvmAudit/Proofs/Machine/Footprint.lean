import EvmAudit.Proofs.Machine.Operations

/-! The parts of the state that each instruction can change. An instruction that succeeds keeps the
state of a kind that is closed under what is computed. -/

namespace EvmAudit.Exec

variable {α β : Type} {ctx : Context} {ps : List Part}
variable {x : Exec α}

section Permits

variable {R : Machine → Machine → Prop} [Permits R ps] {K : Kind} [K.Lawful] {C : Nat → Prop}

/-! ### Every instruction -/

def footprint : Operation → List Part
  | .invalid => []
  | .assertFail => [.solver, .problems]
  | .stop | .jumpDest => [.pc]
  | .add => [.stack, .pc, .solver, .problems, .overflowPcs]
  | .sub => [.stack, .pc, .solver, .problems]
  | .div | .sdiv | .mod | .smod | .addMod | .mulMod | .signExtend | .byte => [.stack, .pc, .solver]
  | .mul | .lt | .gt | .slt | .sgt | .eq | .isZero | .and | .or | .xor | .not | .address | .caller
  | .origin | .callValue | .gasPrice | .coinbase | .timestamp | .number | .difficulty | .gasLimit
  | .callDataCopy | .returnDataCopy | .pop | .pc | .msize | .push _ _ | .dup _ | .swap _ | .log _ =>
    [.stack, .pc]
  | .exp | .returnDataSize | .create => [.stack, .pc, .names]
  | .sha3 => [.stack, .pc, .names, .vars, .hashes]
  | .balance => [.stack, .pc, .names, .vars, .balance, .requests, .log]
  | .callDataLoad => [.stack, .pc, .names, .vars, .varNames]
  | .callDataSize | .blockHash => [.stack, .pc, .vars]
  | .codeSize | .halt => [.stack]
  | .codeCopy | .extCodeCopy | .mload => [.stack, .pc, .vars, .solver, .words, .activeWords]
  | .mstore => [.stack, .pc, .bytes, .solver, .words, .activeWords]
  | .mstore8 => [.stack, .pc, .solver, .words, .activeWords]
  | .extCodeSize => [.stack, .pc, .vars, .requests, .log]
  | .sload => [.stack, .pc, .vars, .storage, .requests, .log]
  | .sstore => [.stack, .pc, .affected, .storage]
  | .jump | .jumpIf => [.stack, .graph]
  | .gas => [.stack, .pc, .names, .vars]
  | .call =>
    [.calls, .affected, .stack, .pc, .solver, .conditions, .analysis, .names, .vars, .balance]
  | .callCode => [.calls, .affected, .stack, .pc, .recipients, .solver, .conditions, .analysis]
  | .delegateCall | .staticCall => [.stack, .pc, .recipients, .names]
  | .revert => [.stack, .pc, .revertible]
  | .selfDestruct => [.stack, .pc, .names, .vars, .solver, .conditions, .balance]
  | .unknown => [.log]

def asksSolver : Operation → Bool
  | .add | .sub | .div | .sdiv | .mod | .smod | .signExtend | .addMod | .mulMod | .byte
  | .mload | .mstore | .mstore8 | .codeCopy | .extCodeCopy => true
  | _ => false

/-- The instructions that keep items of a closed kind even if not every number is one. -/
def keepsWords : Operation → Bool
  | .div | .sdiv | .smod | .codeSize | .codeCopy | .pc | .msize | .push _ _ => false
  | _ => true

theorem closed_any (ctx : Context) : Closed ctx .any := by
  constructor
  case byte => exact fun _ _ _ => ⟨fun _ => gives_trivial _, gives_trivial _⟩
  case after | upTo | stored =>
    intros
    exact fun _ _ => Kind.room_of_forall fun _ => trivial
  case reply => exact fun _ _ => ⟨fun _ => trivial, fun _ => trivial⟩
  case branch => exact fun _ _ _ _ _ => trivial
  case credit => exact fun _ _ => ⟨gives_trivial _, gives_trivial _⟩
  all_goals
    intros
    first | trivial | exact gives_trivial _ | exact Inquiry.gives_of_forall (fun _ => trivial) _

theorem whole_any : Whole .any := by
  constructor <;> intros <;>
    first | trivial | exact gives_trivial _ | exact Inquiry.gives_of_forall (fun _ => trivial) _

section Perform

variable (site : Site) (name : String) (op : Operation) [hR : Permits R (footprint op)]
  (hasks : asksSolver op = true → Asks R)
  (hbranch : op = .jumpIf → ∀ (m : Machine) (block : Int) (branch : Value),
    R m (m.replace .graph
      (m.shared.graph.updateBlock block fun b => { b with branch := some branch })))

include hasks hbranch

theorem holds_perform (hK : Closed ctx K) (hwhole : keepsWords op = true ∨ Whole K)
    (hpledges : op = .call ∨ op = .callCode → Pledges ctx R K)
    (hcredits : op = .call ∨ op = .selfDestruct → Credits R K) :
    Holds R K C (perform ctx site name op) Done := by
  have hnumbers (h : keepsWords op = false) : Whole K := hwhole.resolve_left (by rw [h]; decide)
  cases op with dsimp only [footprint] at hR
  | invalid => exact holds_pure fun _ _ => trivial
  | assertFail => exact holds_assertFail _
  | stop | jumpDest => exact holds_advance 1
  | add =>
    have := hasks rfl
    exact holds_add hK _
  | sub =>
    have := hasks rfl
    exact holds_sub hK _
  | div =>
    have := hasks rfl
    have hK' := hnumbers rfl
    exact holds_settle hK (fun _ _ _ => hK'.quotient _ _ _) fun ha hb _ =>
      hK'.quotients (hK'.lift ha) (hK'.lift hb)
  | sdiv =>
    have := hasks rfl
    have hK' := hnumbers rfl
    exact holds_settle hK (fun _ _ _ => hK'.signedQuotient _ _ _) fun ha hb _ =>
      hK'.signedQuotients (hK'.lift ha) (hK'.lift hb)
  | smod =>
    have := hasks rfl
    have hK' := hnumbers rfl
    exact holds_settle hK (fun _ _ _ => hK'.signedRemainder _ _ _) fun ha hb _ =>
      hK'.signedRemainders (hK'.lift ha) (hK'.lift hb)
  | mod =>
    have := hasks rfl
    exact holds_settle hK hK.remainder hK.remainders
  | signExtend =>
    have := hasks rfl
    exact holds_settle hK (fun ha hb h => gives_ok (hK.extension ha hb h)) hK.extensions
  | addMod =>
    have := hasks rfl
    exact holds_modular hK _ (.inl rfl)
  | mulMod =>
    have := hasks rfl
    exact holds_modular hK _ (.inr rfl)
  | byte =>
    have := hasks rfl
    exact holds_byte hK
  | mul => exact holds_binary hK fun _ _ => holds_ofExcept fun _ h => hK.product h.1 h.2
  | and | or | xor =>
    exact holds_binary hK fun _ _ => holds_ofExcept fun _ h => hK.bits (by simp) h.1 h.2
  | lt => exact holds_compare hK toUnsigned (fun m n => m < n) (by simp)
  | gt => exact holds_compare hK toUnsigned (fun m n => m > n) (by simp)
  | slt => exact holds_compare hK toSigned (fun m n => m < n) (by simp)
  | sgt => exact holds_compare hK toSigned (fun m n => m > n) (by simp)
  | eq => exact holds_compare hK id (fun m n => m = n) (by simp)
  | isZero => exact holds_isZero hK
  | not => exact holds_unary hK fun _ => holds_ofExcept fun _ h => hK.not h
  | exp =>
    refine holds_binary hK fun a b => ?_
    split
    · exact (holds_ofExcept fun k _ => hK.power k _ _).bind fun _ => holds_pure fun _ h => h.2
    · exact (holds_freshArbitrary hK).bind fun _ => holds_pure fun _ h => hK.var h.2
  | sha3 => exact holds_sha3 hK
  | address => exact holds_address
  | caller | origin | callValue | gasPrice | coinbase | timestamp | number | difficulty
  | gasLimit =>
    exact holds_pushPart fun _ _ hp => hp.items.given _ (by simp [World.given])
  | balance => exact holds_balance hK
  | callDataLoad => exact holds_callDataLoad hK _
  | callDataSize =>
    exact (holds_advance 1).bind fun _ => holds_pushNamed hK (c := 'I') rfl (by decide) (by decide)
  | blockHash =>
    exact holds_begin 1
      (holds_pop.bind fun _ => holds_pushNamed hK (c := 'I') rfl (by decide) (by decide))
  | callDataCopy | returnDataCopy | pop => exact holds_begin _ (holds_drop _)
  | codeSize => exact holds_codeSize (hnumbers rfl)
  | codeCopy =>
    have := hasks rfl
    exact holds_codeCopy hK (hnumbers rfl)
  | extCodeCopy =>
    have := hasks rfl
    exact holds_extCodeCopy hK
  | mload =>
    have := hasks rfl
    exact holds_mload hK
  | mstore =>
    have := hasks rfl
    exact holds_mstore hK
  | mstore8 =>
    have := hasks rfl
    exact holds_mstore8 hK
  | extCodeSize => exact holds_extCodeSize hK
  | sload => exact holds_sload hK
  | sstore => exact holds_sstore
  | jump => exact holds_jump _
  | jumpIf =>
    exact holds_jumpIf hK _ fun branch => within_updateBlock fun m => hbranch rfl m _ branch
  | pc => exact holds_programCounter (hnumbers rfl)
  | msize => exact holds_memorySize (hnumbers rfl)
  | gas =>
    exact (holds_advance 1).bind fun _ =>
      (holds_freshOther hK (c := 'g') rfl (by decide) (by decide)).bind fun _ =>
      (holds_declare fun _ h => hK.var h.2).bind fun _ => holds_push fun _ h => hK.var h.1.2
  | push width operand => exact holds_pushOperand (hnumbers rfl) width operand
  | dup depth => exact holds_dup depth
  | swap depth => exact holds_swap depth
  | log topics => exact (holds_advance 1).bind fun _ => holds_drop _
  | returnDataSize => exact (holds_advance 1).bind fun _ => holds_pushArbitrary hK
  | create => exact holds_begin 3 ((holds_drop 3).bind fun _ => holds_pushArbitrary hK)
  | call =>
    obtain ⟨rest, heq, hrest⟩ := call_eq_noting hK
    rw [perform, heq]
    exact (holds_need 7).bind fun _ => (holds_quiet touches_noteCall touches_noteCall).bind fun _ =>
      @hrest R (hR.mono (by decide)) _ (hpledges (.inl rfl)) (hcredits (.inl rfl))
  | callCode =>
    obtain ⟨rest, heq, hrest⟩ := callCode_eq_noting hK
    rw [perform, heq]
    exact (holds_need 7).bind fun _ => (holds_quiet touches_noteCall touches_noteCall).bind fun _ =>
      @hrest R (hR.mono (by decide)) _ (hpledges (.inr rfl))
  | delegateCall | staticCall =>
    exact holds_begin 6 ((holds_drop 1).bind fun _ => holds_pop.bind fun _ =>
      (holds_quiet (touches_noteRecipient _) (touches_noteRecipient _)).bind fun _ =>
      (holds_drop 4).bind fun _ =>
      holds_pushArbitrary hK)
  | halt => exact (holds_need 2).bind fun _ => holds_drop 2
  | revert => exact holds_revert
  | selfDestruct => exact holds_selfDestruct hK (hcredits (.inr rfl))
  | unknown => exact holds_quiet (touches_unknown name) (touches_unknown name)

theorem holds_perform_loose [K.Loose] (hK : Closed ctx K) (hwhole : keepsWords op = true ∨ Whole K)
    (hnote : op = .call ∨ op = .callCode → ∀ c, Within R (notePayment c)) :
    Holds R K C (perform ctx site name op) Done := by
  refine holds_perform site name op hasks hbranch hK hwhole ?_ ?_
  · rintro (rfl | rfl) <;> dsimp only [footprint] at hR
    · exact pledges_of_note hK (hnote (.inl rfl))
    · exact pledges_of_note hK (hnote (.inr rfl))
  · rintro (rfl | rfl) <;> dsimp only [footprint] at hR <;> exact credits hK

theorem within_perform (hnote : op = .call ∨ op = .callCode → ∀ c, Within R (notePayment c)) :
    Within R (perform ctx site name op) :=
  (holds_perform_loose site name op hasks hbranch (closed_any ctx) (.inr whole_any) hnote).within

end Perform

theorem touches_all (x : Exec α) : Touches allParts x := by
  intro m p hp
  exact absurd (by cases p <;> decide) hp

theorem permits_all (ps : List Part) : Permits (Machine.AlikeBut allParts) ps :=
  Permits.mono inferInstance fun p _ => by cases p <;> decide

theorem holds_perform_anyhow [K.Loose] (hK : Closed ctx K) (site : Site) (name : String)
    (op : Operation) (hwhole : keepsWords op = true ∨ Whole K) :
    Holds (Machine.AlikeBut allParts) K C (perform ctx site name op) Done :=
  have := permits_all (footprint op)
  holds_perform_loose site name op (fun _ => inferInstance)
    (fun _ m _ _ => .of_replace (q := .graph) (by decide) m _) hK hwhole fun _ _ => touches_all _

@[grind ←] theorem touches_growSymbolic (current size : Value) [Among .solver ps] [Asks R] :
    Within R (growSymbolic ctx current size) :=
  (holds_growSymbolic fun _ _ => Kind.room_of_forall fun _ => trivial).within

theorem touches_askBalance (n : Int) [Among .requests ps] [Among .log ps] :
    Within R (askBalance ctx n) :=
  (holds_askBalance n fun _ _ => trivial).within

theorem touches_dataName (position : Value) (function : String) [Among .names ps]
    [Among .varNames ps] : Within R (dataName ctx position function) :=
  (holds_dataName (closed_any ctx) position function).within

theorem touches_itemNamed (name : String) [Among .vars ps] : Within R (itemNamed name) :=
  (holds_itemNamed (closed_any default) fun _ _ => trivial).within

theorem touches_creditUnknown (recipient amount : Value) [Among .names ps] [Among .vars ps]
    [Among .solver ps] [Among .conditions ps] [Among .balance ps] :
    Within R (creditUnknown recipient amount) :=
  (holds_creditUnknown recipient (credits (closed_any default)) fun _ _ => trivial).within

@[grind ←] theorem touches_copyUnknown (owner location start count : Value) [Among .vars ps]
    [Among .solver ps] [Asks R] [Among .words ps] [Among .activeWords ps] :
    Within R (copyUnknown ctx owner location start count) :=
  (holds_copyUnknown (closed_any ctx) (fun _ _ => trivial) fun _ _ => trivial).within

@[grind ←] theorem touches_moveValue (recipient amount : Value) [Among .names ps] [Among .vars ps]
    [Among .solver ps] [Among .conditions ps] [Among .balance ps] :
    Within R (moveValue ctx recipient amount) :=
  (holds_moveValue (closed_any ctx) recipient (credits (closed_any ctx)) fun _ _ => trivial).within

theorem touches_perform (ctx : Context) (site : Site) (name : String) (op : Operation) :
    Touches (footprint op) (perform ctx site name op) := by
  refine within_perform site name op (fun h => ⟨.of_replace (q := .solver) ?_⟩) ?_ ?_
  · cases op <;> first | decide | cases h
  · rintro rfl m block branch
    exact .of_replace (q := .graph) (by decide) m _
  · rintro (rfl | rfl) c <;> dsimp only [footprint] <;> exact touches_notePayment c

theorem bytes_of_perform (ctx : Context) (site : Site) (name : String) {op : Operation}
    (hop : op ≠ .mstore) (m : Machine) :
    ((perform ctx site name op).outcome m).2.path.bytes = m.path.bytes :=
  touches_perform ctx site name op m .bytes (by cases op <;> simp_all [footprint])

/-- What a store does when it has set the bytes. -/
def storeWord (ctx : Context) (address v active : Value) : Exec Unit :=
  match address.toInt?, active.toInt? with
  | some a, some n => do
    let grown ← ofExcept (growTo n (a + 32))
    setWord (.at a) v
    setActive grown
  | _, _ => do
    let size ← ofExcept do wordsUpTo (← address.add (.int 31))
    let grown ← growSymbolic ctx active size
    clearWords
    setWord (.named (ctx.print.value address)) v
    setActive grown

theorem touches_storeWord (address v active : Value) :
    Touches [.solver, .words, .activeWords] (storeWord ctx address v active) := by
  unfold storeWord
  split
  · exact (touches_ofExcept _).bind fun grown => (touches_setWord _ _).bind fun _ =>
      touches_setActive _
  · exact (touches_ofExcept _).bind fun size => (touches_growSymbolic _ _).bind fun grown =>
      touches_clearWords.bind fun _ => (touches_setWord _ _).bind fun _ => touches_setActive _

theorem stores_of_mstore {m m' : Machine} (h : (mstore ctx).outcome m = (.ok (), m')) :
    ∃ address v rest m₁,
    m.path.stack = address :: v :: rest ∧ (storeBytes ctx address v).outcome (m.taken rest) =
      (.ok (), m₁) ∧ (storeWord ctx address v m.path.world.activeWords).outcome m₁ = (.ok (), m') ∧
      m'.path.bytes = m₁.path.bytes := by
  unfold mstore at h
  obtain ⟨hitems, h⟩ := taken_of_need h
  obtain ⟨address, v, rest, hstack⟩ := exists_two_items hitems
  rw [hstack, outcome_pop_taken, outcome_pop_taken, outcome_bind_getWorld] at h
  obtain ⟨_, m₁, hbytes, h⟩ := outcome_bind_eq_ok.1 h
  replace h : (storeWord ctx address v m.path.world.activeWords).outcome m₁ = (.ok (), m') := h
  exact ⟨address, v, rest, m₁, hstack, hbytes, h, ((touches_storeWord _ _ _).alike h).bytes⟩

/-! ### Around an instruction -/

theorem touches_storeFee (f : Formula) : Touches [.solver] (Gas.storeFee ctx f) :=
  (touches_assert f).bind fun _ => touches_verdict.bind fun _ => touches_popScope.bind fun _ =>
    touches_pure _

theorem touches_storeSymbol (place value : Value) :
    Touches [.solver] (Gas.storeSymbol ctx place value) := by
  have hover : Touches [.solver] (Gas.storeOver ctx place value) := by
    refine touches_getWorld.bind fun world => ?_
    split
    · exact touches_throw _
    · exact touches_pushScope.bind fun _ => (touches_ofExcept _).bind fun _ =>
        (touches_ofExcept _).bind fun _ => touches_storeFee _
  exact touches_tryCatch hover fun _ => touches_pushScope.bind fun _ =>
    (touches_ofExcept _).bind fun _ => touches_storeFee _

theorem touches_feeOfValue (amount : Value) : Touches [.solver] (Gas.callValue ctx amount) := by
  unfold Gas.callValue
  split
  · exact touches_pure _
  · exact (touches_inquire _).bind fun _ => touches_pure _

theorem touches_dynamic (op : Operation) : Touches [.solver] (Gas.dynamic ctx op) := by
  refine touches_getPath.bind fun path => ?_
  dsimp only
  split
  -- most fees are nothing, or depend on one operand if that is a number
  all_goals try
    split
    · exact touches_ofExcept _
    · exact touches_pure 0
  · split
    · exact touches_pure _
    · exact touches_storeSymbol _ _
  · exact touches_pure _
  all_goals try exact (touches_feeOfValue _).bind fun _ => touches_pure _
  exact touches_pure 0

@[grind ←] theorem touches_peek (n : Nat) [Journey R] : Within R (peek n) := by
  refine touches_getPath.bind fun path => ?_
  split
  · exact touches_pure _
  · exact touches_throw _

@[grind ←] theorem touches_checkReentrancy [Among .log ps] : Within R (checkReentrancy ctx) := by
  have hsays (text : String) {x : Exec Bool} (hx : Within R x) :
      Within R (if on ctx.settings.debugMode then do say .info text; x else x) :=
    touches_ite ((touches_say _ _).bind fun _ => hx) hx
  exact touches_getPath.bind fun path => (touches_peek 2).bind fun amount =>
    (touches_ofExcept _).bind fun extra => hsays _ ((touches_peek 0).bind fun gas =>
    (touches_ofExcept _).bind fun answer => hsays _ (touches_pure answer))

end Permits

theorem touches_noteTransfer (flow : Flow) : Touches [.analysis, .log] (noteTransfer flow) :=
  touches_pc.bind fun _ => touches_of_replace .analysis fun _ => ⟨(_, _, _, _), rfl⟩

theorem touches_noteMove (op : Operation) : Touches [.analysis, .log] (noteMove ctx op) := by
  unfold noteMove
  split
  · exact (touches_peek 1).bind fun _ => (touches_peek 2).bind fun _ =>
      touches_ite (touches_pure ())
      ((touches_ofExcept _).bind fun _ => touches_checkReentrancy.bind fun _ =>
      (touches_of_replace .analysis fun _ => ⟨(_, _, _, _), rfl⟩).bind fun _ =>
      touches_noteTransfer _)
  · exact (touches_peek 0).bind fun _ => (touches_ofExcept _).bind fun _ => touches_noteTransfer _
  · exact touches_pure ()

theorem touches_noteReentrancy : Touches [.problems] noteReentrancy :=
  touches_getPath.bind fun _ => touches_ite
    (touches_pc.bind fun _ => touches_of_replace .problems fun _ => ⟨_, rfl⟩) (touches_pure ())

abbrev bookkeeping : List Part :=
  [.executed, .visitedPcs, .fees, .analysis, .solver, .problems, .log, .trace]

theorem touches_prepare {instruction : Instruction}
    (hfee : Touches ps (Gas.dynamic ctx instruction.operation))
    (hsub : [.fees, .analysis, .problems, .log] ⊆ ps) : Touches ps (prepare ctx instruction) := by
  refine touches_ite (touches_pure ())
    (Within.bind (Within.bind ?_ fun _ => ?_) fun _ => touches_ite ?_ ?_)
  · refine hfee.bind fun extra => touches_getPath.bind fun path => Touches.mono ?_ hsub
    exact touches_step .fees fun _ => ⟨(_, _), trivial, rfl⟩
  · exact ((touches_noteMove _).mono (by decide)).mono hsub
  · exact (touches_noteReentrancy.mono (by decide)).mono hsub
  · exact touches_pure ()

def ready (ctx : Context) (text : String) : Exec Unit := do
  tick ctx
  markVisited
  prepare ctx (.ofText text)

abbrev ticked (m : Machine) : Machine :=
  { m with shared := { m.shared with executed := m.shared.executed + 1 } }

theorem outcome_tick (m : Machine) : (tick ctx).outcome m =
    (if ctx.deadline = some (m.shared.executed + 1) then .error .deadline else .ok (),
      ticked m) := by
  simp only [tick, outcome_bind, outcome_modifyShared, outcome_getShared]
  split <;> rfl

theorem touches_tick [Among .executed ps] : Touches ps (tick ctx) :=
  Touches.bind (touches_of_replace .executed fun _ => ⟨_, rfl⟩) fun _ =>
    touches_getShared.bind fun _ => touches_ite (touches_throw _) (touches_pure ())

theorem touches_markVisited [Among .visitedPcs ps] : Touches ps markVisited :=
  touches_pc.bind fun n => touches_of_replace .visitedPcs fun m =>
  ⟨if m.shared.visitedPcs.contains n then _ else _, by
    rw [outcome_modifyShared]
    split <;> rfl⟩

theorem touches_ready_of_fee {text : String}
    (hfee : Touches ps (Gas.dynamic ctx (Instruction.ofText text).operation))
    (hsub : [.executed, .visitedPcs, .fees, .analysis, .problems, .log] ⊆ ps) :
    Touches ps (ready ctx text) := by
  refine Within.bind ?_ fun _ => Within.bind ?_ fun _ =>
    touches_prepare hfee (List.Subset.trans (by decide) hsub)
  · exact touches_tick.mono hsub
  · exact touches_markVisited.mono hsub

theorem touches_ready (text : String) : Touches bookkeeping (ready ctx text) :=
  touches_ready_of_fee ((touches_dynamic _).mono (by decide)) (by decide)

theorem solver_of_ready {text : String} {m m₁ : Machine}
    (hfee : ∀ m, (Gas.dynamic ctx (Instruction.ofText text).operation).outcome m = (.ok 0, m))
    (h : (ready ctx text).outcome m = (.ok (), m₁)) : m₁.shared.solver = m.shared.solver := by
  have hfree : Touches [.executed, .visitedPcs, .fees, .analysis, .problems, .log]
      (ready ctx text) :=
    touches_ready_of_fee (fun m => by rw [hfee]; exact .refl m) fun _ h => h
  exact (hfree.alike h).solver

abbrev effect (ctx : Context) (site : Site) (text : String) : Exec Unit :=
  perform ctx site (Instruction.ofText text).name (Instruction.ofText text).operation

theorem touches_traceRow (site : Site) (text : String) (cause : Option Fault) [Among .trace ps] :
    Touches ps (traceRow site text cause) :=
  touches_getPath.bind fun _ => touches_step .trace fun _ => ⟨_, trivial, rfl⟩

theorem outcome_traced (site : Site) (text : String) (m : Machine) :
    ∃ rows, (traced ctx site text).outcome m =
    (((do tick ctx; step ctx site (.ofText text)).outcome m).1,
      ((do tick ctx; step ctx site (.ofText text)).outcome m).2.replace .trace rows) := by
  rw [traced, outcome_bind, outcome_tryCatch]
  generalize (do tick ctx; step ctx site (.ofText text)).outcome m = o
  obtain ⟨e | u, m'⟩ := o <;> exact ⟨_, rfl⟩

theorem tick_step (site : Site) (text : String) :
    (do tick ctx; step ctx site (.ofText text) : Exec Unit) =
    (do ready ctx text; effect ctx site text) := by
  simp only [step, ready, bind_assoc]

theorem traced_cases (site : Site) (text : String) (m : Machine) :
    (∃ e, ((ready ctx text).outcome m).1 = .error e ∧ ((traced ctx site text).outcome m).1 =
      .error e ∧ m.AlikeBut bookkeeping ((traced ctx site text).outcome m).2) ∨
    ∃ m₁, (ready ctx text).outcome m = (.ok (), m₁) ∧ m.AlikeBut bookkeeping m₁ ∧
      ((traced ctx site text).outcome m).1 = ((effect ctx site text).outcome m₁).1 ∧
      ((effect ctx site text).outcome m₁).2.AlikeBut bookkeeping
        ((traced ctx site text).outcome m).2 := by
  obtain ⟨rows, htraced⟩ := @outcome_traced ctx site text m
  have hready := @touches_ready ctx text m
  rw [htraced, tick_step, outcome_bind]
  generalize (ready ctx text).outcome m = o at hready ⊢
  obtain ⟨e | u, m₁⟩ := o
  · exact .inl ⟨e, rfl, rfl, hready.trans (.of_replace (by decide) _ rows)⟩
  · exact .inr ⟨m₁, rfl, hready, rfl, .of_replace (by decide) _ rows⟩

theorem performed_of_traced {site : Site} {text : String} {m m' : Machine}
    (h : Traces ctx site text m m') :
    ∃ m₁ m₂, (ready ctx text).outcome m = (.ok (), m₁) ∧
      (effect ctx site text).outcome m₁ = (.ok (), m₂) ∧ m₂.AlikeBut [.trace] m' := by
  obtain ⟨rows, htraced⟩ := @outcome_traced ctx site text m
  rw [h, tick_step] at htraced
  rcases ho : (do ready ctx text; effect ctx site text).outcome m with ⟨e | _, m₂⟩ <;>
    rw [ho] at htraced <;>
    cases htraced
  obtain ⟨_, m₁, hready, heffect⟩ := outcome_bind_eq_ok.1 ho
  exact ⟨m₁, m₂, hready, heffect, .of_replace (by decide) _ rows⟩

theorem performs_of_traced {site : Site} {text : String} {m m' : Machine}
    (h : Traces ctx site text m m') :
    ∃ m₁ m₂, (ready ctx text).outcome m = (.ok (), m₁) ∧ m.AlikeBut bookkeeping m₁ ∧
      (effect ctx site text).outcome m₁ = (.ok (), m₂) ∧ m₂.AlikeBut bookkeeping m' := by
  obtain ⟨m₁, m₂, hready, heffect, hrow⟩ := performed_of_traced h
  exact ⟨m₁, m₂, hready, (touches_ready text).alike hready, heffect, hrow.mono (by decide)⟩

theorem part_traced {site : Site} {text : String} {m m' : Machine} {p : Part}
    (hbooks : p ∉ bookkeeping) (hp : p ∉ footprint (Instruction.ofText text).operation)
    (h : Traces ctx site text m m') : m'.part p = m.part p := by
  obtain ⟨m₁, m₂, -, hbefore, heffect, hafter⟩ := performs_of_traced h
  exact ((hafter p hbooks).trans ((touches_perform _ _ _ _).alike heffect p hp)).trans
    (hbefore p hbooks)

/-! ### Around a block -/

theorem touches_enter (entries : Table Int String) (v : Visit) :
    Touches [.edges] (enter ctx entries v) := by
  have hfunction : Touches [.edges] (functionAt ctx entries v.block v.function) := by
    unfold functionAt
    split
    · split
      · exact touches_throw _
      · exact touches_pure _
    · exact touches_pure _
  have hcount : Touches [.edges] (enterEdge v.previous v.block) :=
    touches_getShared.bind fun _ => (touches_step .edges fun _ => ⟨_, trivial, rfl⟩).bind fun _ =>
    touches_pure _
  refine touches_ite (touches_pure none) (hfunction.bind fun function => hcount.bind fun count =>
    touches_ite (touches_pure none)
    (touches_getPath.bind fun path => touches_ite (touches_pure none) ?_))
  refine touches_getShared.bind fun s => ?_
  split
  · exact touches_pure none
  · exact touches_pure _

theorem touches_record : Touches [.records, .problems] record := by
  intro m p hp
  have hrecords : p ≠ .records := fun h => hp (by simp [h])
  have hproblems : p ≠ .problems := fun h => hp (by simp [h])
  rw [record, outcome_bind_getPath, outcome_modifyShared]
  dsimp only
  split <;> cases p <;> first | rfl | exact absurd rfl hrecords | exact absurd rfl hproblems

section

variable {R : Machine → Machine → Prop}
  (hends : ∀ (m : Machine) paths testCases ends,
      R m { m with shared := { m.shared with paths, testCases, ends } })

include hends

theorem within_finish [Journey R] : Within R (finish ctx) := by
  refine Within.bind (fun m => hends m _ _ _) fun _ => ?_
  refine touches_ite (touches_getShared.bind fun s =>
    touches_ite (Within.bind (fun m => hends m _ _ _) fun _ => ?_) ?_) ?_
  -- whether or not a test case is counted, the path is ended
  all_goals
    refine touches_getPath.bind fun p => Within.bind (fun m => hends m _ _ _) fun _ =>
      touches_ite ?_ (touches_pure ())
    split
    · exact touches_throw _
    · exact touches_throw _

omit hends in
theorem within_callerAfter [Journey R] (caller : Int) : Within R (callerAfter ctx caller) := by
  unfold callerAfter
  split
  · exact touches_pure _
  · exact touches_pc.bind fun _ => (touches_ofExcept _).bind fun _ => touches_pure _

theorem within_onward [Permits R [.pc, .edges]] (previous : Int) (site : Site) (last : Bool) :
    Within R (onward ctx previous site last) := by
  have hfinish : Within R (do finish ctx; return Onward.stop) :=
    (within_finish hends).bind fun _ => touches_pure _
  have hgo (n : Int) (v : Visit) :
      Within R (do modifyWorld fun w => { w with pc := n }; return Onward.go v) :=
    (touches_step .pc fun _ => ⟨_, trivial, rfl⟩).bind fun _ => touches_pure _
  refine touches_getShared.bind fun s => ?_
  dsimp only
  split
  · exact touches_throw _
  · exact touches_throw _
  · exact hfinish
  · exact hfinish
  · exact (within_callerAfter _).bind fun caller => hgo _ _
  · exact (touches_ofExcept _).bind fun next => hgo _ _
  · exact (touches_ofExcept _).bind fun c => touches_pure _
  · exact (touches_step .edges fun _ => ⟨_, trivial, rfl⟩).bind fun _ => touches_throw _

end

theorem alike_ends [Among .records ps] (m : Machine) (paths testCases : Nat)
    (ends : List (Int × Int)) :
    m.AlikeBut ps { m with shared := { m.shared with paths, testCases, ends } } :=
  .of_replace (q := .records) Among.mem m ((_, _, _, _), paths, testCases, ends)

theorem touches_finish : Touches [.records] (finish ctx) := within_finish alike_ends

theorem touches_onward (previous : Int) (site : Site) (last : Bool) :
    Touches [.records, .pc, .edges] (onward ctx previous site last) :=
  have : Permits (Machine.AlikeBut [.records, .pc, .edges]) [.pc, .edges] :=
    Permits.mono inferInstance (by decide)
  within_onward alike_ends previous site last

end EvmAudit.Exec
