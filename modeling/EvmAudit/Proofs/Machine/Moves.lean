import EvmAudit.Proofs.Machine.Fees
import EvmAudit.Proofs.Machine.Motion

/-! The items that every instruction takes and puts, and the bytes it passes. -/

namespace EvmAudit.Exec

variable {ctx : Context} {p caller : Int} {s : Motion} {t q : Nat} {d : Int}
variable {f : Value → Value → Exec Value} {a : Marks} {site : Site} {m : Machine}
  {instruction : Instruction}

theorem moves_begin {α : Type} {x : Exec α} (n : Nat) (hx : Moves p caller ⟨0, 0, 1⟩ x s) :
    Moves p caller ⟨0, 0, 0⟩ (do need n; advance 1; x) s :=
  (quiet_need n).then fun _ => (moves_advance 1).bind fun _ => hx

theorem moves_drop_first (n : Nat) : Moves p caller ⟨0, 0, d⟩ (drop n) ⟨n, 0, d⟩ := by
  simpa using moves_drop (t := 0) n

/-! ### Arithmetic -/

theorem moves_binary (hf : ∀ a b, Moves p caller ⟨2, 0, 1⟩ (f a b) ⟨2, 0, 1⟩) :
    Moves p caller ⟨0, 0, 0⟩ (binary ctx f) ⟨2, 1, 1⟩ :=
  moves_begin 2 (moves_pop.bind fun a => moves_pop.bind fun b => (hf a b).bind fun _ =>
  moves_push _)

theorem moves_binary_quiet (hf : ∀ a b, Within (Machine.AlikeBut unmarkedParts) (f a b)) :
    Moves p caller ⟨0, 0, 0⟩ (binary ctx f) ⟨2, 1, 1⟩ :=
  moves_binary fun a b => (hf a b).quiet.moves

theorem moves_unary {f : Value → Exec Value}
    (hf : ∀ a, Within (Machine.AlikeBut unmarkedParts) (f a)) :
    Moves p caller ⟨0, 0, 0⟩ (unary ctx f) ⟨1, 1, 1⟩ :=
  moves_begin 1 (moves_pop.bind fun a => (hf a).quiet.then fun _ => moves_push _)

theorem moves_wrapping {block : Int} {x : Except Fault Value} {known : Value → Bool}
    {question : Value → Except Fault Formula} {note : Exec Unit} (hnote : Moves p caller s note s) :
    Moves p caller s (wrapping ctx block x known question note) s := by
  refine (quiet_ofExcept x).then fun v => (touches_checksWrap block).quiet.then fun _ => ?_
  have hpure : Moves p caller s (pure (ctx.simplify.value v)) s := (quiet_pure _).moves
  refine moves_ite (moves_ite ((touches_inquire _).quiet.then fun may => ?_) hpure) hpure
  exact moves_ite (hnote.bind fun _ => hpure) hpure

theorem moves_add (block : Int) : Moves p caller ⟨0, 0, 0⟩ (add ctx block) ⟨2, 1, 1⟩ := by
  rw [add_eq]
  exact moves_binary fun _ _ => moves_wrapping moves_noteOverflow

theorem moves_sub (block : Int) : Moves p caller ⟨0, 0, 0⟩ (sub ctx block) ⟨2, 1, 1⟩ := by
  rw [sub_eq]
  exact moves_binary fun _ _ => moves_wrapping moves_noteUnderflow

theorem moves_settle (onInts : Int → Int → Except Fault Value)
    (onSymbols : Value → Value → Inquiry Value) :
    Moves p caller ⟨0, 0, 0⟩ (settle ctx onInts onSymbols) ⟨2, 1, 1⟩ := by
  refine moves_binary_quiet fun a b => ?_
  split <;> grind

theorem moves_modular (onInts : Int → Int → Int) (onTerms : Term → Term → Term → Term) :
    Moves p caller ⟨0, 0, 0⟩ (modular ctx onInts onTerms) ⟨3, 1, 1⟩ := by
  refine moves_begin 3 (moves_pop.bind fun a => moves_pop.bind fun b => moves_pop.bind fun m => ?_)
  dsimp only
  split
  · exact (quiet_pure _).then fun _ => moves_push _
  · exact (touches_inquire _).quiet.then fun _ => moves_push _

theorem moves_compare (reading : Int → Int) (onInts : Int → Int → Bool)
    (onSymbols : Value → Value → Except Fault Condition) :
    Moves p caller ⟨0, 0, 0⟩ (compare ctx reading onInts onSymbols) ⟨2, 1, 1⟩ := by
  refine moves_binary_quiet fun a b => ?_
  split <;> grind

theorem moves_byte : Moves p caller ⟨0, 0, 0⟩ (byte ctx) ⟨2, 1, 1⟩ := by
  refine moves_begin 2
    (moves_pop.bind fun a => (quiet_ofExcept _).then fun index => moves_pop.bind fun b => ?_)
  dsimp only
  split
  · split
    · exact (quiet_pure _).then fun _ => moves_push _
    · exact (quiet_ofExcept _).then fun _ => moves_push _
  · exact (touches_inquire _).quiet.then fun _ => moves_push _

/-! ### Memory -/

theorem moves_mload : Moves p caller ⟨0, 0, 0⟩ (mload ctx) ⟨1, 1, 1⟩ := by
  refine moves_begin 1 (moves_pop.bind fun address => quiet_getPath.then fun path => ?_)
  dsimp only
  split
  · exact (quiet_ofExcept _).then fun grown => (moves_push _).bind fun _ =>
      (touches_setActive _).quiet.moves
  · refine (quiet_ofExcept _).then fun size => (touches_growSymbolic _ _).quiet.then fun grown =>
      (touches_wordNamed _).quiet.then fun v => (moves_push v).bind fun _ =>
      Quiet.moves (Within.quiet ?_)
    grind

theorem moves_sha3 : Moves p caller ⟨0, 0, 0⟩ (sha3 ctx) ⟨2, 1, 1⟩ := by
  refine moves_begin 2 (moves_pop.bind fun start => moves_pop.bind fun size => ?_)
  split
  · refine quiet_getPath.then fun path => ?_
    dsimp only
    split
    · exact moves_push _
    · exact (touches_fresh _).quiet.then fun name => Quiet.then (fun _ => rfl) fun _ => moves_push _
  · exact (touches_fresh _).quiet.then fun name => (touches_declare name).quiet.then fun _ =>
      moves_push _

/-! ### The transaction, the block, call data and code -/

theorem moves_address : Moves p caller ⟨0, 0, 0⟩ address ⟨0, 1, 1⟩ := by
  refine (moves_advance 1).bind fun _ => quiet_getPath.then fun path => ?_
  split
  · exact moves_push _
  · exact moves_throw _

theorem moves_balance : Moves p caller ⟨0, 0, 0⟩ (balance ctx) ⟨1, 1, 1⟩ := by
  refine moves_begin 1 (moves_pop.bind fun owner => ?_)
  dsimp only
  split
  · exact (touches_askBalance _).quiet.then fun v => Quiet.then (fun _ => rfl) fun _ => moves_push v
  · exact (touches_fresh _).quiet.then fun _ => (touches_wordNamed _).quiet.then fun v =>
      Quiet.then (fun _ => rfl) fun _ => moves_push v

theorem moves_codeCopy : Moves p caller ⟨0, 0, 0⟩ (codeCopy ctx) ⟨3, 0, 1⟩ := by
  refine moves_begin 3 (moves_pop.bind fun location => moves_pop.bind fun start =>
    moves_pop.bind fun count => Quiet.moves (Within.quiet (touches_getWorld.bind fun w => ?_)))
  split <;> grind

theorem moves_extCodeSize : Moves p caller ⟨0, 0, 0⟩ (extCodeSize ctx) ⟨1, 1, 1⟩ := by
  refine moves_begin 1 (moves_pop.bind fun owner => ?_)
  split
  · refine (touches_askCode _).quiet.then fun code => ?_
    split
    · exact moves_push _
    · exact moves_push _
    · exact moves_push _
    · exact moves_throw _
  · exact (touches_wordNamed _).quiet.then fun _ => moves_push _

/-! ### Storage and the stack -/

theorem moves_loadUnknown (position : Value) :
    Moves p caller ⟨t, q, d⟩ (loadUnknown ctx position) ⟨t, q + 1, d⟩ :=
  touches_storageLabel.quiet.then fun _ => (touches_wordNamed _).quiet.then fun v =>
    (moves_push v).bind fun _ => (touches_setStorage _ _).quiet.moves

theorem moves_sload : Moves p caller ⟨0, 0, 0⟩ (sload ctx) ⟨1, 1, 1⟩ := by
  refine moves_begin 1 (moves_pop.bind fun position => quiet_getWorld.then fun world => ?_)
  dsimp only
  split
  · exact moves_push _
  · exact (touches_askStorage _).quiet.then fun v => (touches_setStorage _ _).quiet.then fun _ =>
      moves_push _
  · split
    · exact moves_push _
    · exact moves_loadUnknown position

theorem moves_sstore : Moves p caller ⟨0, 0, 0⟩ (sstore ctx) ⟨2, 0, 1⟩ := by
  refine (quiet_need 2).then fun _ => ?_
  have hmark : Moves p caller ⟨0, 0, 0⟩ (do
      let path ← getPath
      modifyShared fun s =>
        { s with affected := path.calls.foldl (fun t c => t.insert c true) s.affected })
          ⟨0, 0, 0⟩ := by
    refine moves_markCalls fun r table c hr => ?_
    rw [Table.contains_insert] at hr
    simpa [or_comm] using hr
  have h := hmark.bind fun _ => (moves_advance 1).bind fun _ => moves_pop.bind fun position =>
    moves_pop.bind fun v => (touches_setStorage (Key.ofValue ctx.print position) v).quiet.moves
  rwa [bind_assoc] at h

@[simp] theorem number_some (n : Int) : number (some n) = pure n := rfl

theorem moves_pushOperand (width : Int) (operand : Operand) :
    Moves p caller ⟨0, 0, 0⟩ (pushOperand ctx (some width) operand) ⟨0, 1, 1 + width⟩ := by
  have hadvance : Moves p caller ⟨0, 0, 0⟩ (advance (1 + width)) ⟨0, 0, 1 + width⟩ := by
    simpa using moves_advance (t := 0) (q := 0) (d := 0) (1 + width)
  simp only [pushOperand, number_some, pure_bind]
  refine hadvance.bind fun _ => ?_
  cases operand with
  | value n => exact moves_push _
  | missing => exact moves_throw _
  | unreadable => exact moves_throw _

theorem stack_of_reached {b : Marks} (h : Motion.Reached ⟨0, 0, d⟩ p caller a b) :
    b.stack = a.stack := by
  obtain ⟨top, hlength, htop⟩ := h.stack
  obtain rfl := List.length_eq_zero_iff.1 hlength
  exact htop

theorem moves_dup (depth : Int) :
    Moves p caller ⟨0, 0, 0⟩ (dup (some depth)) ⟨depth.toNat, depth.toNat + 1, 1⟩ := by
  simp only [dup, number_some, pure_bind]
  refine (moves_advance 1).bind fun _ a m h => ?_
  have hstack : m.path.stack = a.stack := stack_of_reached h
  rw [outcome_bind_getPath]
  split
  · exact ⟨h.notes, by simp⟩
  next hdeep =>
    have hk : 0 + depth.toNat ≤ a.stack.length := by
      rw [hstack] at hdeep
      omega
    obtain ⟨hnotes, hok⟩ := (quiet_ofExcept (itemAt m.path.stack (depth - 1))).then
      (fun v => moves_push v) a m h
    refine ⟨hnotes, fun r m' ho => ?_⟩
    have := (hok r m' ho).deeper hk
    rwa [Nat.zero_add, Nat.zero_add, Nat.add_comm 1] at this

theorem moves_swap (depth : Nat) :
    Moves p caller ⟨0, 0, 0⟩ (swap (some depth)) ⟨depth + 1, depth + 1, 1⟩ := by
  simp only [swap, number_some, pure_bind]
  refine (moves_advance 1).bind fun _ a m h => ?_
  have hstack : m.path.stack = a.stack := stack_of_reached h
  rw [outcome_bind_getPath]
  split
  · exact ⟨h.notes, by simp⟩
  next hdeep =>
    have hlt : depth < a.stack.length := by
      rw [hstack] at hdeep
      omega
    rcases itemAt m.path.stack depth with e | deep
    · exact ⟨h.notes, by simp [outcome_bind]⟩
    rcases itemAt m.path.stack 0 with e | top
    · exact ⟨h.notes, by simp [outcome_bind]⟩
    refine ⟨{ h.notes with }, fun r m' ho => ?_⟩
    cases ho
    refine ⟨hlt, ⟨((m.path.stack.set depth top).set 0 deep).take (depth + 1), ?_, ?_⟩, h.pc,
      { h.notes with }⟩
    · simp [hstack, Nat.min_eq_left (Nat.succ_le_of_lt hlt)]
    · have hset : setItem (setItem m.path.stack depth top) 0 deep =
          (m.path.stack.set depth top).set 0 deep := rfl
      have hdrop : ((m.path.stack.set depth top).set 0 deep).drop (depth + 1) =
          a.stack.drop (depth + 1) := by
        rw [List.drop_set_of_lt (Nat.succ_pos depth), List.drop_set_of_lt (Nat.lt_succ_self depth),
          hstack]
      change setItem (setItem m.path.stack depth top) 0 deep = _
      rw [hset, ← hdrop, List.take_append_drop]

/-! ### Jumps and ends -/

theorem moves_report {feasible : Bool} {at_ : Int} (h : at_ = p ∨ at_ = caller) :
    Moves p caller s (do
      if !feasible then throw .unsetResult
      modifyProblems fun r => { r with assertions := r.assertions ++ [at_] }) s := by
  have hnote : Moves p caller s
      (modifyProblems fun r => { r with assertions := r.assertions ++ [at_] }) s := by
    refine moves_of_outcome (outcome_modifyShared _) fun a m hs => ?_
    refine ⟨hs.taken_le, hs.stack, hs.pc, { hs.notes with assertions := fun r hr => ?_ }⟩
    rcases List.mem_append.1 hr with hr | hr
    · exact hs.notes.assertions r hr
    · obtain rfl := List.mem_singleton.1 hr
      rcases h with h | h
      · exact .inr h
      · exact .inl (.inr h)
  exact moves_ite ((moves_throw _).bind fun _ => hnote) hnote

theorem moves_assertFail : Moves p caller ⟨0, 0, 0⟩ (assertFail ctx caller) ⟨0, 0, 0⟩ := by
  unfold assertFail
  split
  · exact (quiet_pure ()).moves
  · refine quiet_pc.then fun at_ => (quiet_ofExcept _).then fun code =>
      touches_verdict.quiet.then fun v => ?_
    have hreport (feasible : Bool) (name : String) : Moves p caller ⟨0, 0, 0⟩ (do
        let report (at_ : Int) : Exec Unit := do
          if !feasible then throw .unsetResult
          modifyProblems fun r => { r with assertions := r.assertions ++ [at_] }
        if name = "assert" then report (← pc)
        else if caller ≠ -1 then report caller) ⟨0, 0, 0⟩ :=
      moves_ite (moves_pc (moves_report (.inl (Int.add_zero p))))
        (moves_ite (moves_report (.inr rfl)) (quiet_pure ()).moves)
    cases v with
    | unsat => exact (quiet_pure false).then fun _ => hreport _ _
    | sat values => exact (quiet_pure true).then fun _ => hreport _ _
    | unknown => exact moves_throw _ |>.bind fun _ => hreport _ _

/-! ### Calls -/

theorem moves_pay (amount : Value) : Moves p caller ⟨t, q, 1⟩ (pay ctx amount) ⟨t, q + 1, 1⟩ := by
  refine (touches_balanceOf _).quiet.then fun held => (quiet_ofExcept _).then fun enough =>
    (touches_inquire _).quiet.then fun may => moves_ite ?_ ?_
  · refine (moves_push _).bind fun _ => (touches_assertThat _).quiet.then fun _ =>
      (touches_addCondition _).quiet.then fun _ => moves_pc ?_
    dsimp only
    rw [Int.add_sub_cancel]
    exact moves_noteCondition.bind fun _ => (quiet_pure _).moves
  · exact (moves_push _).bind fun _ => (quiet_pure _).moves

theorem moves_call : Moves p caller ⟨0, 0, 0⟩ (call ctx) ⟨7, 1, 1⟩ := by
  refine (quiet_need 7).then fun _ => moves_noteCall.bind fun _ => (moves_advance 1).bind fun _ =>
    (moves_drop 1).bind fun _ => moves_pop.bind fun recipient => moves_pop.bind fun amount =>
    (moves_drop 4).bind fun _ => moves_ite (moves_push _) ?_
  refine (moves_pay amount).bind fun paid => Quiet.moves (Within.quiet ?_)
  grind

theorem moves_callCode : Moves p caller ⟨0, 0, 0⟩ (callCode ctx) ⟨7, 1, 1⟩ :=
  (quiet_need 7).then fun _ => moves_noteCall.bind fun _ => (moves_advance 1).bind fun _ =>
    (moves_drop 1).bind fun _ => moves_pop.bind fun _ =>
    (touches_noteRecipient _).quiet.then fun _ =>
    moves_pop.bind fun amount => (moves_drop 4).bind fun _ => moves_ite (moves_push _)
      ((moves_pay amount).bind fun _ => (quiet_pure _).moves)

/-! ### Charging -/

theorem quiet_charge (instruction : Instruction) : Quiet (Gas.charge ctx instruction) := by
  refine Within.quiet
    (((touches_dynamic _).mono (by decide)).bind fun _ => touches_getPath.bind fun _ => ?_)
  exact touches_of_replace .fees fun _ => ⟨(_, _), rfl⟩

theorem moves_noteMove (op : Operation) : Moves p caller ⟨0, 0, 0⟩ (noteMove ctx op) ⟨0, 0, 0⟩ := by
  unfold noteMove
  split
  · refine (touches_peek 1).quiet.then fun recipient => (touches_peek 2).quiet.then fun amount =>
      moves_ite (quiet_pure ()).moves ?_
    exact (quiet_ofExcept _).then fun _ => touches_checkReentrancy.quiet.then fun _ =>
      Quiet.then (fun _ => rfl) fun _ => moves_noteTransfer _
  · exact (touches_peek 0).quiet.then fun _ => (quiet_ofExcept _).then fun _ => moves_noteTransfer _
  · exact (quiet_pure ()).moves

theorem moves_prepare (instruction : Instruction) :
    Moves p caller ⟨0, 0, 0⟩ (prepare ctx instruction) ⟨0, 0, 0⟩ := by
  have hanalysis : Moves p caller ⟨0, 0, 0⟩ (updateAnalysis ctx instruction) ⟨0, 0, 0⟩ :=
    (quiet_charge instruction).then fun _ => moves_noteMove _
  refine moves_ite (quiet_pure ()).moves (hanalysis.bind fun _ => ?_)
  exact moves_ite moves_noteReentrancy (quiet_pure ()).moves

/-! ### Every instruction -/

/-- The items that an operation takes and puts, and the bytes it passes; nothing is said of one that
cannot be performed. The size of the code, the two operations that are not charged, a jump and the
regular end stay where they are. -/
def uses : Operation → Option Motion
  | .invalid | .assertFail => some ⟨0, 0, 0⟩
  | .stop | .jumpDest => some ⟨0, 0, 1⟩
  | .add | .mul | .sub | .div | .sdiv | .mod | .smod | .exp | .signExtend | .lt | .gt | .slt | .sgt
  | .eq | .and | .or | .xor | .byte | .sha3 => some ⟨2, 1, 1⟩
  | .addMod | .mulMod | .create => some ⟨3, 1, 1⟩
  | .isZero | .not | .balance | .callDataLoad | .extCodeSize | .blockHash | .mload | .sload =>
    some ⟨1, 1, 1⟩
  | .address | .caller | .origin | .callValue | .callDataSize | .returnDataSize | .gasPrice
  | .coinbase | .timestamp | .number | .difficulty | .gasLimit | .pc | .msize | .gas =>
    some ⟨0, 1, 1⟩
  | .codeSize => some ⟨0, 1, 0⟩
  | .callDataCopy | .codeCopy | .returnDataCopy => some ⟨3, 0, 1⟩
  | .extCodeCopy => some ⟨4, 0, 1⟩
  | .pop | .selfDestruct => some ⟨1, 0, 1⟩
  | .mstore | .mstore8 | .sstore | .revert => some ⟨2, 0, 1⟩
  | .jump => some ⟨1, 0, 0⟩
  | .jumpIf | .halt => some ⟨2, 0, 0⟩
  | .push (some width) _ => some ⟨0, 1, 1 + width⟩
  | .dup (some depth) => some ⟨depth.toNat, depth.toNat + 1, 1⟩
  | .swap (some (.ofNat depth)) => some ⟨depth + 1, depth + 1, 1⟩
  | .log topics => some ⟨2 + topics, 0, 1⟩
  | .call | .callCode => some ⟨7, 1, 1⟩
  | .delegateCall | .staticCall => some ⟨6, 1, 1⟩
  | _ => none

theorem moves_perform (ctx : Context) (p : Int) (site : Site) (name : String) (op : Operation) :
    (uses op).elim True (Moves p site.caller ⟨0, 0, 0⟩ (perform ctx site name op)) := by
  cases op with
  | invalid => exact (quiet_pure ()).moves
  | assertFail => exact moves_assertFail
  | stop | jumpDest => exact moves_advance 1
  | add => exact moves_add site.block
  | sub => exact moves_sub site.block
  | mul | and | or | xor => exact moves_binary_quiet fun _ _ => touches_ofExcept _
  | div | sdiv | mod | smod | signExtend => exact moves_settle _ _
  | addMod | mulMod => exact moves_modular _ _
  | exp => exact moves_binary_quiet fun _ _ => by split <;> grind
  | lt => exact moves_compare toUnsigned (fun m n => m < n) (unsignedOrder .ult)
  | gt => exact moves_compare toUnsigned (fun m n => m > n) (unsignedOrder .ugt)
  | slt => exact moves_compare toSigned (fun m n => m < n) Value.lt
  | sgt => exact moves_compare toSigned (fun m n => m > n) Value.gt
  | eq => exact moves_compare id (fun m n => m = n) Value.eq
  | isZero => exact moves_unary fun _ => by split <;> grind
  | not => exact moves_unary fun _ => touches_ofExcept _
  | byte => exact moves_byte
  | sha3 => exact moves_sha3
  | address => exact moves_address
  | balance => exact moves_balance
  | caller | origin | callValue | gasPrice | coinbase | timestamp | number | difficulty
  | gasLimit =>
    exact (moves_advance 1).bind fun _ => quiet_getPath.then fun _ => moves_push _
  | callDataLoad =>
    exact moves_begin 1 (moves_pop.bind fun _ => (touches_dataName _ _).quiet.then fun _ =>
      (touches_itemNamed _).quiet.then fun _ => moves_push _)
  | callDataSize =>
    exact (moves_advance 1).bind fun _ => (touches_wordNamed _).quiet.then fun _ => moves_push _
  | callDataCopy | returnDataCopy => exact moves_begin 3 (moves_drop_first 3)
  | pop => exact moves_begin 1 (moves_drop_first 1)
  | codeSize => exact touches_codeText.quiet.then fun _ => moves_push _
  | codeCopy => exact moves_codeCopy
  | returnDataSize =>
    exact (moves_advance 1).bind fun _ => (touches_fresh _).quiet.then fun _ => moves_push _
  | extCodeSize => exact moves_extCodeSize
  | extCodeCopy =>
    exact moves_begin 4 (moves_pop.bind fun _ => moves_pop.bind fun _ => moves_pop.bind fun _ =>
      moves_pop.bind fun _ => Quiet.moves (Within.quiet (by grind [copyForeign])))
  | blockHash =>
    exact moves_begin 1
      (moves_pop.bind fun _ => (touches_wordNamed _).quiet.then fun _ => moves_push _)
  | mload => exact moves_mload
  | mstore | mstore8 =>
    exact moves_begin 2
      (moves_pop.bind fun _ => moves_pop.bind fun _ => Quiet.moves (Within.quiet (by grind)))
  | sload => exact moves_sload
  | sstore => exact moves_sstore
  | jump =>
    exact (quiet_need 1).then fun _ => moves_pop.bind fun v =>
      (touches_targetOf v).quiet.then fun _ =>
      (touches_updateBlock _ _).quiet.then fun _ => (touches_addEdge _ _).quiet.moves
  | jumpIf =>
    exact (quiet_need 2).then fun _ => moves_pop.bind fun v =>
      (touches_targetOf v).quiet.then fun _ =>
      (touches_updateBlock _ _).quiet.then fun _ => moves_pop.bind fun _ =>
      Quiet.moves (Within.quiet (by grind))
  | pc => exact quiet_pc.then fun _ => (moves_push _).bind fun _ => moves_advance 1
  | msize =>
    exact (moves_advance 1).bind fun _ => quiet_getWorld.then fun _ =>
      (quiet_ofExcept _).then fun _ => moves_push _
  | gas =>
    exact (moves_advance 1).bind fun _ => (touches_fresh _).quiet.then fun _ =>
      (touches_declare _).quiet.then fun _ => moves_push _
  | push width operand =>
    cases width with
    | none => trivial
    | some width => exact moves_pushOperand width operand
  | dup depth =>
    cases depth with
    | none => trivial
    | some depth => exact moves_dup depth
  | swap depth =>
    obtain _ | depth | _ := depth
    · trivial
    · exact moves_swap depth
    · trivial
  | log topics => exact (moves_advance 1).bind fun _ => moves_drop_first (2 + topics)
  | create =>
    exact moves_begin 3
      ((moves_drop_first 3).bind fun _ => (touches_fresh _).quiet.then fun _ => moves_push _)
  | call => exact moves_call
  | callCode => exact moves_callCode
  | delegateCall | staticCall =>
    exact moves_begin 6 ((moves_drop 1).bind fun _ => moves_pop.bind fun _ =>
      (touches_noteRecipient _).quiet.then fun _ => (moves_drop 4).bind fun _ =>
      (touches_fresh _).quiet.then fun _ => moves_push _)
  | halt => exact (quiet_need 2).then fun _ => moves_drop 2
  | revert =>
    exact (quiet_need 2).then fun _ => quiet_getPath.then fun _ =>
      Quiet.then (fun _ => rfl) fun _ => (moves_advance 1).bind fun _ => moves_drop 2
  | selfDestruct =>
    exact (moves_advance 1).bind fun _ => moves_pop.bind fun _ =>
      (touches_balanceOf _).quiet.then fun _ =>
      (touches_setBalance _ _).quiet.then fun _ => (touches_creditUnknown _ _).quiet.moves
  | unknown => trivial

theorem moves_unread {name : String} {op : Operation} (h : uses op = none)
    (hswap : ∀ k, op ≠ .swap (some (.negSucc k))) :
    Moves p site.caller ⟨0, 0, 0⟩ (perform ctx site name op) s := by
  have hnumber {β : Type} (f : Int → Exec β) (t' : Motion) :
      Moves p site.caller t' (number none >>= f) s :=
    fun _ _ hr => ⟨hr.notes, fun _ _ ho => by cases ho⟩
  cases op with
  | push width operand =>
    cases width with
    | none => exact hnumber _ _
    | some width => cases h
  | dup depth =>
    cases depth with
    | none => exact (moves_advance 1).bind fun _ => hnumber _ _
    | some depth => cases h
  | swap depth =>
    match depth with
    | none => exact (moves_advance 1).bind fun _ => hnumber _ _
    | some (.ofNat _) => cases h
    | some (.negSucc k) => exact absurd rfl (hswap k)
  | unknown =>
    refine moves_ite ((touches_say _ _).quiet.then fun _ => ?_) (moves_throw _)
    exact fun _ _ hr => ⟨hr.notes, fun _ _ ho => by cases ho⟩
  | _ => cases h

theorem notes_swap (h : a.Notes p caller m.marks) (depth : Option Int) :
    a.Notes p caller ((swap depth).outcome m).2.marks := by
  cases depth with
  | none => exact { h with }
  | some n =>
    simp only [swap, number_some, pure_bind, outcome_bind, outcome_advance, outcome_getPath]
    split
    · exact { h with }
    · rcases itemAt m.path.stack n with e | deep
      · exact { h with }
      rcases itemAt m.path.stack 0 with e | top
      · exact { h with }
      · exact { h with }

theorem notes_perform {name : String} (op : Operation)
    (h : Motion.Reached ⟨0, 0, 0⟩ p site.caller a m.marks) :
    a.Notes p site.caller ((perform ctx site name op).outcome m).2.marks := by
  by_cases hswap : ∀ k, op ≠ .swap (some (.negSucc k))
  · cases huses : uses op with
    | none => exact (moves_unread (s := ⟨0, 0, 0⟩) huses hswap a m h).1
    | some s =>
      have hmoves := moves_perform ctx p site name op
      rw [huses] at hmoves
      exact (hmoves a m h).1
  · obtain ⟨k, rfl⟩ : ∃ k, op = .swap (some (.negSucc k)) := by simpa using hswap
    exact notes_swap h.notes _

theorem notes_step (instruction : Instruction)
    (h : Motion.Reached ⟨0, 0, 0⟩ p site.caller a m.marks) :
    a.Notes p site.caller ((step ctx site instruction).outcome m).2.marks :=
  moves_markVisited.notes_bind h fun _ _ h => (moves_prepare instruction).notes_bind h fun _ _ h =>
    notes_perform _ h

theorem Moves.of_perform
    (h : Moves p site.caller ⟨0, 0, 0⟩ (perform ctx site instruction.name instruction.operation)
      s) : Moves p site.caller ⟨0, 0, 0⟩ (step ctx site instruction) s :=
  moves_markVisited.bind fun _ => (moves_prepare instruction).bind fun _ => h

theorem moves_step (h : uses instruction.operation = some s) :
    Moves p site.caller ⟨0, 0, 0⟩ (step ctx site instruction) s := by
  have hperform := moves_perform ctx p site instruction.name instruction.operation
  rw [h] at hperform
  exact hperform.of_perform

end EvmAudit.Exec
