import EvmAudit.Proofs.Machine.Changes

/-! How many scopes each instruction leaves open, by its operands. An instruction that puts a
question to the solver leaves the scope of the question open when it fails before the answer is
there. -/

namespace EvmAudit

theorem Machine.changes_taken (m : Machine) (rest : List Value) : m.Changes 0 (m.taken rest) :=
  ⟨.refl _, .refl _, Nat.le_refl _⟩

namespace Exec

variable {α β : Type} {ctx : Context}

def onTwo (n : Value → Value → Shared → Nat) (m : Machine) : Nat :=
  match m.path.stack with
  | a :: b :: _ => n a b m.shared
  | _ => 0

theorem length_lt_two {m : Machine} (h : ∀ a b rest, m.path.stack ≠ a :: b :: rest) :
    m.path.stack.length < 2 := by
  by_contra hlt
  obtain ⟨a, b, rest, hs⟩ := exists_two_items (Nat.not_lt.1 hlt)
  exact h a b rest hs

theorem length_lt_three {m : Machine} (h : ∀ a b c rest, m.path.stack ≠ a :: b :: c :: rest) :
    m.path.stack.length < 3 := by
  by_contra hlt
  obtain ⟨a, b, c, rest, hs⟩ := exists_three_items (Nat.not_lt.1 hlt)
  exact h a b c rest hs

theorem leaves_binary {f : Value → Value → Exec Value} {n : Value → Value → Shared → Nat}
    (hf : ∀ a b, Leaves (fun m => n a b m.shared) (f a b)) : Leaves (onTwo n) (binary ctx f) := by
  intro m
  unfold onTwo
  split
  next a b rest h =>
    rw [outcome_binary ctx f h]
    have hrest := (hf a b).bind_tame fun v => touches_push (ctx.simplify.value v)
    exact (m.changes_taken rest).zero_trans (hrest (m.taken rest))
  next h =>
    rw [binary, outcome_of_lt _ (length_lt_two h)]
    exact .refl m

/-! ### Arithmetic -/

def askLeft {α : Type} (question : Except Fault α) : Nat :=
  match question with
  | .error _ => 1
  | .ok _ => 0

theorem left_whether (question : Except Fault Formula) (s : Shared) :
    (Inquiry.whether question).left ctx s = askLeft question := by
  cases question with
  | error e => rfl
  | ok f =>
    unfold Inquiry.left Inquiry.whether Inquiry.eval
    dsimp only
    split <;> rfl

@[simp] theorem outcome_checksWrap (block : Int) (m : Machine) :
    outcome (checksWrap block) m = (m.shared.graph.checksWrap block, m) := rfl

def wrapLeft (block : Int) (symbolic : Bool) (question : Except Fault Formula) (s : Shared) : Nat :=
  match s.graph.checksWrap block with
  | .ok true => if symbolic then askLeft question else 0
  | _ => 0

theorem leaves_wrap (block : Int) (symbolic : Bool) (question : Except Fault Formula) (v : Value)
    {note : Exec Unit} (hnote : Tame note) :
    Leaves (fun m => wrapLeft block symbolic question m.shared) (do
      if ← checksWrap block then
        if symbolic then
          if ← inquire ctx (.whether question) then note
      return v) := by
  intro m
  dsimp only [wrapLeft]
  rw [outcome_bind, outcome_checksWrap]
  rcases m.shared.graph.checksWrap block with e | _ | _
  · exact .refl m
  · exact .refl m
  · cases symbolic with
    | false => exact .refl m
    | true =>
      have hrest (w : Bool) : Tame (if w = true then do note; pure v else pure v) :=
        touches_ite (hnote.bind fun _ => touches_pure v) (touches_pure v)
      have h := (leaves_inquire ctx (.whether question)).bind_tame hrest m
      rwa [left_whether] at h

def addLeft (ctx : Context) (block : Int) (a b : Value) (s : Shared) : Nat :=
  match Arithmetic.sum a b with
  | .error _ => 0
  | .ok v =>
    let first := if a.isConcrete && b.isSymbolic then a.lift else a
    let sum := ctx.simplify.value v
    wrapLeft block (sum.isSymbolic || first.isSymbolic) (Value.unsigned .ugt first sum) s

theorem leaves_add (block : Int) : Leaves (onTwo (addLeft ctx block)) (add ctx block) := by
  refine leaves_binary fun a b m => ?_
  dsimp only [addLeft]
  rw [outcome_bind, outcome_ofExcept]
  cases Arithmetic.sum a b with
  | error e => exact .refl m
  | ok v => exact leaves_wrap block _ _ (ctx.simplify.value v) touches_noteOverflow m

def subLeft (block : Int) (a b : Value) (s : Shared) : Nat :=
  match Arithmetic.difference a b with
  | .error _ => 0
  | .ok _ =>
    let mixed := a.isConcrete != b.isConcrete
    let first := if mixed then a.lift else a
    let second := if mixed then b.lift else b
    wrapLeft block (first.isSymbolic || second.isSymbolic) (Value.unsigned .ugt second first) s

theorem leaves_sub (block : Int) : Leaves (onTwo (subLeft block)) (sub ctx block) := by
  refine leaves_binary fun a b m => ?_
  dsimp only [subLeft]
  rw [outcome_bind, outcome_ofExcept]
  cases Arithmetic.difference a b with
  | error e => exact .refl m
  | ok v => exact leaves_wrap block _ _ (ctx.simplify.value v) touches_noteUnderflow m

def settleLeft (ctx : Context) (onSymbols : Value → Value → Inquiry Value) (a b : Value)
    (s : Shared) : Nat :=
  if (both a b).isSome then 0 else (onSymbols a.lift b.lift).left ctx s

theorem leaves_settle (onInts : Int → Int → Except Fault Value)
    (onSymbols : Value → Value → Inquiry Value) :
    Leaves (onTwo (settleLeft ctx onSymbols)) (settle ctx onInts onSymbols) := by
  refine leaves_binary fun a b m => ?_
  dsimp only [settleLeft]
  rcases both a b with _ | ⟨x, y⟩
  · exact leaves_inquire ctx (onSymbols a.lift b.lift) m
  · exact .refl m

def byteLeft (ctx : Context) (a b : Value) (s : Shared) : Nat :=
  match (do (← (Value.int 32).sub a).sub (.int 1) : Except Fault Value) with
  | .error _ => 0
  | .ok index =>
    if (both a b).isSome then 0
    else (byteInquiry a.lift b.lift ((Value.int 8).mul index)).left ctx s

theorem leaves_byte : Leaves (onTwo (byteLeft ctx)) (byte ctx) := by
  intro m
  unfold onTwo
  split
  next a b rest h =>
    rw [byte, outcome_need_advance _ (by simp [h]), h, outcome_pop_taken]
    rw [outcome_bind, outcome_ofExcept, byteLeft, both]
    generalize (do (← (Value.int 32).sub a).sub (.int 1) : Except Fault Value) = index
    cases index with
    | error e => exact m.changes_taken (b :: rest)
    | ok index =>
      dsimp only
      rw [outcome_pop_taken]
      refine (m.changes_taken rest).zero_trans ?_
      have hasked :=
        (leaves_inquire ctx (byteInquiry a.lift b.lift ((Value.int 8).mul index))).bind_tame
        (fun v => touches_push (ctx.simplify.value v)) (m.taken rest)
      have hpush (v : Value) : Tame (push (ctx.simplify.value v)) := touches_push _
      cases a.toInt? <;> cases b.toInt? <;> try exact hasked
      exact touches_ite (R := Machine.Changes 0) ((touches_pure _).bind hpush)
        ((touches_ofExcept _).bind hpush) (m.taken rest)
  next h =>
    rw [byte, outcome_of_lt _ (length_lt_two h)]
    exact .refl m

def modularLeft (ctx : Context) (onTerms : Term → Term → Term → Term) (m : Machine) : Nat :=
  match m.path.stack with
  | a :: b :: c :: _ =>
    match a.toInt?, b.toInt?, c.toInt? with
    | some _, some _, some _ => 0
    | _, _, _ => (Inquiry.modular onTerms a b c).left ctx m.shared
  | _ => 0

theorem leaves_modular (onInts : Int → Int → Int) (onTerms : Term → Term → Term → Term) :
    Leaves (modularLeft ctx onTerms) (modular ctx onInts onTerms) := by
  intro m
  unfold modularLeft
  split
  next a b c rest h =>
    rw [modular, outcome_need_advance _ (by simp [h]), h, outcome_pop_taken, outcome_pop_taken,
      outcome_pop_taken]
    refine (m.changes_taken rest).zero_trans ?_
    have hasked := (leaves_inquire ctx (Inquiry.modular onTerms a b c)).bind_tame
      (fun v => touches_push (ctx.simplify.value v)) (m.taken rest)
    dsimp only
    cases a.toInt? <;> cases b.toInt? <;> cases c.toInt? <;> try exact hasked
    exact Tame.bind (touches_pure _) (fun v : Value => touches_push (ctx.simplify.value v))
      (m.taken rest)
  next h =>
    rw [modular, outcome_of_lt _ (length_lt_three h)]
    exact .refl m

/-! ### Memory -/

def growLeft (ctx : Context) (current size : Value) (s : Shared) : Nat :=
  match current.lt size with
  | .error _ => 0
  | .ok exceeds => if ctx.tracksSize then (largerSize current size exceeds).left ctx s else 0

theorem leaves_growSymbolic (current size : Value) :
    Leaves (fun m => growLeft ctx current size m.shared) (growSymbolic ctx current size) := by
  intro m
  dsimp only [growLeft]
  rw [growSymbolic, outcome_bind, outcome_ofExcept]
  cases current.lt size with
  | error e => exact .refl m
  | ok exceeds =>
    dsimp only
    split
    · exact leaves_inquire ctx (largerSize current size exceeds) m
    · exact .of_solver (Solver.Left.of_frames rfl)

def accessLeft (ctx : Context) (current : Value) (size : Except Fault Value) (s : Shared) : Nat :=
  match size with
  | .error _ => 0
  | .ok size => growLeft ctx current size s

theorem leaves_access (current : Value) (size : Except Fault Value) {f : Value → Exec Unit}
    (hf : ∀ v, Tame (f v)) :
    Leaves (fun m => accessLeft ctx current size m.shared) (do
      let size ← ofExcept size
      let grown ← growSymbolic ctx current size
      f grown) := by
  intro m
  rw [outcome_bind, outcome_ofExcept]
  cases size with
  | error e => exact .refl m
  | ok size => exact (leaves_growSymbolic current size).bind_tame hf m

def mloadLeft (ctx : Context) (m : Machine) : Nat :=
  match m.path.stack with
  | address :: _ =>
    if (knownWord? m.path address).isSome then 0
    else
      accessLeft ctx m.path.world.activeWords.lift (do wordsUpTo (← address.add (.int 31))) m.shared
  | [] => 0

theorem leaves_mload : Leaves (mloadLeft ctx) (mload ctx) := by
  intro m
  unfold mloadLeft
  cases h : m.path.stack with
  | nil =>
    rw [mload, outcome_of_lt _ (by simp [h])]
    exact .refl m
  | cons address rest =>
    rw [mload, outcome_need_advance _ (by simp [h]), h, outcome_pop_taken, outcome_bind,
      outcome_getPath]
    refine (m.changes_taken rest).zero_trans ?_
    have hknown : knownWord? (m.taken rest).path address = knownWord? m.path address := rfl
    dsimp only
    rw [hknown]
    rcases knownWord? m.path address with _ | ⟨a, n, v⟩
    · exact leaves_access _ _
        (fun _ => (touches_wordNamed _).bind fun v => (touches_push v).bind fun _ =>
        (touches_setWord _ _).bind fun _ => touches_setActive _) (m.taken rest)
    · exact Tame.bind (touches_ofExcept _)
        (fun _ => (touches_push v).bind fun _ => touches_setActive _) (m.taken rest)

theorem leaves_unlessBoth (a b : Value) {x : Int → Int → Exec Unit} {y : Exec Unit}
    {n : Machine → Nat} (hx : ∀ i j, Tame (x i j)) (hy : Leaves n y) :
    Leaves (fun m => if (both a b).isSome then 0 else n m)
      (match a.toInt?, b.toInt? with
        | some i, some j => x i j
        | _, _ => y) := by
  intro m
  rcases ha : a.toInt? with _ | i
  · simpa [both, ha] using hy m
  · rcases hb : b.toInt? with _ | j
    · simpa [both, ha, hb] using hy m
    · simpa [both, ha, hb] using hx i j m

def mstore8Left (ctx : Context) (m : Machine) : Nat :=
  match m.path.stack with
  | address :: v :: _ =>
    match v.mod (.int 256) with
    | .error _ => 0
    | .ok _ =>
      let active := m.path.world.activeWords
      if (both address active).isSome then 0
      else accessLeft ctx active.lift (wordsUpTo address) m.shared
  | _ => 0

theorem leaves_mstore8 : Leaves (mstore8Left ctx) (mstore8 ctx) := by
  intro m
  unfold mstore8Left
  split
  next address v rest h =>
    rw [mstore8, outcome_need_advance _ (by simp [h]), h, outcome_pop_taken, outcome_pop_taken,
      outcome_bind, outcome_ofExcept]
    refine (m.changes_taken rest).zero_trans ?_
    cases v.mod (.int 256) with
    | error e => exact .refl _
    | ok v =>
      exact leaves_unlessBoth address m.path.world.activeWords
        (fun _ _ => (touches_ofExcept _).bind fun _ => (touches_setWord _ _).bind fun _ =>
          touches_setActive _)
        (leaves_access _ _ fun _ => touches_clearWords.bind fun _ =>
          (touches_setWord _ _).bind fun _ => touches_setActive _) (m.taken rest)
  next h =>
    rw [mstore8, outcome_of_lt _ (length_lt_two h)]
    exact .refl m

def mstoreLeft (ctx : Context) (m : Machine) : Nat :=
  match m.path.stack with
  | address :: v :: _ =>
    match ((storeBytes ctx address v).outcome m).1 with
    | .error _ => 0
    | .ok () =>
      let active := m.path.world.activeWords
      if (both address active).isSome then 0
      else accessLeft ctx active (do wordsUpTo (← address.add (.int 31))) m.shared
  | _ => 0

/-- How the computation ends, and the bytes it leaves, depend on the bytes it finds. -/
def OnBytes (x : Exec α) : Prop :=
  ∀ ⦃m m'⦄, m.path.bytes = m'.path.bytes → (x.outcome m).1 = (x.outcome m').1 ∧
    (x.outcome m).2.path.bytes = (x.outcome m').2.path.bytes ∧ (x.outcome m').2.shared = m'.shared

theorem OnBytes.bind {x : Exec α} {f : α → Exec β} (hx : OnBytes x) (hf : ∀ a, OnBytes (f a)) :
    OnBytes (x >>= f) := by
  intro m m' h
  have hfirst := hx h
  rw [outcome_bind, outcome_bind]
  generalize x.outcome m = r at hfirst ⊢
  generalize x.outcome m' = r' at hfirst ⊢
  obtain ⟨_ | a, n⟩ := r <;> obtain ⟨_ | _, n'⟩ := r' <;> obtain ⟨hr, hbytes, hshared⟩ :=
    hfirst <;> cases hr
  · exact ⟨rfl, hbytes, hshared⟩
  · obtain ⟨hr, hb, hs⟩ := hf a hbytes
    exact ⟨hr, hb, hs.trans hshared⟩

theorem onBytes_ofExcept (x : Except Fault α) : OnBytes (ofExcept x) := fun _ _ h => ⟨rfl, h, rfl⟩

theorem onBytes_extendBytes (address : Int) : OnBytes (extendBytes ctx address) := by
  intro m m' h
  simp only [extendBytes, outcome_bind, outcome_getPath, h]
  split
  · exact ⟨rfl, h, rfl⟩
  · split
    · exact ⟨rfl, h, rfl⟩
    · exact ⟨rfl, by simp [h], rfl⟩

theorem onBytes_setByte (address : Int) (v : Value) : OnBytes (setByte address v) := by
  intro m m' h
  simp only [setByte, outcome_bind, outcome_getPath, h]
  generalize (if address < 0 then address + (m'.path.bytes.size : Int) else address) = index
  split
  · exact ⟨rfl, h, rfl⟩
  · exact ⟨rfl, by simp [h], rfl⟩

theorem onBytes_setBytes (address : Int) (n : Nat) (v : Value) :
    OnBytes (setBytes address n v) := by
  induction n generalizing v with
  | zero => exact onBytes_ofExcept (.ok ())
  | succ n ih =>
    exact (onBytes_ofExcept _).bind fun byte => (onBytes_setByte _ byte).bind fun _ =>
      (onBytes_ofExcept _).bind fun v => ih v

theorem onBytes_storeBytes (address v : Value) : OnBytes (storeBytes ctx address v) := by
  unfold storeBytes
  cases address.toInt? with
  | none => exact onBytes_ofExcept (.ok ())
  | some a => exact (onBytes_extendBytes a).bind fun _ => onBytes_setBytes a 32 v

theorem leaves_mstore : Leaves (mstoreLeft ctx) (mstore ctx) := by
  intro m
  unfold mstoreLeft
  split
  next address v rest h =>
    rw [mstore, outcome_need_advance _ (by simp [h]), h, outcome_pop_taken, outcome_pop_taken,
      outcome_bind, outcome_getWorld]
    refine (m.changes_taken rest).zero_trans ?_
    dsimp only
    obtain ⟨hsame, -, hshared⟩ := @onBytes_storeBytes ctx address v m (m.taken rest) rfl
    have htame : Machine.Changes 0 _ _ := @touches_storeBytes ctx _ _ _ address v _ (m.taken rest)
    rw [outcome_bind, hsame]
    generalize (storeBytes ctx address v).outcome (m.taken rest) = r at hshared htame ⊢
    obtain ⟨_ | _, m'⟩ := r
    · exact htame
    · refine htame.zero_trans ?_
      have hm : m.shared = m'.shared := hshared.symm
      dsimp only
      rw [hm]
      exact leaves_unlessBoth address m.path.world.activeWords
        (fun _ _ => (touches_ofExcept _).bind fun _ => (touches_setWord _ _).bind fun _ =>
          touches_setActive _)
        (leaves_access _ _ fun _ => touches_clearWords.bind fun _ =>
          (touches_setWord _ _).bind fun _ => touches_setActive _) m'
  next h =>
    rw [mstore, outcome_of_lt _ (length_lt_two h)]
    exact .refl m

def copyLeft (ctx : Context) (location count : Value) (m : Machine) : Nat :=
  accessLeft ctx m.path.world.activeWords.lift (do wordsUpTo (← location.add count)) m.shared

theorem leaves_copyUnknown (owner location start count : Value) :
    Leaves (copyLeft ctx location count) (copyUnknown ctx owner location start count) := by
  intro m
  unfold copyLeft
  rw [copyUnknown, outcome_bind_getWorld]
  obtain ⟨v, vars, hv⟩ := outcome_wordNamed (Names.code ctx.print owner start count) m
  have htame : Machine.Changes 0 _ _ := touches_wordNamed (Names.code ctx.print owner start count) m
  rw [outcome_bind]
  rw [hv] at htame ⊢
  refine htame.zero_trans ?_
  exact leaves_access _ _ (fun _ => touches_clearWords.bind fun _ =>
    (touches_setWord _ _).bind fun _ => touches_setActive _) { m with path := { m.path with vars } }

def codeCopyLeft (ctx : Context) (m : Machine) : Nat :=
  match m.path.stack with
  | location :: start :: count :: _ =>
    match location.toInt?, m.path.world.activeWords.toInt?, start.toInt?, count.toInt? with
    | some _, some _, some _, some _ => 0
    | _, _, _, _ => copyLeft ctx location count m
  | _ => 0

def extCodeCopyLeft (ctx : Context) (m : Machine) : Nat :=
  match m.path.stack with
  | owner :: location :: start :: count :: _ =>
    if [owner, location, m.path.world.activeWords, start, count].all Value.isConcrete then 0
    else copyLeft ctx location count m
  | _ => 0

theorem leaves_codeCopy : Leaves (codeCopyLeft ctx) (codeCopy ctx) := by
  intro m
  unfold codeCopyLeft
  split
  next location start count rest h =>
    rw [codeCopy, outcome_need_advance _ (by simp [h]), h, outcome_pop_taken, outcome_pop_taken,
      outcome_pop_taken, copyCode, outcome_bind, outcome_getWorld]
    refine (m.changes_taken rest).zero_trans ?_
    have hactive : (m.taken rest).path.world.activeWords = m.path.world.activeWords := rfl
    have hasked := @leaves_copyUnknown ctx (.text Names.address) location start count (m.taken rest)
    dsimp only
    rw [hactive]
    cases location.toInt? <;> cases m.path.world.activeWords.toInt? <;> cases start.toInt? <;>
      cases count.toInt? <;> try exact hasked
    exact Tame.bind (touches_ofExcept _) (fun _ => touches_codeText.bind fun _ =>
      (touches_ofExcept _).bind fun _ => (touches_setWord _ _).bind fun _ => touches_setActive _)
      (m.taken rest)
  next h =>
    rw [codeCopy, outcome_of_lt _ (length_lt_three h)]
    exact .refl m

theorem leaves_extCodeCopy : Leaves (extCodeCopyLeft ctx) (extCodeCopy ctx) := by
  intro m
  unfold extCodeCopyLeft
  split
  next owner location start count rest h =>
    rw [extCodeCopy, outcome_need_advance _ (by simp [h]), h, outcome_pop_taken, outcome_pop_taken,
      outcome_pop_taken, outcome_pop_taken, copyForeign, outcome_bind, outcome_getWorld]
    refine (m.changes_taken rest).zero_trans ?_
    have hactive : (m.taken rest).path.world.activeWords = m.path.world.activeWords := rfl
    dsimp only
    rw [hactive]
    split
    · exact .refl _
    · exact leaves_copyUnknown owner location start count (m.taken rest)
  next h =>
    have hlt : m.path.stack.length < 4 := by
      by_contra hlt
      obtain ⟨a, b, c, rest, hs⟩ := exists_three_items (Nat.le_of_succ_le (Nat.not_lt.1 hlt))
      rw [hs] at hlt
      obtain ⟨d, rest, rfl⟩ : ∃ d tail, rest = d :: tail := by cases rest <;> simp at hlt ⊢
      exact h a b c d rest hs
    rw [extCodeCopy, outcome_of_lt _ hlt]
    exact .refl m

/-! ### Every instruction -/

def performLeft (ctx : Context) (site : Site) : Operation → Machine → Nat
  | .add => onTwo (addLeft ctx site.block)
  | .sub => onTwo (subLeft site.block)
  | .div => onTwo (settleLeft ctx .quotient)
  | .sdiv => onTwo (settleLeft ctx .signedQuotient)
  | .mod => onTwo (settleLeft ctx .remainder)
  | .smod => onTwo (settleLeft ctx .signedRemainder)
  | .signExtend => onTwo (settleLeft ctx .signExtension)
  | .addMod => modularLeft ctx .addMod
  | .mulMod => modularLeft ctx .mulMod
  | .byte => onTwo (byteLeft ctx)
  | .mload => mloadLeft ctx
  | .mstore => mstoreLeft ctx
  | .mstore8 => mstore8Left ctx
  | .codeCopy => codeCopyLeft ctx
  | .extCodeCopy => extCodeCopyLeft ctx
  | _ => fun _ => 0

theorem leaves_perform (site : Site) (name : String) (op : Operation) :
    Leaves (performLeft ctx site op) (perform ctx site name op) := by
  have htame (h : asksSolver op = false) : Tame (perform ctx site name op) :=
    have := Machine.Changes.permits (footprint op)
    within_perform site name op (fun hasks => Bool.noConfusion (h.symm.trans hasks))
      (fun _ m block _ =>
        ⟨m.shared.graph.same_updateBlock block fun _ => rfl, .refl _, Nat.le_refl _⟩)
      fun _ _ _ => ⟨.refl _, .refl _, Nat.le_refl _⟩
  cases op with
  | add => exact leaves_add site.block
  | sub => exact leaves_sub site.block
  | div | sdiv | mod | smod | signExtend => exact leaves_settle _ _
  | addMod => exact leaves_modular (· + ·) .addMod
  | mulMod => exact leaves_modular (· * ·) .mulMod
  | byte => exact leaves_byte
  | mload => exact leaves_mload
  | mstore => exact leaves_mstore
  | mstore8 => exact leaves_mstore8
  | codeCopy => exact leaves_codeCopy
  | extCodeCopy => exact leaves_extCodeCopy
  | _ => exact htame rfl

end Exec

end EvmAudit
