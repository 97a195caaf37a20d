import EvmAudit.Proofs.Explore.Histories
import EvmAudit.Proofs.Graph.Links
import EvmAudit.Proofs.Value.Proper

/-! Reading memory after it was written. Words are kept under the numbers of their addresses as long
as the number of active words is a number itself. Once it is a word, a write forgets all addresses,
its own too. -/

namespace EvmAudit

theorem Value.toInt?_lift (v : Value) : v.lift.toInt? = none := by
  unfold lift
  split
  · rfl
  · assumption

theorem Value.gives_choose_none (c : Condition) (a b : Value) :
    Gives (fun v => v.toInt? = none) (choose c a b) := by
  unfold choose
  split
  · exact gives_bind fun _ => gives_pure rfl
  · exact gives_bind fun _ => gives_pure rfl
  · refine gives_bind fun _ => gives_bind fun _ => ?_
    split
    · exact gives_pure rfl
    · exact gives_pure rfl
    · exact gives_error _

def Path.Sized (p : Path) : Prop := p.world.activeWords.toInt?.isSome = true

instance (p : Path) : Decidable p.Sized := inferInstanceAs (Decidable (_ = true))

namespace Exec

variable {ctx : Context} {entries : Table Int String}
variable {active q size v : Value} {m m' : Machine} {p : Path} {a : Int}

/-! ### Growing -/

theorem gives_growTo (current limit : Int) :
    Gives (fun v => v.toInt?.isSome = true) (growTo current limit) :=
  gives_bind fun _ => gives_pure rfl

def sizeAt (address : Value) : Except Fault Value := do wordsUpTo (← address.add (.int 31))

def MayGrow (ctx : Context) (m : Machine) (active size : Value) : Prop :=
  ctx.tracksSize = true ∧ ∃ c, active.lt size = .ok c ∧
    (ctx.decide (m.shared.solver.assertions ++ [c.formula])).isUnsat = false

theorem growSymbolic_ok {current : Value}
    (h : (growSymbolic ctx current size).outcome m = (.ok v, m')) :
    (MayGrow ctx m current size ∧ v.toInt? = none) ∨
    (¬ MayGrow ctx m current size ∧ v = current) := by
  obtain ⟨c, hc, h⟩ := outcome_ofExcept_bind_eq_ok.1 h
  have hgrow : MayGrow ctx m current size ↔ ctx.tracksSize = true ∧
      (ctx.decide (m.shared.solver.assertions ++ [c.formula])).isUnsat = false := by
    simp [MayGrow, hc]
  rw [hgrow]
  split at h
  next htracks =>
    obtain ⟨inner, s, -, -, ho⟩ := Inquiry.opens_inquire ctx (largerSize current size c) m
    rw [h, Prod.mk.injEq, largerSize, Inquiry.eval] at ho
    cases hd : ctx.decide (m.shared.solver.assertions ++ [c.formula]) with
    | sat values =>
      rw [hd] at ho
      refine .inl ⟨⟨htracks, rfl⟩, Value.gives_choose_none c size current v ?_⟩
      cases hv : Value.choose c size current with
      | error e =>
        rw [hv] at ho
        cases ho.1
      | ok u =>
        rw [hv] at ho
        cases ho.1
        rfl
    | unsat =>
      rw [hd] at ho
      cases ho.1
      exact .inr ⟨fun h => absurd h.2 (by decide), rfl⟩
    | unknown =>
      rw [hd] at ho
      cases ho.1
  next htracks =>
    obtain ⟨_, m₁, -, h⟩ := outcome_bind_eq_ok.1 h
    obtain ⟨_, m₂, -, h⟩ := outcome_bind_eq_ok.1 h
    obtain ⟨_, m₃, -, h⟩ := outcome_bind_eq_ok.1 h
    cases h
    exact .inr ⟨fun h => htracks h.1, rfl⟩

theorem growSymbolic_lift (h : (growSymbolic ctx active.lift size).outcome m = (.ok v, m')) :
    v.toInt? = none := by
  rcases growSymbolic_ok h with ⟨-, hnone⟩ | ⟨-, rfl⟩
  · exact hnone
  · exact Value.toInt?_lift _

theorem not_sized_of_none (h : p.world.activeWords.toInt? = none) : ¬ p.Sized := by
  rw [Path.Sized, h]
  exact Bool.false_ne_true

/-! ### Instructions -/

theorem size_le_insert (t : Table Key Value) (k : Key) (v : Value) :
    t.size ≤ (t.insert k v).size := by
  obtain ⟨es⟩ := t
  change es.length ≤ (Table.put k v es).length
  induction es with
  | nil => exact Nat.zero_le _
  | cons e es ih =>
    rw [Table.put]
    split
    · exact Nat.le_refl _
    · exact Nat.succ_le_succ ih

theorem mload_ok (h : (mload ctx).outcome m = (.ok (), m')) :
    ∃ q rest, m.path.stack = q :: rest ∧ m.path.words.size ≤ m'.path.words.size ∧
      ((∃ a n v, knownWord? m.path q = some (a, n, v) ∧ m'.path.stack = v :: rest ∧ m'.path.Sized) ∨
        (knownWord? m.path q = none ∧ m'.path.stack = m.path.wordFor (Names.memoryAt ctx.print q) ::
          rest ∧ ¬ m'.path.Sized)) := by
  unfold mload at h
  obtain ⟨hitems, h⟩ := taken_of_need h
  obtain ⟨q, rest, hstack⟩ := List.exists_cons_of_length_pos hitems
  refine ⟨q, rest, hstack, ?_⟩
  rw [hstack, outcome_pop_taken, outcome_bind_getPath] at h
  have hknown : knownWord? (m.taken rest).path q = knownWord? m.path q := rfl
  rw [hknown] at h
  cases hk : knownWord? m.path q with
  | some found =>
    obtain ⟨a, n, v⟩ := found
    rw [hk] at h
    obtain ⟨grown, hgrown, h⟩ := outcome_ofExcept_bind_eq_ok.1 h
    cases h
    exact ⟨Nat.le_refl _, .inl ⟨a, n, v, rfl, rfl, gives_growTo _ _ _ hgrown⟩⟩
  | none =>
    rw [hk] at h
    obtain ⟨size, hsize, h⟩ := outcome_ofExcept_bind_eq_ok.1 h
    obtain ⟨grown, m₁, hgrown, h⟩ := outcome_bind_eq_ok.1 h
    have halike := @touches_growSymbolic ctx _ (Machine.AlikeBut [.solver]) _
      (m.taken rest).path.world.activeWords.lift size _ _ (m.taken rest)
    rw [hgrown] at halike
    have hrest : m₁.path.stack = rest := halike.stack
    have hvars : m₁.path.vars = m.path.vars := halike.vars
    obtain ⟨vars, hword⟩ := outcome_wordFor (Names.memoryAt ctx.print q) m₁
    have hsame : m₁.path.wordFor (Names.memoryAt ctx.print q) =
        m.path.wordFor (Names.memoryAt ctx.print q) := by
      rw [Path.wordFor, Path.wordFor, hvars]
    rw [outcome_bind, hword, hsame] at h
    cases h
    refine ⟨halike.words ▸ size_le_insert _ _ _, .inr ⟨rfl, congrArg _ hrest, ?_⟩⟩
    exact not_sized_of_none (growSymbolic_lift hgrown)

/-- What a write to an address leaves: under its number if it has one and the size is known, and
else under its text alone. -/
def wordsAfter (print : Printer) (p : Path) (q v : Value) : Table Key Value :=
  match q.toInt?, p.world.activeWords.toInt? with
  | some a, some _ => p.words.insert (.at a) v
  | _, _ => Table.insert {} (.named (print.value q)) v

theorem storeUnknown_ok (h : outcome (do
      let size ← ofExcept (sizeAt q)
      let grown ← growSymbolic ctx active size
      clearWords
      setWord (.named (ctx.print.value q)) v
      setActive grown) m = (.ok (), m')) :
    m'.path.words = Table.insert {} (.named (ctx.print.value q)) v ∧
      (m'.path.Sized ↔ active.toInt?.isSome = true ∧ ¬ ∃ size, sizeAt q = .ok size ∧
        MayGrow ctx m active size) := by
  obtain ⟨size, hsize, h⟩ := outcome_ofExcept_bind_eq_ok.1 h
  obtain ⟨grown, m₁, hgrown, h⟩ := outcome_bind_eq_ok.1 h
  cases h
  refine ⟨rfl, ?_⟩
  change grown.toInt?.isSome = true ↔ _
  simp only [hsize, Except.ok.injEq, exists_eq_left']
  rcases growSymbolic_ok hgrown with ⟨hgrow, hnone⟩ | ⟨hgrow, rfl⟩
  · simp [hgrow, hnone]
  · simp [hgrow]

theorem mstore_ok (h : (mstore ctx).outcome m = (.ok (), m')) :
    ∃ q v rest, m.path.stack = q :: v :: rest ∧ m'.path.words = wordsAfter ctx.print m.path q v ∧
      (m'.path.Sized ↔ m.path.Sized ∧ ¬ (q.toInt? = none ∧ ∃ size, sizeAt q = .ok size ∧
        MayGrow ctx m m.path.world.activeWords size)) := by
  obtain ⟨q, v, rest, m₁, hstack, hbytes, h, -⟩ := stores_of_mstore h
  refine ⟨q, v, rest, hstack, ?_⟩
  have halike : Machine.AlikeBut [.bytes] _ m₁ := Touches.alike (touches_storeBytes q v) hbytes
  have hsolver : m₁.shared.solver = m.shared.solver := halike.solver
  have hgrow (active size : Value) : MayGrow ctx m₁ active size ↔ MayGrow ctx m active size := by
    rw [MayGrow, MayGrow, hsolver]
  unfold storeWord at h
  unfold wordsAfter Path.Sized
  cases hq : q.toInt? with
  | none =>
    rw [hq] at h
    obtain ⟨hkept, hsized⟩ := storeUnknown_ok h
    exact ⟨hkept, by simpa [Path.Sized, hgrow] using hsized⟩
  | some a =>
    cases hn : m.path.world.activeWords.toInt? with
    | none =>
      rw [hq, hn] at h
      obtain ⟨hkept, hsized⟩ := storeUnknown_ok h
      refine ⟨hkept, ?_⟩
      rw [Path.Sized, hn] at hsized
      simpa using hsized
    | some n =>
      rw [hq, hn] at h
      obtain ⟨grown, hgrown, h⟩ := outcome_ofExcept_bind_eq_ok.1 h
      cases h
      refine ⟨congrArg (Table.insert · _ v) halike.words, ?_⟩
      simp [gives_growTo _ _ _ hgrown]

theorem mstore8_ok (h : (mstore8 ctx).outcome m = (.ok (), m')) :
    ∃ q v u rest, m.path.stack = q :: v :: rest ∧ v.mod (.int 256) = .ok u ∧
      m'.path.words = wordsAfter ctx.print m.path q u ∧
      (m'.path.Sized ↔ m.path.Sized ∧ q.toInt? ≠ none) := by
  unfold mstore8 at h
  obtain ⟨hitems, h⟩ := taken_of_need h
  obtain ⟨q, v, rest, hstack⟩ := exists_two_items hitems
  rw [hstack, outcome_pop_taken, outcome_pop_taken] at h
  obtain ⟨u, hu, h⟩ := outcome_ofExcept_bind_eq_ok.1 h
  refine ⟨q, v, u, rest, hstack, hu, ?_⟩
  rw [outcome_bind_getWorld] at h
  dsimp only at h
  have hactive : (m.taken rest).path.world.activeWords = m.path.world.activeWords := rfl
  rw [hactive] at h
  have hunknown (h : outcome (do
      let size ← ofExcept (wordsUpTo q)
      let grown ← growSymbolic ctx m.path.world.activeWords.lift size
      clearWords
      setWord (.named (ctx.print.value q)) u
      setActive grown) (m.taken rest) = (.ok (), m')) :
      m'.path.words = Table.insert {} (.named (ctx.print.value q)) u ∧ ¬ m'.path.Sized := by
    obtain ⟨size, hsize, h⟩ := outcome_ofExcept_bind_eq_ok.1 h
    obtain ⟨grown, m₁, hgrown, h⟩ := outcome_bind_eq_ok.1 h
    cases h
    exact ⟨rfl, not_sized_of_none (growSymbolic_lift hgrown)⟩
  unfold wordsAfter
  cases hq : q.toInt? with
  | none =>
    rw [hq] at h
    simp [hunknown h]
  | some a =>
    cases hn : m.path.world.activeWords.toInt? with
    | none =>
      rw [hq, hn] at h
      simp [hunknown h, not_sized_of_none hn]
    | some n =>
      rw [hq, hn] at h
      obtain ⟨grown, hgrown, h⟩ := outcome_ofExcept_bind_eq_ok.1 h
      cases h
      have hgrows := gives_growTo _ _ _ hgrown
      exact ⟨rfl, by simp [Path.Sized, hgrows, hn]⟩

theorem copyUnknown_ok {owner location start count : Value}
    (h : (copyUnknown ctx owner location start count).outcome m = (.ok (), m')) :
    ¬ m'.path.Sized := by
  unfold copyUnknown at h
  rw [outcome_bind_getWorld] at h
  dsimp only at h
  obtain ⟨v, m₁, -, h⟩ := outcome_bind_eq_ok.1 h
  obtain ⟨size, -, h⟩ := outcome_ofExcept_bind_eq_ok.1 h
  obtain ⟨grown, m₂, hgrown, h⟩ := outcome_bind_eq_ok.1 h
  cases h
  exact not_sized_of_none (growSymbolic_lift hgrown)

theorem codeCopy_ok (h : (codeCopy ctx).outcome m = (.ok (), m')) :
    ∃ q i n rest, m.path.stack = q :: i :: n :: rest ∧
    (m'.path.Sized → m.path.words.size ≤ m'.path.words.size) ∧
      (m'.path.Sized ↔ m.path.Sized ∧ q.toInt? ≠ none ∧ i.toInt? ≠ none ∧ n.toInt? ≠ none) := by
  unfold codeCopy at h
  obtain ⟨hitems, h⟩ := taken_of_need h
  obtain ⟨q, i, n, rest, hstack⟩ := exists_three_items hitems
  refine ⟨q, i, n, rest, hstack, ?_⟩
  rw [hstack, outcome_pop_taken, outcome_pop_taken, outcome_pop_taken, copyCode,
    outcome_bind_getWorld] at h
  have hactive : (m.taken rest).path.world.activeWords = m.path.world.activeWords := rfl
  rw [hactive] at h
  split at h
  next a active j k hq hactive hi hn =>
    obtain ⟨grown, hgrown, h⟩ := outcome_ofExcept_bind_eq_ok.1 h
    obtain ⟨code, m₁, hcode, h⟩ := outcome_bind_eq_ok.1 h
    have halike : Machine.AlikeBut [] _ m₁ := Touches.alike touches_codeText hcode
    obtain ⟨v, -, h⟩ := outcome_ofExcept_bind_eq_ok.1 h
    cases h
    have hgrows := gives_growTo _ _ _ hgrown
    exact ⟨fun _ => halike.words ▸ size_le_insert _ _ _,
      by simp [Path.Sized, hgrows, hactive, hq, hi, hn]⟩
  next hunknown =>
    have hunsized := copyUnknown_ok h
    refine ⟨fun hsized => absurd hsized hunsized, fun hsized => absurd hsized hunsized, ?_⟩
    rintro ⟨hsized, hq, hi, hn⟩
    obtain ⟨a, ha⟩ := Option.ne_none_iff_exists'.1 hq
    obtain ⟨j, hj⟩ := Option.ne_none_iff_exists'.1 hi
    obtain ⟨k, hk⟩ := Option.ne_none_iff_exists'.1 hn
    obtain ⟨active, hactive⟩ := Option.isSome_iff_exists.1 hsized
    exact absurd hk (hunknown a active j k ha hactive hj)

theorem extCodeCopy_ok (h : (extCodeCopy ctx).outcome m = (.ok (), m')) : ¬ m'.path.Sized := by
  unfold extCodeCopy at h
  obtain ⟨-, h⟩ := taken_of_need h
  obtain ⟨owner, m₁, -, h⟩ := outcome_bind_eq_ok.1 h
  obtain ⟨location, m₂, -, h⟩ := outcome_bind_eq_ok.1 h
  obtain ⟨start, m₃, -, h⟩ := outcome_bind_eq_ok.1 h
  obtain ⟨count, m₄, -, h⟩ := outcome_bind_eq_ok.1 h
  rw [copyForeign, outcome_bind_getWorld] at h
  dsimp only at h
  split at h
  · cases h
  · exact copyUnknown_ok h

/-! ### The size on a path -/

def Blurs (ctx : Context) (s : String × Machine) : Prop :=
  match (Instruction.ofText s.1).operation, s.2.path.stack with
  | .mload, q :: _ => knownWord? s.2.path q = none
  | .mstore, q :: _ =>
    q.toInt? = none ∧ ∃ size, sizeAt q = .ok size ∧ MayGrow ctx s.2 s.2.path.world.activeWords size
  | .mstore8, q :: _ => q.toInt? = none
  | .codeCopy, q :: i :: n :: _ => q.toInt? = none ∨ i.toInt? = none ∨ n.toInt? = none
  | .extCodeCopy, _ => True
  | _, _ => False

abbrev memoryOperations : List Operation := [.mload, .mstore, .mstore8, .codeCopy, .extCodeCopy]

theorem mem_memoryOperations_of_size {op : Operation} (h : .activeWords ∈ footprint op) :
    op ∈ memoryOperations := by
  cases op <;> simp [footprint] at h ⊢

theorem mem_memoryOperations_of_words {op : Operation} (h : .words ∈ footprint op) :
    op ∈ memoryOperations := by
  cases op <;> simp [footprint] at h ⊢

theorem size_mem_footprint_of_blurs {s : String × Machine} (h : Blurs ctx s) :
    .activeWords ∈ footprint (Instruction.ofText s.1).operation := by
  unfold Blurs at h
  split at h <;> simp_all [footprint]

theorem sized_of_known {r : Int × Int × Value} (h : knownWord? p q = some r) : p.Sized := by
  unfold knownWord? at h
  split at h
  next hactive =>
    rw [Path.Sized, hactive]
    rfl
  · cases h

theorem knownWord?_of_ready {m₁ : Machine} (h : m.AlikeBut bookkeeping m₁) (q : Value) :
    knownWord? m₁.path q = knownWord? m.path q := by
  rw [knownWord?, knownWord?, h.words, h.activeWords]

theorem sized_traced {site : Site} {text : String} (h : Traces ctx site text m m') :
    m'.path.Sized ↔ m.path.Sized ∧ ¬ Blurs ctx (text, m) := by
  by_cases hmem : .activeWords ∈ footprint (Instruction.ofText text).operation
  · obtain ⟨m₁, m₂, hready, hbefore, heffect, hafter⟩ := performs_of_traced h
    have hstack := hbefore.stack
    have hsized₁ : m₁.path.Sized ↔ m.path.Sized := by
      rw [Path.Sized, Path.Sized, hbefore.activeWords]
    have hsized₂ : m'.path.Sized ↔ m₂.path.Sized := by
      rw [Path.Sized, Path.Sized, hafter.activeWords]
    rw [hsized₂, ← hsized₁]
    unfold Blurs
    have hops := mem_memoryOperations_of_size hmem
    simp only [List.mem_cons, List.not_mem_nil, or_false] at hops
    rcases hops with hop | hop | hop | hop | hop
    · rw [effect, hop] at heffect
      obtain ⟨q, rest, hq, -, hcases⟩ := mload_ok heffect
      rw [hstack] at hq
      rw [hop, hq]
      dsimp only
      rw [← knownWord?_of_ready hbefore]
      rcases hcases with ⟨a, n, v, hk, -, hsized⟩ | ⟨hk, -, hsized⟩
      · simp [hsized, hk, sized_of_known hk]
      · simp [hsized, hk]
    · -- a store asks the solver, which is as it was before the fee
      rw [effect, hop] at heffect
      obtain ⟨q, v, rest, hq, -, hsized⟩ := mstore_ok heffect
      rw [hstack] at hq
      have hsolver : m₁.shared.solver = m.shared.solver :=
        solver_of_ready (by rw [hop]; exact fun _ => rfl) hready
      rw [hop, hq, hsized]
      simp only [MayGrow, hsolver, hbefore.activeWords]
    · rw [effect, hop] at heffect
      obtain ⟨q, v, u, rest, hq, -, -, hsized⟩ := mstore8_ok heffect
      rw [hstack] at hq
      rw [hop, hq]
      exact hsized
    · rw [effect, hop] at heffect
      obtain ⟨q, i, n, rest, hq, -, hsized⟩ := codeCopy_ok heffect
      rw [hstack] at hq
      rw [hop, hq, hsized]
      simp only [not_or, ne_eq]
    · rw [effect, hop] at heffect
      have hsized := extCodeCopy_ok heffect
      rw [hop]
      simp [hsized]
  · have halike : m'.path.world.activeWords = m.path.world.activeWords :=
      part_traced (p := .activeWords) (by decide) hmem h
    have hkeeps : ¬ Blurs ctx (text, m) :=
      fun hblurs => absurd (size_mem_footprint_of_blurs hblurs) hmem
    simp [Path.Sized, halike, hkeeps]

theorem memory_of_quiet {site : Site} {text : String} (h : Traces ctx site text m m')
    (hquiet : (Instruction.ofText text).operation ∉ memoryOperations) :
    m'.path.words = m.path.words ∧ m'.path.world.activeWords = m.path.world.activeWords :=
  ⟨part_traced (p := .words) (by decide) (fun hmem => hquiet (mem_memoryOperations_of_words hmem))
   h,
    part_traced (p := .activeWords) (by decide)
    (fun hmem => hquiet (mem_memoryOperations_of_size hmem)) h⟩

theorem keeps_sized : Keeps ctx fun history p => p.Sized ↔ ∀ s ∈ history, ¬ Blurs ctx s where
  traced hbefore h := by
    rw [sized_traced h, hbefore]
    simp [or_imp, forall_and]

theorem Begins.sized {g : Graph} {root : Call} (h : Begins ctx g entries root) :
    root.machine.path.Sized := by
  have hactive : root.machine.path.world.activeWords = .int 0 := h.alike.activeWords
  rw [Path.Sized, hactive]
  rfl

/-! ### Writing -/

def missingBytes (p : Path) (a : Int) : Int :=
  (Int.fdiv (ceil32 (a + 32)) 32 - (p.bytes.size : Int) / 32) * 32

def Room (ctx : Context) (p : Path) (a : Int) : Prop :=
  -sequenceLimit ≤ missingBytes p a ∧ missingBytes p a < sequenceLimit ∧ missingBytes p a < ctx.room

instance (p : Path) (a : Int) : Decidable (Room ctx p a) := inferInstanceAs (Decidable (_ ∧ _))

theorem outcome_extendBytes (h : Room ctx m.path a) :
    (extendBytes ctx a).outcome m = (.ok (),
      { m with path := { m.path with bytes := m.path.bytes.extend (missingBytes m.path a).toNat }
        }) := by
  obtain ⟨hlow, hhigh, hroom⟩ := h
  unfold missingBytes at *
  rw [extendBytes, outcome_bind_getPath, if_neg (by omega), if_neg (by omega)]
  rfl

theorem room_of_extendBytes (h : (extendBytes ctx a).outcome m = (.ok (), m')) :
    Room ctx m.path a := by
  unfold Room missingBytes
  rw [extendBytes, outcome_bind_getPath] at h
  dsimp only at h
  split at h
  · cases h
  next hlimits =>
    split at h
    · cases h
    · omega

def Splits : Value → Prop
  | .int n => n.natAbs.log2 ≤ 1000
  | .double _ | .word _ => True
  | _ => False

theorem splits_of_isWord (h : v.IsWord) : Splits v := by
  cases v with
  | int n => exact Double.log2_natAbs_le h.1 h.2
  | word t => trivial
  | _ => exact h.elim

theorem mod_of_splits (h : Splits v) : ∃ u, v.mod (.int 256) = .ok u := by
  cases v with
  | int n => exact ⟨_, rfl⟩
  | double x => exact ⟨_, rfl⟩
  | word t => exact ⟨_, rfl⟩
  | _ => exact h.elim

theorem div_of_splits (h : Splits v) : ∃ u, v.div (.int 256) = .ok u ∧ Splits u := by
  cases v with
  | int n =>
    obtain ⟨s, m, e, hfinite⟩ := Double.ofQuotient?_finite h 256
    refine ⟨.double (.finite s m e), ?_, trivial⟩
    unfold Value.div Value.Arithmetic.apply
    simp [Value.toInt?, hfinite]
  | double x => exact ⟨_, rfl, trivial⟩
  | word t => exact ⟨_, rfl, trivial⟩
  | _ => exact h.elim

theorem outcome_setByte (v : Value) (ha : 0 ≤ a) (ha' : a < m.path.bytes.size) :
    (setByte a v).outcome m =
      (.ok (), { m with path := { m.path with bytes := m.path.bytes.set a.toNat v } }) := by
  rw [setByte, outcome_bind_getPath]
  dsimp only
  rw [if_neg (Int.not_lt.2 ha), if_neg (by omega)]
  rfl

theorem setBytes_ok (ha : 0 ≤ a) {n : Nat} (hv : Splits v)
    (hsize : a + n ≤ m.path.bytes.size) : ∃ m', (setBytes a n v).outcome m = (.ok (), m') := by
  induction n generalizing v m with
  | zero => exact ⟨m, rfl⟩
  | succ n ih =>
    obtain ⟨byte, hbyte⟩ := mod_of_splits hv
    obtain ⟨rest, hrest, hsplits⟩ := div_of_splits hv
    rw [setBytes, hbyte, hrest, outcome_bind, outcome_ofExcept]
    dsimp only
    rw [outcome_bind, outcome_setByte byte (by omega) (by omega)]
    dsimp only
    rw [outcome_bind, outcome_ofExcept]
    exact ih hsplits (by simp; omega)

theorem le_ceil32 (a : Int) : a ≤ Int.fdiv (ceil32 a) 32 * 32 := by
  rw [Int.fdiv_eq_ediv_of_nonneg _ (by decide)]
  unfold ceil32
  rw [Int.fmod_eq_emod_of_nonneg _ (by decide)]
  split <;> omega

theorem room_of_storeBytes_iff {m : Machine} {a : Int} {v : Value} (ha : 0 ≤ a) (hv : v.IsWord) :
    (∃ m', (storeBytes ctx (.int a) v).outcome m = (.ok (), m')) ↔ Room ctx m.path a := by
  have hstore : storeBytes ctx (.int a) v = (do extendBytes ctx a; setBytes a 32 v) := rfl
  rw [hstore]
  constructor
  · rintro ⟨m', h⟩
    obtain ⟨_, m₁, hextend, -⟩ := outcome_bind_eq_ok.1 h
    exact room_of_extendBytes hextend
  · intro hroom
    rw [outcome_bind, outcome_extendBytes hroom]
    refine setBytes_ok ha (splits_of_isWord hv) ?_
    have hceil := le_ceil32 (a + 32)
    simp only [Bytes.size_extend, missingBytes]
    omega

theorem log2_end_le (ha : 0 ≤ a) (ha' : a < sequenceLimit) : (a + 32).natAbs.log2 ≤ 1000 := by
  have hlimits : sequenceLimit + 32 < Int.pow 2 256 := by decide
  exact Double.log2_natAbs_le (by omega) (by omega)

theorem mstore_iff_room {m : Machine} {a : Int} {v : Value} {rest : List Value}
    (hstack : m.path.stack = .int a :: v :: rest) (ha : 0 ≤ a) (ha' : a < sequenceLimit)
    (hv : v.IsWord) (hsized : m.path.Sized) : ((mstore ctx).outcome m).1 = .ok () ↔
      Room ctx m.path a := by
  obtain ⟨n, hn⟩ := Option.isSome_iff_exists.1 hsized
  obtain ⟨k, hgrown⟩ := growTo_ok n (log2_end_le ha ha')
  have hroom := @room_of_storeBytes_iff ctx (m.taken rest) a v ha hv
  rw [mstore, outcome_need_advance _ (by simp [hstack]), hstack, outcome_pop_taken,
    outcome_pop_taken, outcome_bind_getWorld]
  dsimp only
  have hactive : (m.taken rest).path.world.activeWords.toInt? = some n := hn
  have haddress : (Value.int a).toInt? = some a := rfl
  rw [hactive, haddress]
  dsimp only
  rw [hgrown, outcome_bind]
  constructor
  · intro h
    refine hroom.1 ?_
    generalize (storeBytes ctx (.int a) v).outcome (m.taken rest) = o at h ⊢
    obtain ⟨e | _, m₁⟩ := o
    · cases h
    · exact ⟨m₁, rfl⟩
  · intro h
    obtain ⟨m₁, hm₁⟩ := hroom.2 h
    rw [hm₁]
    rfl

theorem outcome_mload_known {m : Machine} {a n : Int} {v : Value} {rest : List Value}
    (hstack : m.path.stack = .int a :: rest) (ha : 0 ≤ a) (ha' : a < sequenceLimit)
    (hknown : knownWord? m.path (.int a) = some (a, n, v)) :
    ∃ m', (mload ctx).outcome m = (.ok (), m') ∧ m'.path.stack = v :: rest := by
  obtain ⟨k, hgrown⟩ := growTo_ok n (log2_end_le ha ha')
  rw [mload, outcome_need_advance _ (by simp [hstack]), hstack, outcome_pop_taken,
    outcome_bind_getPath]
  have hsame : knownWord? (m.taken rest).path (.int a) = some (a, n, v) := hknown
  rw [hsame]
  dsimp only
  rw [hgrown]
  exact ⟨_, rfl, rfl⟩

/-! ### Reading what was written -/

/-- What a write of a word at an address makes known about the address: the word, if the size is
known. -/
def WordKept (w : String × Machine) (p : Path) : Prop :=
  ∀ a v rest, w.2.path.stack = .int a :: v :: rest →
    (w.2.path.Sized → ∃ n, knownWord? p (.int a) = some (a, n, v)) ∧
    (¬ w.2.path.Sized → knownWord? p (.int a) = none)

theorem knownWord?_of_get? (hsized : p.Sized)
    (h : p.words.get? (.at a) = some v) : ∃ n, knownWord? p (.int a) = some (a, n, v) := by
  obtain ⟨n, hn⟩ := Option.isSome_iff_exists.1 hsized
  refine ⟨n, ?_⟩
  have haddress : (Value.int a).toInt? = some a := rfl
  rw [knownWord?, haddress, hn]
  dsimp only
  rw [h]
  rfl

theorem knownWord?_of_get?_none (h : p.words.get? (.at a) = none) :
    knownWord? p (.int a) = none := by
  unfold knownWord?
  split
  next b n hb _ =>
    cases hb
    rw [h]
    rfl
  · rfl

theorem wordKept_traced {site : Site} {text : String} (h : Traces ctx site text m m')
    (hop : (Instruction.ofText text).operation = .mstore) : WordKept (text, m) m'.path := by
  intro a v rest hoperands
  obtain ⟨m₁, m₂, -, hbefore, heffect, hafter⟩ := performs_of_traced h
  rw [effect, hop] at heffect
  obtain ⟨q, u, rest', hq, hwords, hsized⟩ := mstore_ok heffect
  cases (hq.symm.trans hbefore.stack).trans hoperands
  have haddress : (Value.int a).toInt? = some a := rfl
  rw [← hafter.words, wordsAfter, haddress, hbefore.activeWords] at hwords
  constructor
  · intro hknown
    obtain ⟨n, hn⟩ := Option.isSome_iff_exists.1 hknown
    rw [hn] at hwords
    have hsized₁ : m₁.path.Sized := by rwa [Path.Sized, hbefore.activeWords]
    have hsized₂ : m₂.path.Sized := hsized.2 ⟨hsized₁, fun hnone => by cases hnone.1⟩
    refine knownWord?_of_get? (by rwa [Path.Sized, hafter.activeWords]) ?_
    rw [hwords, Table.get?_insert_self]
  · intro hunknown
    have hnone : m.path.world.activeWords.toInt? = none := by simpa [Path.Sized] using hunknown
    rw [hnone] at hwords
    refine knownWord?_of_get?_none ?_
    rw [hwords, Table.get?_insert_of_ne (fun h => by cases h)]
    rfl

theorem keeps_wordKept : Keeps ctx fun history p => ∀ before w between, history = before ++
    w :: between → (Instruction.ofText w.1).operation = .mstore →
    (∀ s ∈ between, (Instruction.ofText s.1).operation ∉ memoryOperations) → WordKept w p := by
  refine @keeps_since ctx _ (fun text => (Instruction.ofText text).operation ∉ memoryOperations) _
    wordKept_traced (fun {w site text m m'} h hquiet hkept => ?_) fun {w p p'} hcontinues hkept =>
    ?_
  · obtain ⟨hwords, hactive⟩ := memory_of_quiet h hquiet
    have hknown (q : Value) : knownWord? m'.path q = knownWord? m.path q := by
      rw [knownWord?, knownWord?, hwords, hactive]
    intro a v rest hoperands
    simpa only [hknown] using hkept a v rest hoperands
  · obtain ⟨pc, conditions, analysis, rfl⟩ := hcontinues
    exact hkept

section Traced

variable {text : String} {m : Machine} {a : Int} {rest : List Value}

theorem traced_mstore_iff_room {v : Value} (hop : (Instruction.ofText text).operation = .mstore)
    (hstack : m.path.stack = .int a :: v :: rest) (ha : 0 ≤ a) (ha' : a < sequenceLimit)
    (hv : v.IsWord) (hsized : m.path.Sized) (htime : ctx.deadline ≠ some (m.shared.executed + 1))
    (site : Site) : ((traced ctx site text).outcome m).1 = .ok () ↔ Room ctx m.path a := by
  have hready : ((ready ctx text).outcome m).1 = .ok () :=
    ready_ok (by rw [hop]; exact fun _ => rfl) (by rw [hop]; rfl) (by rw [hop]; decide) htime
  obtain ⟨m₁, hbefore, hresult⟩ := traced_result site hready
  have hstack₁ : m₁.path.stack = .int a :: v :: rest := hbefore.stack.trans hstack
  have hstores :=
    @mstore_iff_room ctx m₁ a v rest hstack₁ ha ha' hv (by rwa [Path.Sized, hbefore.activeWords])
  rw [Room, missingBytes, hbefore.bytes] at hstores
  rw [hresult, effect, hop]
  exact hstores

theorem traced_mload_known {n : Int} {v : Value}
    (hop : (Instruction.ofText text).operation = .mload) (hstack : m.path.stack = .int a :: rest)
    (ha : 0 ≤ a) (ha' : a < sequenceLimit) (hknown : knownWord? m.path (.int a) = some (a, n, v))
    (htime : ctx.deadline ≠ some (m.shared.executed + 1)) (site : Site) :
    ∃ m', Traces ctx site text m m' ∧ m'.path.stack = v :: rest := by
  have hready : ((ready ctx text).outcome m).1 = .ok () :=
    ready_ok (by rw [hop]; exact fun _ => rfl) (by rw [hop]; rfl) (by rw [hop]; decide) htime
  refine traced_ok hready fun m₁ hbefore => ?_
  have hstack₁ : m₁.path.stack = .int a :: rest := hbefore.stack.trans hstack
  have hknown₁ : knownWord? m₁.path (.int a) = some (a, n, v) := by
    rw [knownWord?_of_ready hbefore, hknown]
  obtain ⟨m₂, hm₂, hpushed⟩ := @outcome_mload_known ctx m₁ a n v rest hstack₁ ha ha' hknown₁
  exact ⟨m₂, by rw [effect, hop]; exact hm₂, fun m' hafter => hafter.stack.trans hpushed⟩

theorem traced_mload_unknown {site : Site} {m' : Machine}
    (hop : (Instruction.ofText text).operation = .mload) (hstack : m.path.stack = .int a :: rest)
    (hknown : knownWord? m.path (.int a) = none) (h : Traces ctx site text m m') :
    m'.path.stack = m.path.wordFor (Names.memoryAt ctx.print (.int a)) :: rest := by
  obtain ⟨m₁, m₂, -, hbefore, heffect, hafter⟩ := performs_of_traced h
  have hstack₁ : m₁.path.stack = .int a :: rest := hbefore.stack.trans hstack
  rw [effect, hop] at heffect
  obtain ⟨q, rest', hq, -, hcases⟩ := mload_ok heffect
  cases hq.symm.trans hstack₁
  rcases hcases with ⟨b, n, u, hknown', -⟩ | ⟨-, hpushed, -⟩
  · rw [knownWord?_of_ready hbefore, hknown] at hknown'
    cases hknown'
  · rw [Path.wordFor, hbefore.vars] at hpushed
    exact hafter.stack.trans hpushed

end Traced

/-- Memory on any path. The number of active words is a number exactly until an instruction blurs
it. While it is, a write at a number succeeds exactly if there is room for it, and a read at the
same number gives what was written; other instructions that do not use memory may stand in between.
When it is not, such a read gives the word that stands for an unknown memory word instead. -/
theorem memory_read_after_write {g : Graph} {root : Call} {history : List (String × Machine)}
    {w : String × Machine} {a : Int} {v : Value} {rest : List Value}
    (hroot : Begins ctx g entries root) (hw : Reached ctx entries root history w)
    (hop : (Instruction.ofText w.1).operation = .mstore)
    (hstack : w.2.path.stack = .int a :: v :: rest) (ha : 0 ≤ a) (ha' : a < sequenceLimit)
    (hv : v.IsWord) : (w.2.path.Sized ↔ ∀ s ∈ history, ¬ Blurs ctx s) ∧
    (w.2.path.Sized → ctx.deadline ≠ some (w.2.shared.executed + 1) → ∀ site,
      ((traced ctx site w.1).outcome w.2).1 = .ok () ↔ Room ctx w.2.path a) ∧
    ∀ between s rest', Reached ctx entries root (history ++ w :: between) s →
      (∀ s' ∈ between, (Instruction.ofText s'.1).operation ∉ memoryOperations) →
      (Instruction.ofText s.1).operation = .mload → s.2.path.stack = .int a :: rest' →
      (w.2.path.Sized → ctx.deadline ≠ some (s.2.shared.executed + 1) → ∀ site,
        ∃ m', (traced ctx site s.1).outcome s.2 = (.ok (), m') ∧ m'.path.stack = v :: rest') ∧
      (¬ w.2.path.Sized → ∀ site m', (traced ctx site s.1).outcome s.2 = (.ok (), m') →
        m'.path.stack = s.2.path.wordFor (Names.memoryAt ctx.print (.int a)) :: rest') := by
  refine ⟨?_, fun hsized htime site => ?_, fun between s rest' hs hbetween hload hread => ?_⟩
  · exact hw.keeps keeps_sized (by simp [hroot.sized])
  · exact traced_mstore_iff_room hop hstack ha ha' hv hsized htime site
  · obtain ⟨hsome, hnone⟩ :=
      hs.keeps keeps_wordKept (by simp) history w between rfl hop hbetween a v rest hstack
    refine ⟨fun hsized htime site => ?_, fun hsized site m' hm' => ?_⟩
    · obtain ⟨n, hknown⟩ := hsome hsized
      exact traced_mload_known hload hread ha ha' hknown htime site
    · exact traced_mload_unknown hload hread (hnone hsized) hm'

open Listing

def writeAndRead : Code := .ofDrafts
  [⟨0, "PUSH1", some "07"⟩, ⟨2, "PUSH1", some "00"⟩, ⟨4, "MSTORE", none⟩, ⟨5, "PUSH1", some "00"⟩,
    ⟨7, "MLOAD", none⟩, ⟨8, "PUSH1", some "40"⟩, ⟨10, "MSTORE", none⟩, ⟨11, "PUSH1", some "40"⟩,
    ⟨13, "MLOAD", none⟩, ⟨14, "STOP", none⟩]

def writeAndReadTexts : List String :=
  ["PUSH1 0x07 ", "PUSH1 0x00 ", "MSTORE ", "PUSH1 0x00 ", "MLOAD ", "PUSH1 0x40 "]

theorem block_writeAndRead : (writeAndRead.linked.blocks.get? 0).map Block.instructions =
    some (writeAndReadTexts ++ "MSTORE " :: ["PUSH1 0x40 ", "MLOAD ", "STOP "]) := by
  rw [Code.linked_sorted]
  decide +kernel

theorem run_writeAndRead :
    let passes := Call.Passes affirming writeAndRead.linked
    let behind := Call.openedBy affirming writeAndRead.linked
    passes writeAndReadTexts ∧ passes (writeAndReadTexts ++ ["MSTORE "]) ∧
    passes (writeAndReadTexts ++ "MSTORE " :: ["PUSH1 0x40 "]) ∧
    (behind writeAndReadTexts).path.stack = [.int 64, .int 7] ∧
    (behind writeAndReadTexts).path.Sized ∧
    Room affirming (behind writeAndReadTexts).path 64 ∧
    (behind (writeAndReadTexts ++ "MSTORE " :: ["PUSH1 0x40 "])).path.stack = [.int 64] := by
  decide +kernel

/-- The word that is written is read back, after a write and a read before. -/
theorem memory_read_after_write_writeAndRead : ∃ history w between s m',
    Reached affirming {} (.first affirming writeAndRead.linked) history w ∧
    Reached affirming {} (.first affirming writeAndRead.linked)
      (history ++ w :: between) s ∧
    w.1 = "MSTORE " ∧ w.2.path.stack = [.int 64, .int 7] ∧
    ((traced affirming Site.first w.1).outcome w.2).1 = .ok () ∧
    s.1 = "MLOAD " ∧ (traced affirming Site.first s.1).outcome s.2 = (.ok (), m') ∧
    m'.path.stack = [.int 7] := by
  obtain ⟨hfirst, hstore, hrun, hoperands, hsized, hroom, haddress⟩ := run_writeAndRead
  have hroot : Begins affirming writeAndRead.linked {} _ :=
    begins_first (.inl rfl) (by decide +kernel)
  have hw := reached_first rfl block_writeAndRead (by decide) (by decide) hfirst
  have hs := @reached_first affirming writeAndRead.linked
    (writeAndReadTexts ++ "MSTORE " :: ["PUSH1 0x40 "]) ["STOP "] "MLOAD " rfl block_writeAndRead
    (by decide) (by decide) hrun
  rw [steps_openedBy hstore] at hs
  have hquiet : ∀ text ∈ ["PUSH1 0x40 "],
      (Instruction.ofText text).operation ∉ memoryOperations := by decide
  obtain ⟨-, hstores, hreads⟩ :=
    memory_read_after_write hroot hw (by decide) hoperands (by decide) (by decide)
    ⟨by decide, by decide⟩
  obtain ⟨hread, -⟩ :=
    hreads _ _ _ hs (fun s' hs' => hquiet _ (text_mem_of_mem_steps hs')) (by decide) haddress
  obtain ⟨m', hm', hpushed⟩ := hread hsized (by decide) Site.first
  exact ⟨_, _, _, _, m', hw, hs, rfl, hoperands, (hstores hsized (by decide) Site.first).2 hroom,
    rfl, hm', hpushed⟩

def readAndWrite : Code := .ofDrafts
  [⟨0, "PUSH1", some "00"⟩, ⟨2, "MLOAD", none⟩, ⟨3, "PUSH1", some "07"⟩, ⟨5, "PUSH1", some "00"⟩,
    ⟨7, "MSTORE", none⟩, ⟨8, "PUSH1", some "00"⟩, ⟨10, "MLOAD", none⟩, ⟨11, "STOP", none⟩]

def readAndWriteTexts : List String := ["PUSH1 0x00 ", "MLOAD ", "PUSH1 0x07 ", "PUSH1 0x00 "]

theorem block_readAndWrite : (readAndWrite.linked.blocks.get? 0).map Block.instructions =
    some (readAndWriteTexts ++ "MSTORE " :: ["PUSH1 0x00 ", "MLOAD ", "STOP "]) := by
  rw [Code.linked_sorted]
  decide +kernel

theorem run_readAndWrite :
    let passes := Call.Passes affirming readAndWrite.linked
    let behind := Call.openedBy affirming readAndWrite.linked
    let m := behind (readAndWriteTexts ++ "MSTORE " :: ["PUSH1 0x00 "])
    let o := (traced affirming Site.first "MLOAD ").outcome m
    passes readAndWriteTexts ∧ passes (readAndWriteTexts ++ ["MSTORE "]) ∧
    passes (readAndWriteTexts ++ "MSTORE " :: ["PUSH1 0x00 "]) ∧ o.1.isOk = true ∧
    (behind readAndWriteTexts).path.stack = [.int 0, .int 7, .word (.var "mem_0")] ∧
    m.path.stack = [.int 0, .word (.var "mem_0")] ∧
    o.2.path.stack = [.word (.var "mem_0"), .word (.var "mem_0")] := by
  decide +kernel

/-- After a read of an unknown word, 7 is written at 0 and the unknown word is read there again. -/
theorem memory_write_lost : ∃ history w between s m',
    Reached affirming {} (.first affirming readAndWrite.linked) history w ∧
    Reached affirming {} (.first affirming readAndWrite.linked)
      (history ++ w :: between) s ∧
    w.1 = "MSTORE " ∧ w.2.path.stack = [.int 0, .int 7, .word (.var "mem_0")] ∧ s.1 = "MLOAD " ∧
    between.map Prod.fst = ["PUSH1 0x00 "] ∧ s.2.path.stack = [.int 0, .word (.var "mem_0")] ∧
    (traced affirming Site.first s.1).outcome s.2 = (.ok (), m') ∧
    m'.path.stack = [.word (.var "mem_0"), .word (.var "mem_0")] := by
  obtain ⟨hfirst, hstore, hrun, hload, hoperands, haddress, hpushed⟩ := run_readAndWrite
  have hw := reached_first rfl block_readAndWrite (by decide) (by decide) hfirst
  have hs := @reached_first affirming readAndWrite.linked
    (readAndWriteTexts ++ "MSTORE " :: ["PUSH1 0x00 "]) ["STOP "] "MLOAD " rfl block_readAndWrite
    (by decide) (by decide) hrun
  rw [steps_openedBy hstore] at hs
  exact ⟨_, _, _, _, _, hw, hs, rfl, hoperands, rfl, rfl, haddress, outcome_eq_of_isOk hload,
    hpushed⟩

end Exec

end EvmAudit
