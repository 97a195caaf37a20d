import EvmAudit.Proofs.Explore.Histories
import EvmAudit.Proofs.Graph.Links
import EvmAudit.Proofs.Machine.Proper

/-! Which items stand on the stack. They are words until an instruction makes something else of
words. -/

namespace EvmAudit

open Value

namespace Exec

variable {ctx : Context} {entries : Table Int String} {m m' : Machine}
variable {P : Word → Word → Prop} {rest : List Value} {op : Operation}

/-! ### What is no word -/

def TopNumbers (m : Machine) (P : Word → Word → Prop) : Prop :=
  ∃ (x y : Word) (rest : List Value), m.path.stack = .int x.toNat :: .int y.toNat :: rest ∧ P x y

def TopSymbols (m : Machine) (P : Value → Value → Prop) : Prop :=
  ∃ (a b : Value) (rest : List Value), m.path.stack = a :: b :: rest ∧ (a.IsTerm ∨ b.IsTerm) ∧ P a b

/-- Where all items are words, the operation leaves one that is not. -/
def Spoils (ctx : Context) (m : Machine) : Operation → Prop
  | .div => TopNumbers m fun _ y => y ≠ 0
  | .sdiv => TopNumbers m (fun _ y => y ≠ 0) ∨ TopSymbols m fun a b =>
      ((Inquiry.signedQuotient a.lift b.lift).eval ctx.decide m.shared.solver.assertions).1 =
        .ok (.int Arithmetic.leastSigned)
  | .smod => TopNumbers m fun x y => y ≠ 0 ∧ 2 ^ 255 < x.toNat ∧ x.srem y ≠ 0
  | .codeSize => True
  | .codeCopy => ∃ (a i n active v : Int) (rest : List Value) (code : String),
      m.path.stack = .int a :: .int i :: .int n :: rest ∧ m.path.world.activeWords = .int active ∧
      codeText ctx = pure code ∧ codeNumber code i n = .ok v ∧ ¬ (Value.int v).IsWord
  | .pc => ¬ (Value.int m.path.world.pc).IsWord
  | .msize => ∃ n : Int, m.path.world.activeWords = .int n ∧ Word.count ≤ 32 * n
  | .push _ (.value n) => ctx.settings.unitTest ≠ 3 ∧ ¬ (Value.int n).IsWord
  | _ => False

theorem topNumbers_iff {x y : Word}
    (h : m.path.stack = .int x.toNat :: .int y.toNat :: rest) : TopNumbers m P ↔ P x y := by
  constructor
  · rintro ⟨x', y', rest', h', hP⟩
    rw [h] at h'
    simp only [List.cons.injEq, Value.int.injEq, Int.natCast_inj] at h'
    rwa [BitVec.eq_of_toNat_eq h'.1, BitVec.eq_of_toNat_eq h'.2.1]
  · exact fun hP => ⟨x, y, rest, h, hP⟩

theorem not_topNumbers {a b : Value} (h : m.path.stack = a :: b :: rest)
    (hterm : a.IsTerm ∨ b.IsTerm) : ¬ TopNumbers m P := by
  rintro ⟨x, y, rest', h', -⟩
  rw [h] at h'
  obtain ⟨t, rfl⟩ | ⟨t, rfl⟩ := hterm <;> cases h'

theorem topSymbols_iff {P : Value → Value → Prop} {a b : Value}
    (h : m.path.stack = a :: b :: rest) : TopSymbols m P ↔ (a.IsTerm ∨ b.IsTerm) ∧ P a b := by
  constructor
  · rintro ⟨a', b', rest', h', hP⟩
    cases h.symm.trans h'
    exact hP
  · exact fun hP => ⟨a, b, rest, h, hP⟩

theorem settle_ok {onInts : Int → Int → Except Fault Value}
    {onSymbols : Value → Value → Inquiry Value}
    (h : (settle ctx onInts onSymbols).outcome m = (.ok (), m')) :
    ∃ a b rest v, m.path.stack = a :: b :: rest ∧ m'.path.stack = (ctx.simplify.value v) :: rest ∧
      (∀ x y, both a b = some (x, y) → onInts x y = .ok v) ∧
      (both a b = none → ((onSymbols a.lift b.lift).eval ctx.decide m.shared.solver.assertions).1 =
        .ok v) := by
  obtain ⟨a, b, rest, hstack⟩ := exists_two_items (items_of_need h)
  rw [settle, outcome_binary ctx _ hstack] at h
  obtain ⟨v, m₁, hv, hpush⟩ := outcome_bind_eq_ok.1 h
  cases hpush
  refine ⟨a, b, rest, v, hstack, ?_⟩
  cases hboth : both a b with
  | some xy =>
    rw [hboth] at hv
    obtain ⟨hx, rfl⟩ := Prod.mk.inj hv
    refine ⟨rfl, ?_, fun h => by cases h⟩
    rintro x y ⟨⟩
    exact hx
  | none =>
    rw [hboth] at hv
    obtain ⟨hanswer, s, -, rfl⟩ := outcome_inquire_ok hv
    exact ⟨rfl, fun _ _ h => (by cases h), fun _ => hanswer⟩

theorem proper_settle_iff {onInts : Int → Int → Except Fault Value}
    {onSymbols : Value → Value → Inquiry Value} {P : Word → Word → Prop} {S : Value → Value → Prop}
    (hp : m.path.Proper) (hints : ∀ x y v, onInts x.toNat y.toNat = .ok v → (v.IsWord ↔ ¬ P x y))
    (hsymbols : ∀ a b v, a.IsWord → b.IsWord →
      ((onSymbols a.lift b.lift).eval ctx.decide m.shared.solver.assertions).1 = .ok v →
      (v.IsWord ↔ ¬ S a b)) (h : (settle ctx onInts onSymbols).outcome m = (.ok (), m')) :
    m'.path.Proper ↔ ¬ (TopNumbers m P ∨ TopSymbols m S) := by
  obtain ⟨a, b, rest, v, hstack, hpushed, hconcrete, hsymbolic⟩ := settle_ok h
  have halike : m.AlikeBut [.stack, .pc, .solver] m' :=
    Touches.alike (holds_settle (closed_any ctx) (fun _ _ _ => gives_trivial _) fun _ _ _ =>
      Inquiry.gives_of_forall (fun _ => trivial) _).within h
  rw [hp.pushed_iff halike (by decide) hpushed fun u hu => by simp [hstack, hu], isWord_simplify,
    topSymbols_iff hstack]
  have ha : a.IsWord := hp.stack a (by simp [hstack])
  have hb : b.IsWord := hp.stack b (by simp [hstack])
  -- numbers are settled without the solver, and a symbolic operand never is
  rcases word_cases ha hb with ⟨x, y, rfl, rfl⟩ | hterm
  · have hnumbers : ¬ ((Value.int x.toNat).IsTerm ∨ (Value.int y.toNat).IsTerm) := by
      rintro (⟨t, ht⟩ | ⟨t, ht⟩) <;> cases ht
    rw [topNumbers_iff hstack, hints x y v (hconcrete _ _ (both_toNat x y))]
    simp [hnumbers]
  · rw [hsymbols a b v ha hb (hsymbolic (both_of_term hterm))]
    simp [hterm, not_topNumbers hstack hterm]

theorem proper_div_iff (hp : m.path.Proper) (h : (div ctx).outcome m = (.ok (), m')) :
    m'.path.Proper ↔ ¬ Spoils ctx m .div := by
  have hsettled := @proper_settle_iff ctx m m' _ _ (fun _ y => y ≠ 0) (fun _ _ => False) hp
    (fun x y v hv => ?_) (fun a b v _ _ hv => ?_) h
  · simpa [Spoils, TopSymbols] using hsettled
  · obtain ⟨v', hquotient, -, hcases⟩ := Arithmetic.quotient_toNat x y
    cases hv.symm.trans hquotient
    split at hcases
    next hy =>
      simp [hy, hcases, isWord_zero]
    next hy =>
      obtain ⟨q, -, rfl⟩ := hcases
      exact iff_of_false id fun h => h hy
  · simp [(Inquiry.isWord_quotient _ _).eval _ _ v hv]

theorem proper_sdiv_iff (hp : m.path.Proper) (h : (sdiv ctx).outcome m = (.ok (), m')) :
    m'.path.Proper ↔ ¬ Spoils ctx m .sdiv := by
  refine proper_settle_iff hp (fun x y v hv => ?_) (fun a b v ha _ hv => ?_) h
  · obtain ⟨v', hquotient, -, hcases⟩ := Arithmetic.signedQuotient_toNat x y
    cases hv.symm.trans hquotient
    split at hcases
    next hy =>
      simp [hy, hcases, isWord_zero]
    next hy =>
      obtain ⟨sign, q, -, -, rfl⟩ := hcases
      exact iff_of_false id fun h => h hy
  · have hleast : ¬ (Value.int Arithmetic.leastSigned).IsWord := by decide
    rw [hv, Except.ok.injEq]
    rcases (Inquiry.gives_signedQuotient_word ha.lift).eval _ _ v hv with hword | rfl
    · exact iff_of_true hword fun hv => hleast (hv ▸ hword)
    · exact iff_of_false hleast fun h => h rfl

theorem proper_smod_iff (hp : m.path.Proper) (h : (smod ctx).outcome m = (.ok (), m')) :
    m'.path.Proper ↔ ¬ Spoils ctx m .smod := by
  have hsettled :=
    @proper_settle_iff ctx m m' _ _ (fun x y => y ≠ 0 ∧ 2 ^ 255 < x.toNat ∧ x.srem y ≠ 0)
    (fun _ _ => False) hp (fun x y v hv => ?_) (fun a b v ha _ hv => ?_) h
  · simpa [Spoils, TopSymbols] using hsettled
  · obtain ⟨n, hn, -, hword⟩ := Arithmetic.signedRemainder_toNat x y
    cases hv.symm.trans hn
    exact hword
  · simp [(Inquiry.isWord_signedRemainder ha.lift).eval _ _ v hv]

theorem codeText_cases : (∃ code, codeText ctx = pure code) ∨ ∃ e, codeText ctx = throw e := by
  unfold codeText
  split
  · exact .inr ⟨_, rfl⟩
  · exact .inl ⟨_, rfl⟩

theorem proper_codeSize_iff (hp : m.path.Proper) (h : (codeSize ctx).outcome m = (.ok (), m')) :
    m'.path.Proper ↔ ¬ Spoils ctx m .codeSize := by
  have halike := (touches_perform ctx default "" .codeSize).alike h
  rw [codeSize] at h
  obtain ⟨code, hcode⟩ | ⟨e, hcode⟩ := @codeText_cases ctx <;> rw [hcode] at h <;> cases h
  rw [hp.pushed_iff halike (by decide) rfl fun u hu => hu]
  exact iff_of_false id fun h => h trivial

theorem pure_injective {α : Type} {a b : α} (h : (pure a : Exec α) = pure b) : a = b := by
  have houtcome := congrArg (fun x => (x.outcome {}).1) h
  exact Except.ok.inj houtcome

theorem eq_int_of_toInt? {v : Value} {n : Int} (h : v.IsWord ∨ v.IsSize) (hn : v.toInt? = some n) :
    v = .int n := by
  have hcases : (∃ k, v = .int k) ∨ v.IsTerm := by
    obtain h | ⟨k, hk, -⟩ | h := h
    · exact h.cases.imp_left fun ⟨w, hw⟩ => ⟨_, hw⟩
    · exact .inl ⟨k, hk⟩
    · exact .inr h
  obtain ⟨k, rfl⟩ | ⟨t, rfl⟩ := hcases <;> cases hn
  rfl

theorem spoils_codeCopy_iff {a i n active v : Int} {code : String}
    (hstack : m.path.stack = .int a :: .int i :: .int n :: rest)
    (hsize : m.path.world.activeWords = .int active) (hcode : codeText ctx = pure code)
    (hv : codeNumber code i n = .ok v) : Spoils ctx m .codeCopy ↔ ¬ (Value.int v).IsWord := by
  constructor
  · rintro ⟨a', i', n', active', v', rest', code', hstack', -, hcode', hv', hword⟩
    cases hstack.symm.trans hstack'
    obtain rfl : code' = code := pure_injective (hcode'.symm.trans hcode)
    cases hv'.symm.trans hv
    exact hword
  · exact fun hword => ⟨a, i, n, active, v, rest, code, hstack, hsize, hcode, hv, hword⟩

theorem proper_programCounter_iff (hp : m.path.Proper)
    (h : programCounter.outcome m = (.ok (), m')) : m'.path.Proper ↔ ¬ Spoils ctx m .pc := by
  have halike := (touches_perform ctx default "" .pc).alike h
  cases h
  rw [hp.pushed_iff halike (by decide) rfl fun u hu => hu, Spoils, not_not]

theorem proper_memorySize_iff (hp : m.path.Proper) (h : memorySize.outcome m = (.ok (), m')) :
    m'.path.Proper ↔ ¬ Spoils ctx m .msize := by
  have halike := (touches_perform ctx default "" .msize).alike h
  have hpushes {v : Value} (hv : (Value.int 32).mul m.path.world.activeWords = .ok v) :
      m'.path.Proper ↔ v.IsWord := by
    have hsize : memorySize.outcome m = (push v).outcome (m.taken m.path.stack) := by
      change (do push (← ofExcept ((Value.int 32).mul m.path.world.activeWords))).outcome _ = _
      rw [hv]
      rfl
    rw [hsize] at h
    cases h
    exact hp.pushed_iff halike (by decide) rfl fun u hu => hu
  rw [Spoils]
  obtain ⟨n, hactive, hn⟩ | ⟨t, hactive⟩ := hp.active <;> rw [hactive] at hpushes ⊢
  · rw [hpushes rfl]
    have hspoils : (∃ k, Value.int n = .int k ∧ Word.count ≤ 32 * k) ↔ Word.count ≤ 32 * n :=
      ⟨fun ⟨k, hk, hle⟩ => by cases hk; exact hle, fun hle => ⟨n, rfl, hle⟩⟩
    rw [hspoils, IsWord]
    omega
  · rw [hpushes rfl]
    refine iff_of_true trivial ?_
    rintro ⟨k, hk, -⟩
    cases hk

theorem proper_pushOperand_iff {width : Option Int} {operand : Operand} (hp : m.path.Proper)
    (h : (pushOperand ctx width operand).outcome m = (.ok (), m')) :
    m'.path.Proper ↔ ¬ Spoils ctx m (.push width operand) := by
  have halike : m.AlikeBut [.stack, .pc] m' :=
    (touches_perform ctx default "" (.push width operand)).alike h
  cases width with
  | none => cases h
  | some width =>
    cases operand with
    | missing => cases h
    | unreadable => cases h
    | value n =>
      cases h
      rw [hp.pushed_iff halike (by decide) rfl fun u hu => hu, Spoils]
      split
      next hunit =>
        simp [hunit, (show (Value.int n).lift.IsWord from trivial)]
      next hunit =>
        simp [hunit]

/-! ### Steps -/

theorem not_spoils (h : keepsWords op = true) : ¬ Spoils ctx m op := by
  cases op <;> first | exact id | cases h

theorem spoils_congr {m₁ : Machine} (hstack : m₁.path.stack = m.path.stack)
    (hactive : m₁.path.world.activeWords = m.path.world.activeWords)
    (hpc : m₁.path.world.pc = m.path.world.pc)
    (hsolver : op = .sdiv → m₁.shared.solver = m.shared.solver) :
    Spoils ctx m₁ op ↔ Spoils ctx m op := by
  cases op with
  | sdiv => simp only [Spoils, TopNumbers, TopSymbols, hstack, hsolver rfl]
  | push width operand => cases operand <;> exact Iff.rfl
  | _ => simp only [Spoils, TopNumbers, hstack, hactive, hpc]

def SpoilsAt (ctx : Context) (s : String × Machine) : Prop :=
  Spoils ctx s.2 (Instruction.ofText s.1).operation

section

variable (hsource : ctx.source = none) (hstorage : on ctx.settings.useGlobalStorage = false)
  (hchain : on ctx.settings.useGlobalBlockchain = false)

include hsource hstorage hchain

theorem proper_codeCopy_iff (hp : m.path.Proper) (h : (codeCopy ctx).outcome m = (.ok (), m')) :
    m'.path.Proper ↔ ¬ Spoils ctx m .codeCopy := by
  obtain ⟨hitems, hrest⟩ := taken_of_need h
  obtain ⟨location, start, count, rest, hstack⟩ := exists_three_items hitems
  rw [hstack, outcome_pop_taken, outcome_pop_taken, outcome_pop_taken, copyCode, outcome_bind,
    outcome_getWorld] at hrest
  dsimp only at hrest
  have hoperand (v : Value) (hv : v ∈ m.path.stack) (n : Int) (hn : v.toInt? = some n) :
      v = .int n :=
    eq_int_of_toInt? (.inl (hp.stack v hv)) hn
  have htaken : (m.taken rest).path.Proper :=
    { hp with stack := fun v hv => hp.stack v (by rw [hstack]; simp [show v ∈ rest from hv]) }
  split at hrest
  · -- with numbers throughout, what the code says is written as it is
    rename_i a active i n ha hactive hi hn
    obtain rfl := hoperand location (by simp [hstack]) a ha
    obtain rfl := hoperand start (by simp [hstack]) i hi
    obtain rfl := hoperand count (by simp [hstack]) n hn
    have hsize : m.path.world.activeWords = .int active := eq_int_of_toInt? (.inr hp.active) hactive
    obtain ⟨grown, hgrown, hrest⟩ := outcome_ofExcept_bind_eq_ok.1 hrest
    obtain ⟨code, hcode⟩ | ⟨e, hcode⟩ := @codeText_cases ctx <;> rw [hcode] at hrest
    · rw [pure_bind] at hrest
      obtain ⟨v, hv, hrest⟩ := outcome_ofExcept_bind_eq_ok.1 hrest
      cases hrest
      rw [spoils_codeCopy_iff hstack hsize hcode hv, not_not]
      constructor
      · exact fun hp' => hp'.words (.at a) (.int v) (Table.get?_insert_self _ _ _)
      · intro hword
        exact { htaken with
          words := Table.All.insert htaken.words hword
          active := gives_growTo_size (htaken.active.nonneg hactive) _ grown hgrown }
    · cases hrest
  next hsymbolic =>
    have hword (v : Value) (hv : v ∈ m.path.stack) : v.IsWord := hp.stack v hv
    refine iff_of_true
      (Path.proper_iff.2 (Holds.items (holds_copyUnknown (R := Machine.AlikeBut allParts)
      (closed_isWord hsource hstorage hchain) (fun _ _ => hword location (by simp [hstack]))
      fun _ _ => hword count (by simp [hstack])) (Path.proper_iff.1 htaken) hrest fun _ => trivial))
      ?_
    rintro ⟨a, i, n, active, v, rest', code, hstack', hsize, -⟩
    cases hstack.symm.trans hstack'
    exact hsymbolic a active i n rfl (congrArg Value.toInt? hsize) rfl rfl

theorem proper_perform_iff {site : Site} {name : String} (hp : m.path.Proper)
    (h : (perform ctx site name op).outcome m = (.ok (), m')) :
    m'.path.Proper ↔ ¬ Spoils ctx m op := by
  cases hkeeps : keepsWords op with
  | true =>
    have hperform :=
      holds_perform_anyhow (C := fun _ => True) (closed_isWord hsource hstorage hchain) site name op
      (.inl hkeeps)
    have hitems := hperform.items (Path.proper_iff.1 hp) h fun _ => trivial
    exact iff_of_true (Path.proper_iff.2 hitems) (not_spoils hkeeps)
  | false =>
    cases op with
    | div => exact proper_div_iff hp h
    | sdiv => exact proper_sdiv_iff hp h
    | smod => exact proper_smod_iff hp h
    | codeSize => exact proper_codeSize_iff hp h
    | codeCopy => exact proper_codeCopy_iff hsource hstorage hchain hp h
    | pc => exact proper_programCounter_iff hp h
    | msize => exact proper_memorySize_iff hp h
    | push width operand => exact proper_pushOperand_iff hp h
    | _ => cases hkeeps

theorem proper_traced_iff {site : Site} {text : String} (hp : m.path.Proper)
    (h : Traces ctx site text m m') : m'.path.Proper ↔ ¬ SpoilsAt ctx (text, m) := by
  obtain ⟨m₁, m₂, hready, hbefore, heffect, hafter⟩ := performs_of_traced h
  have hp₁ : m₁.path.Proper := hp.of_alike hbefore (by decide)
  -- signed division asks the solver, which may only have changed for a fee
  have hsolver (hop : (Instruction.ofText text).operation = .sdiv) :
      m₁.shared.solver = m.shared.solver :=
    solver_of_ready (by rw [hop]; exact fun _ => rfl) hready
  have hspoils : Spoils ctx m₁ (Instruction.ofText text).operation ↔ SpoilsAt ctx (text, m) :=
    spoils_congr hbefore.stack hbefore.activeWords hbefore.pc hsolver
  rw [← hspoils, ← proper_perform_iff hsource hstorage hchain hp₁ heffect]
  exact ⟨fun hp' => hp'.of_alike (fun p hp => (hafter p hp).symm) (by decide),
    fun hp₂ => hp₂.of_alike hafter (by decide)⟩

theorem keeps_proper :
    Keeps ctx fun history p => (∀ s ∈ history, ¬ SpoilsAt ctx s) → p.Proper where
  traced hbefore h hspoils := by
    have hp := hbefore fun s hs => hspoils s (List.mem_append_left _ hs)
    exact (proper_traced_iff hsource hstorage hchain hp h).2
      (hspoils _ (List.mem_append_right _ List.mem_cons_self))
  continues hbefore h hspoils := by
    obtain ⟨pc, conditions, analysis, rfl⟩ := h
    exact { hbefore hspoils with }

end

theorem Begins.proper {g : Graph} {root : Call} (h : Begins ctx g entries root)
    (hstate : on ctx.settings.inputState = false) : root.machine.path.Proper := by
  have hstarted := h.started
  have hopening : opening ctx = .ok .symbolic := by rw [opening, hstate]; rfl
  rw [start, hopening] at hstarted
  have hmachine := (Prod.mk.inj hstarted).2
  rw [← hmachine]
  -- all that is put in place at the start are names
  have hvar (name : String) : (Value.var name).IsWord := trivial
  exact Path.proper_iff.2 {
    stack := fun v hv => by cases hv
    words := Table.all_empty
    hashes := Table.all_empty
    vars := by
      repeat' apply Table.All.insert
      · exact Table.all_empty
      all_goals exact hvar _
    storage := Table.all_empty
    active := .inl ⟨0, rfl, Int.le_refl 0⟩
    given := by
      intro v hv
      simp only [World.given, List.mem_cons, List.not_mem_nil, or_false] at hv
      rcases hv with rfl | rfl | rfl | rfl | rfl | rfl | rfl | rfl | rfl | rfl <;> exact hvar _ }

/-! ### Division -/

section Division

variable {text : String} {x y : Word} {rest : List Value}

theorem traced_settle_ok {onInts : Int → Int → Except Fault Value}
    {onSymbols : Value → Value → Inquiry Value} {Q : Value → Prop}
    (hop : (Instruction.ofText text).operation = op)
    (hsettle : ∀ site name, perform ctx site name op = settle ctx onInts onSymbols)
    (hfee : ∀ m, (Gas.dynamic ctx op).outcome m = (.ok 0, m)) (hmove : noteMove ctx op = pure ())
    (hcall : op ≠ .call) (hstack : m.path.stack = .int x.toNat :: .int y.toNat :: rest)
    (hv : ∃ v, onInts x.toNat y.toNat = .ok v ∧ (∀ s : Simplifier, s.value v = v) ∧ Q v)
    (htime : ctx.deadline ≠ some (m.shared.executed + 1)) (site : Site) :
    ∃ m' v, Traces ctx site text m m' ∧ m'.path.stack = v :: rest ∧ Q v := by
  subst hop
  obtain ⟨v, hv, hsimple, hQ⟩ := hv
  suffices h : ∃ m', Traces ctx site text m m' ∧ m'.path.stack = v :: rest by
    obtain ⟨m', hm', hpushed⟩ := h
    exact ⟨m', v, hm', hpushed, hQ⟩
  refine traced_ok (ready_ok hfee hmove hcall htime) fun m₁ hbefore => ?_
  have hstack₁ : m₁.path.stack = .int x.toNat :: .int y.toNat :: rest := hbefore.stack.trans hstack
  refine ⟨m₁.taken (v :: rest), ?_, fun m' hafter => hafter .stack (by decide)⟩
  rw [effect, hsettle, settle, outcome_binary ctx _ hstack₁, both_toNat]
  dsimp only
  rw [hv, outcome_bind, outcome_ofExcept]
  dsimp only
  rw [hsimple]
  rfl

end Division

/-- The items on the stack of any path, unless they are given by a source, an account description or
the chain. All are words until an instruction spoils them, and exactly the instructions listed spoil
them. Division by a number other than zero is one of them: it gives a double. So is the signed
remainder of a negative number, which is not reduced to a word: it is right only if the dividend is
not negative or nothing remains. -/
theorem stack_words_until_spoiled {g : Graph} {root : Call} {history : List (String × Machine)}
    {s : String × Machine} (hroot : Begins ctx g entries root) (hsource : ctx.source = none)
    (hstate : on ctx.settings.inputState = false)
    (hstorage : on ctx.settings.useGlobalStorage = false)
    (hchain : on ctx.settings.useGlobalBlockchain = false)
    (hs : Reached ctx entries root history s) :
    ((∀ s' ∈ history, ¬ SpoilsAt ctx s') → (∀ v ∈ s.2.path.stack, v.IsWord) ∧ ∀ site m',
      (traced ctx site s.1).outcome s.2 = (.ok (), m') → (m'.path.Proper ↔ ¬ SpoilsAt ctx s)) ∧
    ∀ (x y : Word) (rest : List Value), s.2.path.stack = .int x.toNat :: .int y.toNat :: rest →
      ctx.deadline ≠ some (s.2.shared.executed + 1) → ∀ site,
      ((Instruction.ofText s.1).operation = .div →
        ∃ m' v, (traced ctx site s.1).outcome s.2 = (.ok (), m') ∧ m'.path.stack = v :: rest ∧
          if y = 0 then v = .int 0 else ∃ q, Double.ofQuotient? x.toNat y.toNat = some q ∧
            v = .double q) ∧
      ((Instruction.ofText s.1).operation = .sdiv →
        ∃ m' v, (traced ctx site s.1).outcome s.2 = (.ok (), m') ∧ m'.path.stack = v :: rest ∧
          if y = 0 then v = .int 0
          else ∃ sign q, (Double.ofInt? 1 = some sign ∨ Double.ofInt? (-1) = some sign) ∧
            Double.ofQuotient? x.toInt.natAbs y.toInt.natAbs = some q ∧ v = .double (sign.mul q)) ∧
      ((Instruction.ofText s.1).operation = .smod →
        ∃ m' n, (traced ctx site s.1).outcome s.2 = (.ok (), m') ∧ m'.path.stack = .int n :: rest ∧
          (n = (if y = 0 then 0 else x.srem y).toNat ↔ y = 0 ∨ x.toNat < 2 ^ 255 ∨
            x.srem y = 0)) := by
  refine ⟨fun hspoils => ?_, fun x y rest hstack htime site => ?_⟩
  · have hp :=
      hs.keeps (keeps_proper hsource hstorage hchain) (fun _ => hroot.proper hstate) hspoils
    exact ⟨hp.stack, fun site m' hm' => proper_traced_iff hsource hstorage hchain hp hm'⟩
  · refine ⟨fun hop => ?_, fun hop => ?_, fun hop => ?_⟩
    · exact traced_settle_ok hop (fun _ _ => rfl) (fun _ => rfl) rfl (by decide) hstack
        (Arithmetic.quotient_toNat x y) htime site
    · exact traced_settle_ok hop (fun _ _ => rfl) (fun _ => rfl) rfl (by decide) hstack
        (Arithmetic.signedQuotient_toNat x y) htime site
    · obtain ⟨n, hn, hright, -⟩ := Arithmetic.signedRemainder_toNat x y
      obtain ⟨m', _, hm', hpushed, rfl⟩ := traced_settle_ok hop (fun _ _ => rfl) (fun _ => rfl) rfl
        (by decide) hstack ⟨_, hn, fun _ => rfl, rfl⟩ htime site
      exact ⟨m', n, hm', hpushed, hright⟩

open Listing

theorem not_spoilsAt_push {s : String × Machine} {width : Option Int} {n : Int}
    (hop : (Instruction.ofText s.1).operation = .push width (.value n))
    (hn : (Value.int n).IsWord) : ¬ SpoilsAt ctx s := by
  rw [SpoilsAt, hop]
  exact fun h => h.2 hn

def takeRemainder : Code := .ofDrafts
  [⟨0, "PUSH1", some "03"⟩, ⟨2, "PUSH1", some "07"⟩, ⟨4, "SMOD", none⟩, ⟨5, "STOP", none⟩]

theorem block_takeRemainder : (takeRemainder.linked.blocks.get? 0).map Block.instructions =
    some (["PUSH1 0x03 ", "PUSH1 0x07 "] ++ "SMOD " :: ["STOP "]) := by
  rw [Code.linked_sorted]
  decide +kernel

theorem run_takeRemainder :
    Call.Passes affirming takeRemainder.linked ["PUSH1 0x03 ", "PUSH1 0x07 "] ∧
    (Call.openedBy affirming takeRemainder.linked ["PUSH1 0x03 ", "PUSH1 0x07 "]).path.stack =
      [.int 7, .int 3] := by
  decide +kernel

/-- Where nothing has been spoiled, the remainder 1 is pushed, and all items are words still. -/
theorem stack_words_until_spoiled_takeRemainder : ∃ history s m',
    Reached affirming {} (.first affirming takeRemainder.linked) history s ∧
    (∀ s' ∈ history, ¬ SpoilsAt affirming s') ∧ s.1 = "SMOD " ∧ s.2.path.stack = [.int 7, .int 3] ∧
    (∀ v ∈ s.2.path.stack, v.IsWord) ∧
    (traced affirming Site.first s.1).outcome s.2 = (.ok (), m') ∧ m'.path.stack = [.int 1] ∧
    (m'.path.Proper ↔ ¬ SpoilsAt affirming s) := by
  obtain ⟨hrun, hstack⟩ := run_takeRemainder
  have hroot : Begins affirming takeRemainder.linked {} _ :=
    begins_first (.inl rfl) (by decide +kernel)
  have hs := reached_first rfl block_takeRemainder (by decide) (by decide) hrun
  obtain ⟨hwords, hdivisions⟩ := stack_words_until_spoiled hroot rfl rfl rfl rfl hs
  have hquiet : ∀ s' ∈ steps affirming Site.first ["PUSH1 0x03 ", "PUSH1 0x07 "]
      (Call.opened affirming takeRemainder.linked), ¬ SpoilsAt affirming s' := by
    intro s' hs'
    rcases List.mem_pair.1 (text_mem_of_mem_steps hs') with htext | htext
    · exact @not_spoilsAt_push _ s' (some 1) 3 (by rw [htext]; decide) (by decide)
    · exact @not_spoilsAt_push _ s' (some 1) 7 (by rw [htext]; decide) (by decide)
  obtain ⟨hwords, hproper⟩ := hwords hquiet
  have hdividend : ((7 : Word).toNat : Int) = 7 := by decide
  have hdivisor : ((3 : Word).toNat : Int) = 3 := by decide
  obtain ⟨m', n, hm', hpushed, hright⟩ :=
    (hdivisions 7 3 [] (by rw [hstack, hdividend, hdivisor]) (by decide) Site.first).2.2 (by decide)
  have hlt : (7 : Word).toNat < 2 ^ 255 := Nat.lt_of_le_of_lt (by decide : _ ≤ 7) (by norm_num)
  have hn := hright.2 (.inr (.inl hlt))
  refine ⟨_, _, m', hs, hquiet, rfl, hstack, hwords, hm', ?_, hproper Site.first m' hm'⟩
  have hone : (if (3 : Word) = 0 then 0 else (7 : Word).srem 3).toNat = 1 := by decide
  rw [hpushed, hn, hone]
  rfl

def divide : Code := .ofDrafts
  [⟨0, "PUSH1", some "02"⟩, ⟨2, "PUSH1", some "06"⟩, ⟨4, "DIV", none⟩, ⟨5, "STOP", none⟩]

theorem block_divide : (divide.linked.blocks.get? 0).map Block.instructions =
    some (["PUSH1 0x02 ", "PUSH1 0x06 "] ++ "DIV " :: ["STOP "]) := by
  rw [Code.linked_sorted]
  decide +kernel

theorem run_divide :
    let m := Call.openedBy affirming divide.linked ["PUSH1 0x02 ", "PUSH1 0x06 "]
    let o := (traced affirming Site.first "DIV ").outcome m
    Call.Passes affirming divide.linked ["PUSH1 0x02 ", "PUSH1 0x06 "] ∧
    m.path.stack = [.int 6, .int 2] ∧
    o.1.isOk = true ∧ o.2.path.stack = [.double (.finite false 6755399441055744 (-51))] := by
  decide +kernel

theorem quotient_no_word : ∃ history s m',
    Reached affirming {} (.first affirming divide.linked) history s ∧ s.1 = "DIV " ∧
    s.2.path.stack = [.int 6, .int 2] ∧
    (traced affirming Site.first s.1).outcome s.2 = (.ok (), m') ∧
    m'.path.stack = [.double (.finite false 6755399441055744 (-51))] ∧
    ¬ ∀ v ∈ m'.path.stack, v.IsWord := by
  obtain ⟨hrun, hstack, hok, hpushed⟩ := run_divide
  have hs := reached_first rfl block_divide (by decide) (by decide) hrun
  refine ⟨_, _, _, hs, rfl, hstack, outcome_eq_of_isOk hok, hpushed, ?_⟩
  rw [hpushed]
  decide

end Exec

end EvmAudit
