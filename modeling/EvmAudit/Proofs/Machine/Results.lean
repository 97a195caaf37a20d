import EvmAudit.Proofs.Machine.Fees
import EvmAudit.Proofs.Machine.Proper

/-! What the arithmetic instructions put on the stack, compared with the results of unbounded
integers: for numbers, for symbolic words with a divisor other than zero, and for symbolic words
with the divisor zero. -/

namespace EvmAudit

/-- What an instruction makes of the words that it takes, in the order of the stack, reckoned with
unbounded integers. -/
inductive Result : Operation → List Word → Nat → Prop
  | div (a b : Word) : Result .div [a, b] (if b = 0 then 0 else a.toNat / b.toNat)
  | mod (a b : Word) : Result .mod [a, b] (if b = 0 then 0 else a.toNat % b.toNat)
  | addMod (a b n : Word) :
      Result .addMod [a, b, n] (if n = 0 then 0 else (a.toNat + b.toNat) % n.toNat)
  | mulMod (a b n : Word) :
      Result .mulMod [a, b, n] (if n = 0 then 0 else a.toNat * b.toNat % n.toNat)
  | exp (a b : Word) : Result .exp [a, b] (a.toNat ^ b.toNat % 2 ^ 256)
  | byte (i b : Word) :
      Result .byte [i, b] (if i.toNat < 32 then b.toNat / 2 ^ (8 * (31 - i.toNat)) % 256 else 0)
  | signExtend (i b : Word) :
      Result .signExtend [i, b] (if i.toNat < 31 then b.extended (8 * i.toNat + 7) else b).toNat
  | sdiv (a b : Word) : Result .sdiv [a, b] (BitVec.ofInt 256 (a.toInt.tdiv b.toInt)).toNat
  | smod (a b : Word) :
      Result .smod [a, b] (if b = 0 then 0 else (BitVec.ofInt 256 (a.toInt.tmod b.toInt)).toNat)

namespace Exec

variable {ctx : Context} {m m' : Machine} {op : Operation} {words : List Word} {r : Nat}
variable {instruction : Instruction} {rest : List Value} {site : Site}

/-! ### Steps -/

theorem fee_of_result (h : Result op words r) (m : Machine) :
    ∃ fee, (Gas.dynamic ctx op).outcome m = (.ok fee, m) := by
  cases h with
  | exp a b =>
    rw [Gas.dynamic, outcome_bind_getPath]
    dsimp only
    split
    all_goals try contradiction
    · split <;> exact ⟨_, rfl⟩
    · exact ⟨_, rfl⟩
  | _ => exact ⟨_, rfl⟩

theorem step_of_plain (hfee : ∀ m, ∃ fee, (Gas.dynamic ctx instruction.operation).outcome m =
      (.ok fee, m))
    (hfree : isFree instruction.operation = false)
    (hmove : noteMove ctx instruction.operation = pure ()) (hcall : instruction.operation ≠ .call)
    (site : Site) (m : Machine) : ∃ m₁, (step ctx site instruction).outcome m =
        (perform ctx site instruction.name instruction.operation).outcome m₁ ∧
        m.AlikeBut [.visitedPcs, .fees] m₁ := by
  obtain ⟨pcs, hvisited⟩ := outcome_markVisited m
  obtain ⟨fee, hfee⟩ := hfee { m with shared := { m.shared with visitedPcs := pcs } }
  rw [step, outcome_bind, hvisited, prepare, hfree, updateAnalysis, Gas.charge, hmove]
  dsimp only
  rw [outcome_bind, if_neg Bool.false_ne_true, outcome_bind, outcome_bind, outcome_bind, hfee]
  dsimp only
  rw [if_neg hcall]
  refine ⟨_, rfl, fun part hpart => ?_⟩
  cases part <;> first | rfl | exact absurd (by decide) hpart

theorem step_of_result (h : Result op words r) (hop : instruction.operation = op) (site : Site)
    (m : Machine) : ∃ m₁, (step ctx site instruction).outcome m =
      (perform ctx site instruction.name op).outcome m₁ ∧
      m₁.path.stack = m.path.stack ∧ m₁.shared.solver = m.shared.solver := by
  subst hop
  obtain ⟨hfree, hmove, hcall⟩ : isFree instruction.operation = false ∧
      noteMove ctx instruction.operation = pure () ∧ instruction.operation ≠ .call := by
    generalize instruction.operation = op at h
    cases h <;> exact ⟨rfl, rfl, by decide⟩
  obtain ⟨m₁, hstep, halike⟩ := step_of_plain (fun m => fee_of_result h m) hfree hmove hcall site m
  exact ⟨m₁, hstep, halike .stack (by decide), halike .solver (by decide)⟩

/-- The operation succeeds and puts the item in the place of its operands. -/
def Puts (x : Exec Unit) (m : Machine) (v : Value) (rest : List Value) : Prop :=
  ∃ m', x.outcome m = (.ok (), m') ∧ m'.path.stack = v :: rest

theorem puts_step (h : Result op words r) (hop : instruction.operation = op) {v : Value}
    (hperform : ∀ m₁, m₁.path.stack = m.path.stack → m₁.shared.solver = m.shared.solver →
      Puts (perform ctx site instruction.name op) m₁ v rest) :
      Puts (step ctx site instruction) m v rest := by
  obtain ⟨m₁, hstep, hstack, hsolver⟩ := @step_of_result ctx _ _ _ _ h hop site m
  obtain ⟨m', hm', hput⟩ := hperform m₁ hstack hsolver
  exact ⟨m', hstep.trans hm', hput⟩

/-- The operation puts its answer, simplified, in the place of its operands, or fails for want of
one. -/
def Answered (ctx : Context) (x : Exec Unit) (m : Machine) (rest : List Value) :
    Except Fault Value → Prop
  | .ok v => Puts x m (ctx.simplify.value v) rest
  | .error e => ∃ m', x.outcome m = (.error e, m')

theorem answered_push {x : Exec Value} {r : Except Fault Value} {m₁ : Machine}
    (hx : x.outcome m = (r, m₁)) (hrest : m₁.path.stack = rest) :
    Answered ctx (do let v ← x; push (ctx.simplify.value v)) m rest r := by
  cases r with
  | error e => exact ⟨m₁, by rw [outcome_bind, hx]⟩
  | ok v => exact ⟨_, by rw [outcome_bind, hx]; rfl, congrArg (ctx.simplify.value v :: ·) hrest⟩

/-! ### Numbers -/

theorem puts_settle_numbers {onInts : Int → Int → Except Fault Value}
    {onSymbols : Value → Value → Inquiry Value} {x y : Word} {n : Int}
    (hstack : m.path.stack = .int x.toNat :: .int y.toNat :: rest)
    (h : onInts x.toNat y.toNat = .ok (.int n)) :
    Puts (settle ctx onInts onSymbols) m (.int n) rest := by
  rw [settle, Puts, outcome_binary ctx _ hstack, both_toNat]
  exact @answered_push ctx (m.taken rest) rest _ (.ok (.int n)) _ (Prod.ext h rfl) rfl

theorem puts_modular_numbers {onInts : Int → Int → Int} (onTerms : Term → Term → Term → Term)
    {x y n : Word} {k : Nat}
    (hstack : m.path.stack = .int x.toNat :: .int y.toNat :: .int n.toNat :: rest)
    (h : onInts x.toNat y.toNat = k) :
    Puts (modular ctx onInts onTerms) m (.int (if n = 0 then 0 else k % n.toNat : Nat)) rest := by
  have hreduced : (if (n.toNat : Int) = 0 then 0 else (onInts x.toNat y.toNat).fmod n.toNat) =
      (if n = 0 then 0 else k % n.toNat : Nat) := by
    rw [h, Int.fmod_eq_emod_of_nonneg _ (Int.natCast_nonneg _)]
    by_cases hn : n = 0
    · rw [if_pos ((Arithmetic.toNat_eq_zero_iff n).2 hn), if_pos hn]
      rfl
    · rw [if_neg fun hzero => hn ((Arithmetic.toNat_eq_zero_iff n).1 hzero), if_neg hn,
        Int.natCast_emod]
  rw [modular, Puts, outcome_need_advance _ (by simp [hstack]), hstack, ← hreduced]
  exact ⟨_, rfl, rfl⟩

theorem puts_exp {x y : Word} (hstack : m.path.stack = .int x.toNat :: .int y.toNat :: rest) :
    Puts (exp ctx) m (.int (x.toNat ^ y.toNat % 2 ^ 256 : Nat)) rest := by
  rw [exp, Puts, outcome_binary ctx _ hstack, both_toNat]
  refine @answered_push ctx (m.taken rest) rest _ (.ok (.int _)) (m.taken rest) ?_ rfl
  dsimp only
  rw [wordPower_toNat]
  rfl

theorem puts_byte_numbers {i y : Word}
    (hstack : m.path.stack = .int i.toNat :: .int y.toNat :: rest) :
    Puts (byte ctx) m
      (.int (if i.toNat < 32 then y.toNat / 2 ^ (8 * (31 - i.toNat)) % 256 else 0 : Nat)) rest := by
  rw [byte, Puts, outcome_need_advance _ (by simp [hstack]), hstack]
  change Puts (do
    let v ← if (i.toNat : Int) ≥ 32 ∨ (i.toNat : Int) < 0 then pure (.int 0)
      else ofExcept (byteOf (.int y.toNat) (.int (8 * (32 - i.toNat - 1))))
    push (ctx.simplify.value v)) (m.taken rest) _ rest
  by_cases hi : i.toNat < 32
  · have hplace : 8 * (32 - (i.toNat : Int) - 1) = (8 * (31 - i.toNat) : Nat) := by omega
    rw [if_neg (by omega), if_pos hi, hplace, byteOf_natCast]
    exact ⟨_, rfl, rfl⟩
  · rw [if_pos (by omega), if_neg hi]
    exact ⟨_, rfl, rfl⟩

theorem lt_of_result (h : Result op words r) : r < 2 ^ 256 := by
  have hdivided (n : Word) {k : Nat} (hk : n ≠ 0 → k < 2 ^ 256) :
      (if n = 0 then 0 else k) < 2 ^ 256 := by
    split
    · decide
    · exact hk ‹_›
  have hreduced (k : Nat) (n : Word) (hn : n ≠ 0) : k % n.toNat < 2 ^ 256 :=
    (Nat.mod_lt k (Nat.pos_of_ne_zero fun h => hn (BitVec.eq_of_toNat_eq h))).trans n.isLt
  cases h with
  | div a b => exact hdivided b fun _ => Nat.lt_of_le_of_lt (Nat.div_le_self _ _) a.isLt
  | mod a b => exact hdivided b (hreduced _ b)
  | addMod a b n => exact hdivided n (hreduced _ n)
  | mulMod a b n => exact hdivided n (hreduced _ n)
  | exp a b => exact Nat.mod_lt _ (by decide)
  | byte i b =>
    split
    · exact (Nat.mod_lt _ (by decide)).trans (by decide)
    · decide
  | smod a b => exact hdivided b fun _ => BitVec.isLt _
  | _ => exact BitVec.isLt _

/-- Numbers in range are computed with as unbounded integers, and the result is a number in range.
Division and the signed operations are left out: they leave the numbers. -/
theorem numbers_exact (h : Result op words r) (hop : instruction.operation = op)
    (hexact : op ∉ [.div, .sdiv, .smod])
    (hstack : m.path.stack = words.map (fun w => .int w.toNat) ++ rest) :
    Puts (step ctx site instruction) m (.int r) rest ∧ r < 2 ^ 256 := by
  refine ⟨puts_step h hop fun m₁ hstack₁ _ => ?_, lt_of_result h⟩
  rw [hstack] at hstack₁
  cases h with
  | div | sdiv | smod => simp at hexact
  | mod a b => exact puts_settle_numbers hstack₁ (Arithmetic.remainder_toNat a b)
  | addMod a b n => exact puts_modular_numbers .addMod hstack₁ (Int.natCast_add _ _).symm
  | mulMod a b n => exact puts_modular_numbers .mulMod hstack₁ (Int.natCast_mul _ _).symm
  | exp a b => exact puts_exp hstack₁
  | byte i b => exact puts_byte_numbers hstack₁
  | signExtend i b =>
    exact puts_settle_numbers hstack₁ (congrArg Except.ok (Arithmetic.signExtension_toNat i b))

theorem numbers_exact_signExtend :
    Puts (step {} { block := 0 } (.ofText "SIGNEXTEND "))
      { path := { stack := [.int 0, .int 255, .absent] } } (.int (2 ^ 256 - 1)) [.absent] :=
  (numbers_exact (Result.signExtend 0 255) (by decide +kernel) (by decide) rfl).1

/-! ### Questions -/

end Exec

def Value.meaning (env : Assignment) (v : Value) : Word :=
  match v.lift with
  | .word t => t.eval env
  | _ => 0

def Allows (known : List Formula) (P : Assignment → Prop) : Prop :=
  ∃ env, allHold env known = true ∧ P env

namespace Value

variable {env : Assignment} {v : Value} {w : Word}

theorem Stands.meaning (h : v.Stands env w) : v.meaning env = w := by
  obtain ⟨t, ht, rfl⟩ := h.lift
  rw [Value.meaning, ht]

theorem IsWord.stands_meaning (h : v.IsWord) (env : Assignment) : v.Stands env (v.meaning env) := by
  obtain ⟨w, hw⟩ := h.stands env
  rwa [hw.meaning]

theorem meaning_lift (v : Value) (env : Assignment) : v.lift.meaning env = v.meaning env := by
  cases v <;> rfl

end Value

namespace Inquiry

variable {ctx : Context} {known known' : List Formula} {P Q : Assignment → Prop} {α : Type}

def Asks (question : Except Fault Formula) (P : Assignment → Prop) : Prop :=
  ∃ f, question = .ok f ∧ ∀ env, f.eval env = true ↔ P env

def Adds (known known' : List Formula) (P : Assignment → Prop) : Prop :=
  ∀ env, allHold env known' = true ↔ allHold env known = true ∧ P env

theorem Adds.allows (h : Adds known known' P) : Allows known' Q ↔ Allows known fun env => P env ∧
    Q env := by
  simp only [Allows, h _, and_assoc]

theorem adds_of_eval {f : Formula} (hf : ∀ env, f.eval env = true ↔ P env) :
    Adds known (known ++ [f]) P := by
  intro env
  rw [allHold_append, Bool.and_eq_true, ← hf env]
  simp [allHold]

/-- The solver gives up on a question of the inquiry, and the inquiry fails with that. -/
def Undecided (ctx : Context) (known : List Formula) (i : Inquiry α) : Prop :=
  ∃ asked, ctx.decide (known ++ asked) = .unknown ∧
  (i.eval ctx.decide known).1 = .error (.undecided "timeout")

theorem eval_ask (hsound : ctx.Sound) {question : Except Fault Formula}
    (hquestion : Asks question P) (refuted possible : Inquiry α) :
    ∃ f, Adds known (known ++ [f]) P ∧
      (Allows known P ∧ ((ask question refuted possible).eval ctx.decide known).1 =
          (possible.eval ctx.decide (known ++ [f])).1 ∨
        ¬ Allows known P ∧ ((ask question refuted possible).eval ctx.decide known).1 =
          (refuted.eval ctx.decide (known ++ [f])).1 ∨
        Undecided ctx known (ask question refuted possible)) := by
  obtain ⟨f, rfl, hf⟩ := hquestion
  have hadds : Adds known (known ++ [f]) P := adds_of_eval hf
  have hallows : Satisfiable (known ++ [f]) ↔ Allows known P := exists_congr hadds
  refine ⟨f, hadds, ?_⟩
  rw [Undecided, eval]
  cases hd : ctx.decide (known ++ [f]) with
  | sat values => exact .inl ⟨hallows.1 (hsound.sat hd), fst_close _⟩
  | unsat => exact .inr (.inl ⟨mt hallows.2 (hsound.unsat hd), fst_close _⟩)
  | unknown => exact .inr (.inr ⟨[f], hd, rfl⟩)

theorem asks_nonzero {d : Value} (hd : d.IsWord) :
    Asks (do return (← d.eq (.int 0)).not) fun env => d.meaning env ≠ 0 := by
  obtain ⟨w, rfl⟩ | ⟨t, rfl⟩ := hd.cases
  · refine ⟨_, rfl, fun env => ?_⟩
    dsimp only
    rw [(Value.stands_int w).meaning]
    change (!(compare (w.toNat : Int) 0 == .eq)) = true ↔ w ≠ 0
    rw [Bool.not_eq_true', beq_eq_false_iff_ne, Ne, compare_eq_iff_eq, Arithmetic.toNat_eq_zero_iff]
  · refine ⟨_, rfl, fun env => ?_⟩
    change (!(t.eval env == BitVec.ofInt 256 0)) = true ↔ t.eval env ≠ 0
    simp

end Inquiry

namespace Exec

variable {ctx : Context} {m m' : Machine} {op : Operation} {env : Assignment} {rest : List Value}
variable {a b n v : Value} {w : Word} {site : Site} {name : String}

/-- The solver gives up on a question that the operation asks, and the operation fails with that. -/
def Undecided (ctx : Context) (x : Exec Unit) (m : Machine) : Prop :=
  ∃ asked, ctx.decide (m.shared.solver.assertions ++ asked) = .unknown ∧
    ∃ m', x.outcome m = (.error (.undecided "timeout"), m')

theorem not_undecided (hexact : ctx.Exact) (x : Exec Unit) (m : Machine) : ¬ Undecided ctx x m :=
  fun ⟨_, h, _⟩ => hexact.decided _ h

theorem Answered.congr {x y : Exec Unit} {r : Except Fault Value} (h : y.outcome m = x.outcome m')
    (hx : Answered ctx x m' rest r) : Answered ctx y m rest r := by
  cases r with
  | error e => exact hx.imp fun _ => h.trans
  | ok v => exact hx.imp fun _ => And.imp_left h.trans

theorem Answered.undecided {x : Exec Unit} {i : Inquiry Value}
    (hx : Answered ctx x m rest (i.eval ctx.decide m.shared.solver.assertions).1)
    (h : i.Undecided ctx m.shared.solver.assertions) : Undecided ctx x m := by
  obtain ⟨asked, hd, heval⟩ := h
  rw [heval] at hx
  exact ⟨asked, hd, hx⟩

theorem answered_inquire (i : Inquiry Value) (m : Machine) :
    Answered ctx (do let v ← inquire ctx i; push (ctx.simplify.value v)) m m.path.stack
      (i.eval ctx.decide m.shared.solver.assertions).1 := by
  obtain ⟨inner, s, -, -, ho⟩ := i.opens_inquire ctx m
  exact answered_push ho rfl

theorem answered_settle {onInts : Int → Int → Except Fault Value}
    {onSymbols : Value → Value → Inquiry Value} (hstack : m.path.stack = a :: b :: rest)
    (hboth : both a b = none) :
    Answered ctx (settle ctx onInts onSymbols) m rest
      ((onSymbols a.lift b.lift).eval ctx.decide m.shared.solver.assertions).1 := by
  refine .congr ?_ (answered_inquire (onSymbols a.lift b.lift) (m.taken rest))
  rw [settle, outcome_binary ctx _ hstack, hboth]

theorem answered_modular {onInts : Int → Int → Int} {onTerms : Term → Term → Term → Term}
    (hstack : m.path.stack = a :: b :: n :: rest) (hterm : a.IsTerm ∨ b.IsTerm ∨ n.IsTerm) :
    Answered ctx (modular ctx onInts onTerms) m rest
      ((Inquiry.modular onTerms a b n).eval ctx.decide m.shared.solver.assertions).1 := by
  refine .congr ?_ (answered_inquire (Inquiry.modular onTerms a b n) (m.taken rest))
  rw [modular, outcome_need_advance _ (by simp [hstack]), hstack, outcome_pop_taken,
    outcome_pop_taken, outcome_pop_taken]
  split
  · obtain ⟨t, rfl⟩ | ⟨t, rfl⟩ | ⟨t, rfl⟩ := hterm <;> contradiction
  · rfl

/-! ### Division -/

inductive Divided : Operation → List Word → Word → Prop
  | div (a b : Word) : Divided .div [a, b] (a.smtUDiv b)
  | mod (a b : Word) : Divided .mod [a, b] (a.umod b)
  | addMod (a b n : Word) : Divided .addMod [a, b, n] (Word.addMod a b n)
  | mulMod (a b n : Word) : Divided .mulMod [a, b, n] (Word.mulMod a b n)

abbrev MayDiffer (known : List Formula) (d : Value) : Prop :=
  Allows known fun env => d.meaning env ≠ 0

/-- A word is put in the place of the operands, unless the solver gives up. It has the value `w` if
the divisor can be other than zero, and is zero otherwise. -/
def PutsQuotient (ctx : Context) (x : Exec Unit) (m : Machine) (rest : List Value)
    (env : Assignment) (d : Value) (w : Word) : Prop :=
  Undecided ctx x m ∨ ∃ v, Puts x m v rest ∧ v.IsWord ∧
  (MayDiffer m.shared.solver.assertions d → v.meaning env = w) ∧
    (¬ MayDiffer m.shared.solver.assertions d → v.meaning env = 0)

theorem putsQuotient_of_eval (hsound : ctx.Sound) {x : Exec Unit} {d : Value} (hd : d.IsWord)
    {answer : Except Fault Value} (hanswer : MayDiffer m.shared.solver.assertions d →
      ∃ q, answer = .ok q ∧ q.Stands env w)
    (hx : Answered ctx x m rest
      ((Inquiry.unlessZero d (.answer answer)).eval ctx.decide m.shared.solver.assertions).1) :
    PutsQuotient ctx x m rest env d w := by
  obtain ⟨f, -, ⟨hdiffer, heval⟩ | ⟨hzero, heval⟩ | hgivesUp⟩ :=
    @Inquiry.eval_ask ctx m.shared.solver.assertions _ _
    hsound _ (Inquiry.asks_nonzero hd) (.answer (.ok (.int 0))) (.answer answer)
  · obtain ⟨q, rfl, hq⟩ := hanswer hdiffer
    rw [Inquiry.unlessZero, heval] at hx
    have hsimplified := hq.simplify hsound.simplify
    exact .inr ⟨_, hx, hsimplified.isWord, fun _ => hsimplified.meaning, (absurd hdiffer ·)⟩
  · rw [Inquiry.unlessZero, heval] at hx
    exact .inr ⟨_, hx, Value.isWord_zero, (absurd · hzero), fun _ => rfl⟩
  · exact .inl (hx.undecided hgivesUp)

theorem putsQuotient_settle (hsound : ctx.Sound) {onInts : Int → Int → Except Fault Value}
    (op : Binary) (ha : a.IsWord) (hb : b.IsWord) (hterm : a.IsTerm ∨ b.IsTerm)
    (hstack : m.path.stack = a :: b :: rest) :
    PutsQuotient ctx (settle ctx onInts fun a b => .unlessZero b (.answer (Value.onWords op a b))) m
      rest env b (op.apply (a.meaning env) (b.meaning env)) := by
  obtain ⟨s, hs, hx⟩ := (ha.stands_meaning env).lift
  obtain ⟨t, ht, hy⟩ := (hb.stands_meaning env).lift
  have hdivisor (env : Assignment) : b.lift.meaning env = b.meaning env := Value.meaning_lift b env
  have h := @putsQuotient_of_eval ctx m env rest (op.apply (a.meaning env) (b.meaning env)) hsound
    (settle ctx onInts fun a b => .unlessZero b (.answer (Value.onWords op a b))) b.lift
    hb.lift.isWord
    (Value.onWords op a.lift b.lift) (fun _ => ⟨_, by rw [hs, ht]; rfl, ?_⟩)
    (answered_settle hstack (both_of_term hterm))
  · simpa only [PutsQuotient, MayDiffer, hdivisor] using h
  · change op.apply (s.eval env) (t.eval env) = _
    rw [hx, hy]

theorem putsQuotient_modular (hsound : ctx.Sound) {onInts : Int → Int → Int}
    {onTerms : Term → Term → Term → Term} {onWords : Word → Word → Word → Word}
    (honTerms : ∀ s t u : Term,
      (onTerms s t u).eval env = onWords (s.eval env) (t.eval env) (u.eval env)) (ha : a.IsWord)
    (hb : b.IsWord) (hn : n.IsWord) (hterm : a.IsTerm ∨ b.IsTerm ∨ n.IsTerm)
    (hmodulus : MayDiffer m.shared.solver.assertions n → n.IsTerm)
    (hstack : m.path.stack = a :: b :: n :: rest) :
    PutsQuotient ctx (modular ctx onInts onTerms) m rest env n
      (onWords (a.meaning env) (b.meaning env) (n.meaning env)) := by
  obtain ⟨s, hs, hx⟩ := (ha.stands_meaning env).lift
  obtain ⟨t, ht, hy⟩ := (hb.stands_meaning env).lift
  refine putsQuotient_of_eval hsound hn (fun hdiffer => ?_) (answered_modular hstack hterm)
  obtain ⟨u, rfl⟩ := hmodulus hdiffer
  refine ⟨.word (onTerms s t u), by rw [hs, ht]; rfl, ?_⟩
  change (onTerms s t u).eval env = _
  rw [honTerms, hx, hy]
  rfl

theorem putsQuotient_perform (hsound : ctx.Sound) {items : List Value} {d : Value}
    (h : Divided op (items.map (Value.meaning env)) w) (hitems : ∀ v ∈ items, v.IsWord)
    (hterm : ∃ v ∈ items, v.IsTerm) (hd : items.getLast? = some d)
    (hmodulus : MayDiffer m.shared.solver.assertions d → items.length = 3 → d.IsTerm)
    (hstack : m.path.stack = items ++ rest) :
    PutsQuotient ctx (perform ctx site name op) m rest env d w := by
  rcases items with _ | ⟨a, _ | ⟨b, _ | ⟨n, _ | ⟨c, tail⟩⟩⟩⟩
  · cases h
  · cases h
  · obtain rfl : b = d := by simpa using hd
    have ha := hitems a (by simp)
    have hb := hitems b (by simp)
    have hterm : a.IsTerm ∨ b.IsTerm := by simpa using hterm
    cases h with
    | div => exact putsQuotient_settle hsound .udiv ha hb hterm hstack
    | mod => exact putsQuotient_settle hsound .urem ha hb hterm hstack
  · obtain rfl : n = d := by simpa using hd
    have ha := hitems a (by simp)
    have hb := hitems b (by simp)
    have hn := hitems n (by simp)
    have hterm : a.IsTerm ∨ b.IsTerm ∨ n.IsTerm := by simpa using hterm
    have hmodulus (hdiffer : MayDiffer m.shared.solver.assertions n) : n.IsTerm :=
      hmodulus hdiffer rfl
    cases h with
    | addMod => exact putsQuotient_modular hsound (fun _ _ _ => rfl) ha hb hn hterm hmodulus hstack
    | mulMod => exact putsQuotient_modular hsound (fun _ _ _ => rfl) ha hb hn hterm hmodulus hstack
  · cases h

theorem putsQuotient_step (hsound : ctx.Sound) {items : List Value} {d : Value} {r : Nat}
    {words : List Word} {instruction : Instruction} (hop : instruction.operation = op)
    (hresult : Result op words r) (h : Divided op (items.map (Value.meaning env)) w)
    (hitems : ∀ v ∈ items, v.IsWord) (hterm : ∃ v ∈ items, v.IsTerm) (hd : items.getLast? = some d)
    (hmodulus : MayDiffer m.shared.solver.assertions d → items.length = 3 → d.IsTerm)
    (hstack : m.path.stack = items ++ rest) :
    PutsQuotient ctx (step ctx site instruction) m rest env d w := by
  obtain ⟨m₁, hstep, hstack₁, hsolver₁⟩ := @step_of_result ctx _ _ _ _ hresult hop site m
  have hperform := @putsQuotient_perform ctx m₁ op env rest w site instruction.name hsound items d h
    hitems hterm hd (hsolver₁ ▸ hmodulus) (hstack₁.trans hstack)
  simpa only [PutsQuotient, Undecided, Puts, hstep, hsolver₁] using hperform

theorem divided_of_result {words : List Word} {r : Nat} (h : Result op words r)
    (hdivision : op ∈ [.div, .mod, .addMod, .mulMod]) {d : Word} (hd : words.getLast? = some d)
    (hnonzero : d ≠ 0) : ∃ w, Divided op words w ∧ w.toNat = r := by
  cases h with
  | div a b =>
    obtain rfl : b = d := by simpa using hd
    refine ⟨_, .div a b, ?_⟩
    rw [if_neg hnonzero, BitVec.smtUDiv_eq, if_neg (show ¬ b = 0#256 from hnonzero),
      BitVec.toNat_udiv]
  | mod a b =>
    obtain rfl : b = d := by simpa using hd
    refine ⟨_, .mod a b, ?_⟩
    rw [if_neg hnonzero, BitVec.umod_eq, BitVec.toNat_umod]
  | addMod a b n =>
    obtain rfl : n = d := by simpa using hd
    refine ⟨_, .addMod a b n, ?_⟩
    have hlt := lt_of_result (.addMod a b n)
    rw [if_neg hnonzero] at hlt ⊢
    rw [Word.addMod_eq, BitVec.toNat_ofNat, Nat.mod_eq_of_lt hlt]
  | mulMod a b n =>
    obtain rfl : n = d := by simpa using hd
    refine ⟨_, .mulMod a b n, ?_⟩
    have hlt := lt_of_result (.mulMod a b n)
    rw [if_neg hnonzero] at hlt ⊢
    rw [Word.mulMod_eq, BitVec.toNat_ofNat, Nat.mod_eq_of_lt hlt]
  | _ => simp at hdivision

/-- Where the divisor is not zero, the word that a symbolic division puts is the quotient or
remainder of the unbounded integers. If the solver gives up, there is no such word. -/
theorem quotients_exact (hsound : ctx.Sound) {instruction : Instruction}
    (hop : instruction.operation = op) (hdivision : op ∈ [.div, .mod, .addMod, .mulMod])
    {items : List Value} {r : Nat} (hresult : Result op (items.map (Value.meaning env)) r)
    (hitems : ∀ v ∈ items, v.IsWord) (hterm : ∃ v ∈ items, v.IsTerm) {d : Value}
    (hd : items.getLast? = some d) (hmodulus : items.length = 3 → d.IsTerm)
    (hnonzero : d.meaning env ≠ 0) (hknown : allHold env m.shared.solver.assertions = true)
    (hstack : m.path.stack = items ++ rest) : Undecided ctx (step ctx site instruction) m ∨
      ∃ v, Puts (step ctx site instruction) m v rest ∧ v.IsWord ∧ (v.meaning env).toNat = r := by
  have hlast : (items.map (Value.meaning env)).getLast? = some (d.meaning env) := by
    rw [List.getLast?_map, hd]
    rfl
  obtain ⟨w, hdivided, rfl⟩ := divided_of_result hresult hdivision hlast hnonzero
  refine (putsQuotient_step hsound hop hresult hdivided hitems hterm hd (fun _ => hmodulus)
    hstack).imp_right ?_
  rintro ⟨v, hput, hword, hdiffer, -⟩
  exact ⟨v, hput, hword, congrArg BitVec.toNat (hdiffer ⟨env, hknown, hnonzero⟩)⟩

theorem quotients_exact_addMod :
    ∃ v, Puts (step (exactly 0) { block := 0 } (.ofText "ADDMOD "))
      { path := { stack := [.var "a", .int (2 ^ 256 - 1), .var "n", .absent] } } v [.absent] ∧
      v.IsWord ∧
      (v.meaning fun x => if x = "n" then -2 else -1).toNat = 2 := by
  have hwords : [.var "a", .int (2 ^ 256 - 1), .var "n"].map
      (Value.meaning fun x => if x = "n" then -2 else -1) = [-1, -1, -2] := by decide +kernel
  have hresult : Result .addMod [-1, -1, -2] 2 := .addMod (-1) (-1) (-2)
  exact (@quotients_exact (exactly 0) _ .addMod _ [.absent] { block := 0 } (exact_exactly 0).toSound
    (.ofText "ADDMOD ") (by decide +kernel) (by decide) [.var "a", .int (2 ^ 256 - 1), .var "n"] 2
    (hwords ▸ hresult)
    (by decide) ⟨.var "a", by simp, _, rfl⟩ (.var "n") rfl (fun _ => ⟨_, rfl⟩) (by decide) rfl
    rfl).resolve_left
    (not_undecided (exact_exactly 0) _ _)

inductive ByZero : Operation → List Word → Word → Prop
  | div (a : Word) : ByZero .div [a, 0] Word.ones
  | mod (a : Word) : ByZero .mod [a, 0] a
  | addMod (a b : Word) : ByZero .addMod [a, b, 0] (a + b)
  | mulMod (a b : Word) : ByZero .mulMod [a, b, 0] (a * b)

theorem divided_of_byZero {words : List Word} (h : ByZero op words w) :
    Divided op words w ∧ Result op words 0 ∧ words.getLast? = some 0 := by
  have hzero : (0 : Word).toNat = 0 := rfl
  cases h with
  | div a => exact ⟨.div a 0, .div a 0, rfl⟩
  | mod =>
    refine ⟨?_, .mod w 0, rfl⟩
    have h : Divided .mod [w, 0] (w % 0#256) := .mod w 0
    rwa [BitVec.umod_zero] at h
  | addMod a b =>
    refine ⟨?_, .addMod a b 0, rfl⟩
    have h := Divided.addMod a b 0
    rwa [Word.addMod_eq, hzero, Nat.mod_zero, BitVec.ofNat_add, BitVec.ofNat_toNat,
      BitVec.ofNat_toNat, BitVec.setWidth_eq, BitVec.setWidth_eq] at h
  | mulMod a b =>
    refine ⟨?_, .mulMod a b 0, rfl⟩
    have h := Divided.mulMod a b 0
    rwa [Word.mulMod_eq, hzero, Nat.mod_zero, BitVec.ofNat_mul, BitVec.ofNat_toNat,
      BitVec.ofNat_toNat, BitVec.setWidth_eq, BitVec.setWidth_eq] at h

/-- Where the divisor is zero, a symbolic division puts zero only if the divisor is zero for
certain. Otherwise it puts what the division of words by zero gives, which depends on the operation.
If the solver gives up, it puts nothing. -/
theorem quotients_by_zero (hsound : ctx.Sound) {instruction : Instruction}
    (hop : instruction.operation = op) {items : List Value}
    (h : ByZero op (items.map (Value.meaning env)) w) (hitems : ∀ v ∈ items, v.IsWord)
    (hterm : ∃ v ∈ items, v.IsTerm) {d : Value} (hd : items.getLast? = some d)
    (hstack : m.path.stack = items ++ rest) : Undecided ctx (step ctx site instruction) m ∨
    ∃ v, Puts (step ctx site instruction) m v rest ∧ v.IsWord ∧
      (MayDiffer m.shared.solver.assertions d → v.meaning env = w) ∧
      (¬ MayDiffer m.shared.solver.assertions d → v.meaning env = 0) := by
  obtain ⟨hdivided, hresult, hlast⟩ := divided_of_byZero h
  have hzero : d.meaning env = 0 := by simpa [List.getLast?_map, hd] using hlast
  refine putsQuotient_step hsound hop hresult hdivided hitems hterm hd
    (fun ⟨env', _, hdiffer⟩ _ => ?_) hstack
  -- a number that is zero is zero under every assignment
  obtain ⟨w, rfl⟩ | hterm := (hitems d (List.mem_of_getLast? hd)).cases
  · exact absurd hzero hdiffer
  · exact hterm

/-- A remainder by a word that can be other than zero is the dividend when that word is zero. -/
theorem quotients_by_zero_mod :
    ∃ v, Puts (step (exactly 0) { block := 0 } (.ofText "MOD "))
      { path := { stack := [.var "a", .var "b"] } } v [] ∧ v.IsWord ∧
      v.meaning (fun x => if x = "a" then 5 else 0) = 5 := by
  have hwords : [.var "a", .var "b"].map (Value.meaning fun x => if x = "a" then 5 else 0) =
      [5, 0] := by decide
  obtain ⟨v, hput, hword, hdiffer, -⟩ :=
    (@quotients_by_zero (exactly 0) { path := { stack := [.var "a", .var "b"] } }
      .mod (fun x => if x = "a" then 5 else 0) [] 5 { block := 0 } (exact_exactly 0).toSound
    (.ofText "MOD ")
    (by decide +kernel) [.var "a", .var "b"] (hwords ▸ .mod 5) (by decide)
    ⟨.var "a", by simp, _, rfl⟩ (.var "b")
    rfl rfl).resolve_left (not_undecided (exact_exactly 0) _ _)
  exact ⟨v, hput, hword, hdiffer ⟨fun _ => 1, rfl, by decide⟩⟩

/-- A quotient by a word that can be other than zero is not zero when that word is. -/
theorem quotient_by_zero_ones :
    ∃ v, Puts (step (exactly 0) { block := 0 } (.ofText "DIV "))
      { path := { stack := [.var "a", .var "b"] } } v [] ∧ Result .div [0, 0] 0 ∧
      v.meaning (fun _ => 0) = Word.ones := by
  obtain ⟨hdivided, hresult, -⟩ := divided_of_byZero (.div 0)
  obtain ⟨v, hput, -, hdiffer, -⟩ :=
    (@putsQuotient_step (exactly 0) { path := { stack := [.var "a", .var "b"] } } .div
      (fun _ => 0) [] Word.ones { block := 0 } (exact_exactly 0).toSound [.var "a", .var "b"]
    (.var "b") 0 _
    (.ofText "DIV ") (by decide +kernel) hresult hdivided (by decide)
    ⟨.var "a", by simp, _, rfl⟩ rfl
    (fun _ _ => ⟨_, rfl⟩) rfl).resolve_left (not_undecided (exact_exactly 0) _ _)
  exact ⟨v, hput, hresult, hdiffer ⟨fun _ => 1, rfl, by decide⟩⟩

end Exec

end EvmAudit
