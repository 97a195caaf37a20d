import EvmAudit.Proofs.Machine.Results

/-! Sums and differences that wrap. Where the check is made, a wrap is noted exactly if the
assertions allow one. -/

namespace EvmAudit

def Operation.Wraps : Operation → Word → Word → Prop
  | .add, x, y => 2 ^ 256 ≤ x.toNat + y.toNat
  | .sub, x, y => x.toNat < y.toNat
  | _, _, _ => False

theorem Word.ult_add_iff (x y : Word) : (x + y).ult x = true ↔ 2 ^ 256 ≤ x.toNat + y.toNat := by
  have hx := x.isLt
  have hy := y.isLt
  rw [BitVec.ult_eq_decide, decide_eq_true_iff, BitVec.toNat_add]
  omega

namespace Arithmetic

open Value

variable {a b : Value}

theorem exists_word (ha : a.IsWord) (hb : b.IsWord) (hterm : a.IsTerm ∨ b.IsTerm) :
    (∃ t, sum a b = .ok (.word t)) ∧ ∃ t, difference a b = .ok (.word t) := by
  obtain ⟨x, rfl⟩ | ⟨s, rfl⟩ := ha.cases <;> obtain ⟨y, rfl⟩ | ⟨t, rfl⟩ := hb.cases
  · obtain ⟨t, ht⟩ | ⟨t, ht⟩ := hterm <;> cases ht
  all_goals exact ⟨⟨_, rfl⟩, _, rfl⟩

end Arithmetic

def Machine.wrapped (m : Machine) (pc : Int) : Operation → Machine
  | .add => { m with
      path := { m.path with overflowPcs := m.path.overflowPcs ++ [pc] }
      shared := { m.shared with problems := { m.shared.problems with
        overflows := m.shared.problems.overflows ++ [pc] } } }
  | .sub => { m with
      shared := { m.shared with problems := { m.shared.problems with
        underflows := m.shared.problems.underflows ++ [pc] } } }
  | _ => m

namespace Inquiry

variable {ctx : Context}

theorem asks_ugt {first second : Value} {x y : Assignment → Word}
    (hfirst : ∃ s, first = .word s ∧ ∀ env, s.eval env = x env)
    (hsecond : ∃ t, second = .word t ∧ ∀ env, t.eval env = y env) :
    Asks (Value.unsigned .ugt first second) fun env => (y env).ult (x env) = true := by
  obtain ⟨s, rfl, hs⟩ := hfirst
  obtain ⟨t, rfl, ht⟩ := hsecond
  refine ⟨_, rfl, fun env => ?_⟩
  change (t.eval env).ult (s.eval env) = true ↔ _
  rw [hs, ht]

end Inquiry

namespace Exec

variable {ctx : Context} {m m' : Machine} {op : Operation} {rest : List Value} {site : Site}
  {a b v : Value}
variable {instruction : Instruction} {P : Assignment → Prop} {question : Except Fault Formula}
  {note : Exec Unit}

theorem outcome_whether (hsound : ctx.Sound) (hquestion : Inquiry.Asks question P) (m : Machine) :
    ∃ s r, s.frames = m.shared.solver.frames ∧
      (inquire ctx (.whether question)).outcome m = (r, m.withSolver s) ∧
      (r = .ok true ∧ Allows m.shared.solver.assertions P ∨ r = .ok false ∧
        ¬ Allows m.shared.solver.assertions P ∨
        r = .error (.undecided "timeout") ∧ ∃ f, ctx.decide (m.shared.solver.assertions ++ [f]) =
          .unknown) := by
  obtain ⟨f, rfl, hf⟩ := hquestion
  have hallows : Satisfiable (m.shared.solver.assertions ++ [f]) ↔
      Allows m.shared.solver.assertions P :=
    exists_congr (Inquiry.adds_of_eval hf)
  obtain ⟨inner, s, hlength, hframes, houtcome⟩ := (Inquiry.whether (.ok f)).opens_inquire ctx m
  rw [Inquiry.whether, Inquiry.eval] at hlength houtcome
  obtain rfl : inner = [] :=
    List.length_eq_zero_iff.1
    (hlength.trans (by cases ctx.decide (m.shared.solver.assertions ++ [f]) <;> rfl))
  refine ⟨s, _, hframes, houtcome, ?_⟩
  cases hd : ctx.decide (m.shared.solver.assertions ++ [f]) with
  | sat values => exact .inl ⟨rfl, hallows.1 (hsound.sat hd)⟩
  | unsat => exact .inr (.inl ⟨rfl, mt hallows.2 (hsound.unsat hd)⟩)
  | unknown => exact .inr (.inr ⟨rfl, f, hd⟩)

theorem outcome_noteOverflow (m : Machine) :
    noteOverflow.outcome m = (.ok (), m.wrapped (m.path.world.pc - 1) .add) := rfl

theorem outcome_noteUnderflow (m : Machine) :
    noteUnderflow.outcome m = (.ok (), m.wrapped (m.path.world.pc - 1) .sub) := rfl

/-- The state after a sum or difference: the assertions are the same, and a wrap is noted exactly
under the condition. -/
def Wrote (m m' : Machine) (op : Operation) (noted : Prop) : Prop :=
  m'.shared.solver.assertions = m.shared.solver.assertions ∧
    (noted ∧ m'.shared.problems = (m.wrapped m.path.world.pc op).shared.problems ∧
        m'.path.overflowPcs = (m.wrapped m.path.world.pc op).path.overflowPcs ∨
      ¬ noted ∧ m'.shared.problems = m.shared.problems ∧ m'.path.overflowPcs = m.path.overflowPcs)

/-- A sum or difference has noted itself exactly under the condition, or the solver has given up on
its question and it has failed with nothing noted. -/
def Writes (ctx : Context) (m : Machine) (o : Except Fault Unit × Machine) (op : Operation)
    (noted : Prop) : Prop :=
  o.1 = .ok () ∧ Wrote m o.2 op noted ∨
    o.1 = .error (.undecided "timeout") ∧ Wrote m o.2 op False ∧
      ∃ f, ctx.decide (m.shared.solver.assertions ++ [f]) = .unknown

theorem outcome_noteWrap (hsound : ctx.Sound) (hquestion : Inquiry.Asks question P)
    (hnote : ∀ m, note.outcome m = (.ok (), m.wrapped (m.path.world.pc - 1) op)) (m : Machine)
    (v : Value) : ∃ s, s.frames = m.shared.solver.frames ∧
    ((noteWrap ctx true true (.whether question) note v).outcome m =
          (.ok v, (m.withSolver s).wrapped (m.path.world.pc - 1) op) ∧
          Allows m.shared.solver.assertions P ∨
        (noteWrap ctx true true (.whether question) note v).outcome m = (.ok v, m.withSolver s) ∧
          ¬ Allows m.shared.solver.assertions P ∨
        (noteWrap ctx true true (.whether question) note v).outcome m =
          (.error (.undecided "timeout"), m.withSolver s) ∧
          ∃ f, ctx.decide (m.shared.solver.assertions ++ [f]) = .unknown) := by
  obtain ⟨s, r, hframes, hinquire, hanswer⟩ := outcome_whether hsound hquestion m
  refine ⟨s, hframes, ?_⟩
  have hnoting : noteWrap ctx true true (.whether question) note v = (do
      if ← inquire ctx (.whether question) then note
      return v) := rfl
  rw [hnoting, outcome_bind, hinquire]
  obtain ⟨rfl, hallows⟩ | ⟨rfl, hnot⟩ | ⟨rfl, hgivesUp⟩ := hanswer
  · refine .inl ⟨?_, hallows⟩
    dsimp only
    rw [if_pos rfl, outcome_bind, hnote]
    rfl
  · exact .inr (.inl ⟨rfl, hnot⟩)
  · exact .inr (.inr ⟨rfl, hgivesUp⟩)

theorem outcome_wrapping {block : Int} {x : Except Fault Value} {known : Value → Bool}
    {question : Value → Except Fault Formula} (hx : x = .ok v)
    (hchecks : m.shared.graph.checksWrap block = .ok true) :
    (wrapping ctx block x known question note).outcome m =
      (noteWrap ctx true (known (ctx.simplify.value v)) (.whether (question (ctx.simplify.value v)))
        note (ctx.simplify.value v)).outcome m := by
  rw [wrapping, outcome_bind, outcome_ofExcept, hx]
  dsimp only
  rw [outcome_bind, outcome_checksWrap, hchecks]

theorem writes_wrapping (hsound : ctx.Sound) {block : Int} {x : Except Fault Value}
    {known : Value → Bool} {question : Value → Except Fault Formula} (hx : x = .ok v)
    (hknown : known (ctx.simplify.value v) = true)
    (hquestion : Inquiry.Asks (question (ctx.simplify.value v)) P)
    (hnote : ∀ m, note.outcome m = (.ok (), m.wrapped (m.path.world.pc - 1) op))
    (hop : op = .add ∨ op = .sub) (hchecks : m.shared.graph.checksWrap block = .ok true) :
    Writes ctx m ((do
      let v ← wrapping ctx block x known question note
      push (ctx.simplify.value v)).outcome (m.taken rest)) op
        (Allows m.shared.solver.assertions P) := by
  have hpc : (m.taken rest).path.world.pc - 1 = m.path.world.pc := Int.add_sub_cancel _ _
  rw [outcome_bind, outcome_wrapping (m := m.taken rest) hx hchecks, hknown]
  obtain ⟨s, hframes, hnoted⟩ := outcome_noteWrap hsound hquestion hnote (m.taken rest)
    (ctx.simplify.value v)
  have hsame : s.assertions = m.shared.solver.assertions := Solver.assertions_congr hframes
  rw [hpc] at hnoted
  rcases hnoted with ⟨ho, hallows⟩ | ⟨ho, hnot⟩ | ⟨ho, hgivesUp⟩ <;> rw [ho]
  · refine .inl ⟨rfl, ?_⟩
    rcases hop with rfl | rfl <;> exact ⟨hsame, .inl ⟨hallows, rfl, rfl⟩⟩
  · exact .inl ⟨rfl, hsame, .inr ⟨hnot, rfl, rfl⟩⟩
  · exact .inr ⟨rfl, ⟨hsame, .inr ⟨not_false, rfl, rfl⟩⟩, hgivesUp⟩

theorem writes_skipped {block : Int} {x : Except Fault Value} {known : Value → Bool}
    {question : Value → Except Fault Formula} (hx : x = .ok v)
    (hknown : known (ctx.simplify.value v) = false)
    (hchecks : m.shared.graph.checksWrap block = .ok true) : Writes ctx m ((do
      let v ← wrapping ctx block x known question note
      push (ctx.simplify.value v)).outcome (m.taken rest)) op False := by
  rw [outcome_bind, outcome_wrapping (m := m.taken rest) hx hchecks, hknown]
  exact .inl ⟨rfl, rfl, .inr ⟨not_false, rfl, rfl⟩⟩

theorem exists_lift (h : v.IsWord) : ∃ t, v.lift = .word t ∧ ∀ env, t.eval env = v.meaning env := by
  obtain ⟨w, rfl⟩ | ⟨t, rfl⟩ := h.cases <;> exact ⟨_, rfl, fun env => rfl⟩

theorem exists_firstOfSum (ha : a.IsWord) (hterm : a.IsTerm ∨ b.IsTerm) :
    ∃ s, firstOfSum a b = .word s ∧ ∀ env, s.eval env = a.meaning env := by
  obtain ⟨w, rfl⟩ | ⟨s, rfl⟩ := ha.cases
  · obtain ⟨s, hs⟩ | ⟨t, rfl⟩ := hterm
    · cases hs
    · exact exists_lift ha
  · exact ⟨s, rfl, fun env => rfl⟩

theorem writes_words (hsound : ctx.Sound) (hop : op = .add ∨ op = .sub)
    (hchecks : m.shared.graph.checksWrap site.block = .ok true) (ha : a.IsWord) (hb : b.IsWord)
    (hterm : a.IsTerm ∨ b.IsTerm) (hstack : m.path.stack = a :: b :: rest) (name : String) :
    Writes ctx m ((perform ctx site name op).outcome m) op
      (Allows m.shared.solver.assertions fun env => op.Wraps (a.meaning env) (b.meaning env)) := by
  obtain ⟨⟨t, hsum⟩, t', hdifference⟩ := Arithmetic.exists_word ha hb hterm
  rcases hop with rfl | rfl
  · have ht (env : Assignment) :=
      Value.stands_sum (ha.stands_meaning env) (hb.stands_meaning env) _ hsum
    have hasks := Inquiry.asks_ugt (exists_firstOfSum ha hterm)
      ⟨ctx.simplify.term t, rfl, fun env => (hsound.simplify.eval env t).trans (ht env)⟩
    simp only [Word.ult_add_iff] at hasks
    rw [perform, add_eq, outcome_binary ctx _ hstack]
    exact writes_wrapping hsound hsum rfl hasks outcome_noteOverflow (.inl rfl) hchecks
  · obtain ⟨hfirst, hsecond⟩ : (∃ s, liftBeside a b = .word s ∧ ∀ env, s.eval env = a.meaning env) ∧
        ∃ s, (if a.isConcrete != b.isConcrete then b.lift else b) = .word s ∧
        ∀ env, s.eval env = b.meaning env := by
      obtain ⟨x, rfl⟩ | ⟨s, rfl⟩ := ha.cases <;> obtain ⟨y, rfl⟩ | ⟨t, rfl⟩ := hb.cases
      · obtain ⟨t, ht⟩ | ⟨t, ht⟩ := hterm <;> cases ht
      all_goals exact ⟨⟨_, rfl, fun env => rfl⟩, _, rfl, fun env => rfl⟩
    have hasks := Inquiry.asks_ugt hsecond hfirst
    simp only [BitVec.ult_eq_decide, decide_eq_true_iff] at hasks
    rw [perform, sub_eq, outcome_binary ctx _ hstack]
    refine writes_wrapping hsound hdifference ?_ hasks outcome_noteUnderflow (.inr rfl) hchecks
    obtain ⟨s, hs, -⟩ := hfirst
    rw [hs]
    rfl

theorem writes_numbers (hop : op = .add ∨ op = .sub) (ha : a.isConcrete = true)
    (hb : b.isConcrete = true) (hchecks : m.shared.graph.checksWrap site.block = .ok true)
    (hstack : m.path.stack = a :: b :: rest) (name : String) :
    Writes ctx m ((perform ctx site name op).outcome m) op False := by
  obtain ⟨x, hx⟩ := Option.isSome_iff_exists.1 ha
  obtain ⟨y, hy⟩ := Option.isSome_iff_exists.1 hb
  have hfirst : firstOfSum a b = a := by
    rw [firstOfSum, Value.isSymbolic, hb, Bool.not_true, Bool.and_false]
    rfl
  have hbeside {v : Value} : (if a.isConcrete != b.isConcrete then v.lift else v) = v := by
    rw [ha, hb]
    rfl
  rcases hop with rfl | rfl
  · obtain ⟨n, hsum⟩ : ∃ n : Int, Arithmetic.sum a b = .ok (.int n) := by
      cases a <;> cases hx <;> cases b <;> cases hy <;> exact ⟨_, rfl⟩
    rw [perform, add_eq, outcome_binary ctx _ hstack]
    refine writes_skipped hsum ?_ hchecks
    rw [hfirst, Value.isSymbolic, Value.isSymbolic, ha]
    rfl
  · obtain ⟨n, hdifference⟩ : ∃ n : Int, Arithmetic.difference a b = .ok (.int n) := by
      cases a <;> cases hx <;> cases b <;> cases hy <;> exact ⟨_, rfl⟩
    rw [perform, sub_eq, outcome_binary ctx _ hstack]
    refine writes_skipped hdifference ?_ hchecks
    rw [liftBeside, hbeside, hbeside, Value.isSymbolic, Value.isSymbolic, ha, hb]
    rfl

theorem checksWrap_of_ne {block : Int} {ending : Ending}
    (hending : m.shared.graph.endings.get? block = some ending) (hplain : ending ≠ .conditional) :
    m.shared.graph.checksWrap block = .ok true := by
  rw [Graph.checksWrap, hending]
  cases ending <;> first | rfl | exact absurd rfl hplain

theorem Wrote.of_alike {noted noted' : Prop} {m₁ : Machine}
    (halike : m.AlikeBut [.visitedPcs, .fees] m₁) (h : Wrote m₁ m' op noted)
    (hnoted : noted ↔ noted') (hop : op = .add ∨ op = .sub) : Wrote m m' op noted' := by
  have hpc := halike.pc
  have hproblems : m₁.shared.problems = m.shared.problems := halike .problems (by decide)
  have hpcs : m₁.path.overflowPcs = m.path.overflowPcs := halike .overflowPcs (by decide)
  rw [Wrote, halike.solver, hnoted] at h
  rcases hop with rfl | rfl <;> simpa only [Wrote, Machine.wrapped, hpc, hproblems, hpcs] using h

theorem Writes.of_alike {noted noted' : Prop} {m₁ : Machine} {o : Except Fault Unit × Machine}
    (halike : m.AlikeBut [.visitedPcs, .fees] m₁) (h : Writes ctx m₁ o op noted)
    (hnoted : noted ↔ noted') (hop : op = .add ∨ op = .sub) : Writes ctx m o op noted' := by
  obtain ⟨ho, hwrote⟩ | ⟨ho, hwrote, hgivesUp⟩ := h
  · exact .inl ⟨ho, hwrote.of_alike halike hnoted hop⟩
  · rw [halike.solver] at hgivesUp
    exact .inr ⟨ho, hwrote.of_alike halike Iff.rfl hop, hgivesUp⟩

/-- In a block without a conditional jump a sum or difference leaves the assertions as they are, and
notes itself exactly if one of its operands is symbolic and the assertions allow that it wraps,
unless the solver gives up. -/
theorem wrap_noted_iff (hsound : ctx.Sound) (hop : instruction.operation = op)
    (hwraps : op = .add ∨ op = .sub) {ending : Ending}
    (hending : m.shared.graph.endings.get? site.block = some ending)
    (hplain : ending ≠ .conditional) (hstack : m.path.stack = a :: b :: rest)
    (hoperands : a.IsWord ∧ b.IsWord ∨ a.isConcrete = true ∧ b.isConcrete = true) :
    Writes ctx m ((step ctx site instruction).outcome m) op ((a.IsTerm ∨ b.IsTerm) ∧
      Allows m.shared.solver.assertions fun env => op.Wraps (a.meaning env) (b.meaning env)) := by
  subst hop
  obtain ⟨hfee, hfree, hmove, hcall⟩ :
      (∀ m, (Gas.dynamic ctx instruction.operation).outcome m = (.ok 0, m)) ∧
      isFree instruction.operation = false ∧ noteMove ctx instruction.operation = pure () ∧
      instruction.operation ≠ .call := by
    rcases hwraps with h | h <;> rw [h] <;> exact ⟨fun _ => rfl, rfl, rfl, by decide⟩
  obtain ⟨m₁, hstep, halike⟩ := step_of_plain (fun m => ⟨0, hfee m⟩) hfree hmove hcall site m
  have hgraph : m₁.shared.graph = m.shared.graph := halike .graph (by decide)
  have hsolver : m₁.shared.solver = m.shared.solver := halike .solver (by decide)
  have hstack₁ := (halike .stack (by decide)).trans hstack
  have hchecks : m₁.shared.graph.checksWrap site.block = .ok true := by
    rw [hgraph]
    exact checksWrap_of_ne hending hplain
  rw [hstep]
  by_cases hterm : a.IsTerm ∨ b.IsTerm
  · obtain ⟨ha, hb⟩ : a.IsWord ∧ b.IsWord := by
      refine hoperands.resolve_right fun ⟨ha, hb⟩ => ?_
      obtain ⟨t, rfl⟩ | ⟨t, rfl⟩ := hterm
      · cases ha
      · cases hb
    refine (writes_words hsound hwraps hchecks ha hb hterm hstack₁ instruction.name).of_alike halike
      ?_ hwraps
    rw [hsolver]
    exact (and_iff_right hterm).symm
  · obtain ⟨ha, hb⟩ : a.isConcrete = true ∧ b.isConcrete = true := by
      refine hoperands.elim (fun ⟨ha, hb⟩ => ?_) id
      obtain ⟨x, rfl⟩ | ⟨s, rfl⟩ := ha.cases <;> obtain ⟨y, rfl⟩ | ⟨t, rfl⟩ := hb.cases
      · exact ⟨rfl, rfl⟩
      all_goals exact absurd (by simp [Value.IsTerm]) hterm
    exact (writes_numbers hwraps ha hb hchecks hstack₁ instruction.name).of_alike halike
      (iff_of_false not_false fun h => hterm h.1) hwraps

theorem wrap_noted_iff_successor :
    ∃ m', (step (exactly 0) { block := 0 } (.ofText "ADD ")).outcome
        { path := { stack := [.var "a", .int 1], world := { pc := 3 } }
          shared := { graph := { endings := ⟨[(0, .terminal)]⟩ } } } = (.ok (), m') ∧
      m'.shared.problems.overflows = [3] ∧ m'.path.overflowPcs = [3] := by
  obtain ⟨hstep, -, hnoted⟩ := (@wrap_noted_iff (exactly 0)
    { path := { stack := [.var "a", .int 1], world := { pc := 3 } }
      shared := { graph := { endings := ⟨[(0, .terminal)]⟩ } } }
    .add [] { block := 0 } (.var "a") (.int 1) (.ofText "ADD ") (exact_exactly 0).toSound
    (by decide +kernel)
    (.inl rfl) .terminal rfl (by decide) rfl (.inl ⟨trivial, by decide⟩)).resolve_right
    fun ⟨_, _, _, h⟩ => (exact_exactly 0).decided _ h
  have hwraps : 2 ^ 256 ≤ (-1 : Word).toNat + (1 : Word).toNat := by decide
  obtain ⟨-, hproblems, hpcs⟩ :=
    hnoted.resolve_right fun h => h.1 ⟨.inl ⟨_, rfl⟩, fun _ => -1, rfl, hwraps⟩
  exact ⟨_, Prod.ext hstep rfl, congrArg Problems.overflows hproblems, hpcs⟩

end Exec

end EvmAudit
