import EvmAudit.Proofs.Machine.Primitives

/-! Each instruction changes the parts that it may, and keeps a state of its kind. What that takes
of the kind is said once. -/

namespace EvmAudit

namespace Kind

variable {K : Kind}

/-- The number of memory words can be compared with a size, and the larger of them be kept. -/
def Room (K : Kind) (k : Nat) (current size : Value) : Prop :=
  K.size k current ∧
  Gives (fun exceeds => (Exec.largerSize current size exceeds).Gives (K.size k)) (current.lt size)

theorem room_of_forall {k : Nat} {current size : Value} (h : ∀ v, K.size k v) :
    K.Room k current size :=
  ⟨h current, fun _ _ => Inquiry.gives_of_forall h _⟩

/-- A kind that says nothing of formulas, conditions and the solver. -/
class Loose (K : Kind) : Prop where
  formula (k : Nat) (f : Formula) : K.formula k f
  change (m m' : Machine) : K.change m m'

instance [Loose K] : Lawful K := ⟨fun _ _ => Loose.change _ _, fun _ _ => Loose.change _ _⟩

instance : Loose any := ⟨fun _ _ => trivial, fun _ _ => trivial⟩

/-- The kind of the states with items of one sort and a number of memory words of another. The
conditions of the path are no such item. -/
abbrev ofItems (W S : Value → Prop) : Kind where
  item _ := W
  size _ := S
  held _ _ := True
  name _ name := name ≠ Names.conditions
  formula _ _ := True
  change _ _ := True

variable {W S : Value → Prop}

instance : Loose (ofItems W S) := ⟨fun _ _ => trivial, fun _ _ => trivial⟩

end Kind

namespace Exec

/-- What the instructions make of items of the kind are such items. The number of memory words grows
among such numbers, and what is paid is added to balances and taken from them. -/
structure Closed (ctx : Context) (K : Kind) : Prop where
  truth (k : Nat) (b : Bool) : K.item k (.int (if b then 1 else 0))
  simplified {k : Nat} {v : Value} : K.item k v → K.item k (ctx.simplify.value v)
  sum {k : Nat} {a b : Value} : K.item k a → K.item k b → Gives (K.item k) (Arithmetic.sum a b)
  difference {k : Nat} {a b : Value} : K.item k a → K.item k b →
    Gives (K.item k) (Arithmetic.difference a b)
  product {k : Nat} {a b : Value} : K.item k a → K.item k b →
    Gives (K.item k) (Arithmetic.product a b)
  remainder {k : Nat} {a b : Value} {m n : Int} : K.item k a → K.item k b → both a b = some (m, n) →
    Gives (K.item k) (Arithmetic.remainder m n)
  remainders {k : Nat} {a b : Value} : K.item k a → K.item k b → both a b = none →
    (Inquiry.remainder a.lift b.lift).Gives (K.item k)
  extension {k : Nat} {a b : Value} {m n : Int} : K.item k a → K.item k b → both a b = some (m, n) →
    K.item k (Arithmetic.signExtension m n)
  extensions {k : Nat} {a b : Value} : K.item k a → K.item k b → both a b = none →
    (Inquiry.signExtension a.lift b.lift).Gives (K.item k)
  reduced {k : Nat} {v : Value} {n : Int} (i : Int) : K.item k v → v.toInt? = some n →
    K.item k (.int (if n = 0 then 0 else i.fmod n))
  modular {k : Nat} {a b m : Value} {onTerms : Term → Term → Term → Term} :
    onTerms = .addMod ∨ onTerms = .mulMod → K.item k a → K.item k b → K.item k m →
    (Inquiry.modular onTerms a b m).Gives (K.item k)
  power (k : Nat) (m n : Int) : Gives (fun i => K.item k (.int i)) (wordPower m n)
  comparison {k : Nat} {a b : Value} {f : Value → Value → Except Fault Condition} :
    f ∈ [unsignedOrder .ult, unsignedOrder .ugt, Value.lt, Value.gt, Value.eq] →
    K.item k a → K.item k b → Gives (fun c => K.item k (oneOrZero c)) (f a b)
  isZero {k : Nat} {v : Value} : K.item k v →
    Gives (fun c => K.item k (oneOrZero c)) (v.eq (.int 0))
  bits {k : Nat} {a b : Value} {f : Value → Value → Except Fault Value} :
    f ∈ [Value.bitAnd, Value.bitOr, Value.bitXor] → K.item k a → K.item k b →
    Gives (K.item k) (f a b)
  not {k : Nat} {v : Value} : K.item k v →
    Gives (K.item k) (do (← v.bitNot).bitAnd (.int (Word.count - 1)))
  byte {k : Nat} {a b index : Value} : K.item k a → K.item k b →
    (do (← (Value.int 32).sub a).sub (.int 1)) = .ok index →
    (both a b ≠ none → Gives (K.item k) (do byteOf b (← (Value.int 8).mul index))) ∧
      Gives (K.item k) (do byteOf b.lift (← (Value.int 8).mul index))
  lowByte {k : Nat} {v : Value} : K.item k v → Gives (K.item k) (v.mod (.int 256))
  grown {k : Nat} {v : Value} {n : Int} (limit : Int) : K.size k v → v.toInt? = some n →
    Gives (K.size k) (growTo n limit)
  after {k : Nat} {v a b : Value} : K.size k v → K.item k a → (K.item k b ∨ b = .int 31) →
    Gives (K.Room k v.lift) (do wordsUpTo (← a.add b))
  upTo {k : Nat} {v a : Value} : K.size k v → K.item k a → Gives (K.Room k v.lift) (wordsUpTo a)
  stored {k : Nat} {v a : Value} : K.size k v → K.item k a → both a v = none →
    Gives (K.Room k v) (do wordsUpTo (← a.add (.int 31)))
  var {k : Nat} {name : String} : K.name k name → K.item k (.var name)
  named {k : Nat} {name : String} {c : Char} : name.toList.head? = some c → c ≠ 's' → c ≠ 'p' →
    K.name k name
  arbitrary {i k : Nat} : i < k → K.name k ("some_var_" ++ toString i)
  listed {k : Nat} (cs : List Condition) : K.name k Names.conditions → K.item k (.conditions cs)
  parameter {k : Nat} {map : SourceMap} {function : String} {params : List Parameter}
    {p : Parameter} :
    ctx.source = some map → map.parameters.get? function = some params → p ∈ params →
    K.name k p.name
  reply (k : Nat) : on ctx.settings.useGlobalBlockchain = true →
    (∀ d, K.item k (Value.ofDocument d)) ∧ ∀ x, K.item k (.double x)
  storedReply (k : Nat) (n : Int) : on ctx.settings.useGlobalStorage = true → K.item k (.int n)
  branch {k : Nat} {flag : Value} : K.item k flag →
    Gives (fun v => ∀ c, v.asCondition = .ok c → K.formula k c.formula) (branchOf flag)
  held {k : Nat} {v : Value} : K.item k v → K.held k v
  credit {k : Nat} {a b : Value} : K.held k a → K.held k b → Gives (K.held k) (a.add b) ∧
    Gives (K.held k) (a.sub b)
  affords {k : Nat} {a b : Value} : K.held k a → K.held k b →
    Gives (fun c => K.formula k c.formula) (a.le b)

/-- The kind is also kept by the instructions that put any number, and by those that divide with a
sign. -/
structure Whole (K : Kind) : Prop where
  int (k : Nat) (n : Int) : K.item k (.int n)
  double (k : Nat) (x : Double) : K.item k (.double x)
  lift {k : Nat} {v : Value} : K.item k v → K.item k v.lift
  quotient (k : Nat) (m n : Int) : Gives (K.item k) (Arithmetic.quotient m n)
  quotients {k : Nat} {a b : Value} : K.item k a → K.item k b →
    (Inquiry.quotient a b).Gives (K.item k)
  signedQuotient (k : Nat) (m n : Int) : Gives (K.item k) (Arithmetic.signedQuotient m n)
  signedQuotients {k : Nat} {a b : Value} : K.item k a → K.item k b →
    (Inquiry.signedQuotient a b).Gives (K.item k)
  signedRemainder (k : Nat) (m n : Int) : Gives (K.item k) (Arithmetic.signedRemainder m n)
  signedRemainders {k : Nat} {a b : Value} : K.item k a → K.item k b →
    (Inquiry.signedRemainder a b).Gives (K.item k)
  area {k : Nat} {v : Value} : K.size k v → Gives (K.item k) ((Value.int 32).mul v)

variable {α : Type} {ctx : Context} {ps : List Part} {R : Machine → Machine → Prop} [Permits R ps]
variable {K : Kind} [K.Lawful] {C : Nat → Prop} {Q : Nat → α → Prop} {x : Exec α} {v amount : Value}
  {name : String}

theorem Holds.items {W S : Value → Prop} (hx : Holds R (.ofItems W S) C x Q) {m m' : Machine}
    {a : α} (hp : m.path.Items W S) (ho : x.outcome m = (.ok a, m')) (hC : ∀ k, C k) :
    m'.path.Items W S :=
  have hfits : m.Fits (.ofItems W S) (m'.shared.names.other + 1) :=
    ⟨⟨hp, fun _ _ _ => trivial⟩, fun _ _ _ _ _ _ _ => trivial, fun _ _ => trivial⟩
  ((hx.2 m a m' ho).clear _ (Nat.lt_succ_self _) (hC _) hfits).1.path.items

omit [K.Lawful] in
theorem holds_loose [K.Loose] (hR : Within R x)
    (h : Touches [.conditions, .solver, .pc, .analysis] x) : Holds R K C x Done := by
  refine ⟨hR, fun m a m' ho => ?_⟩
  have halike := h.alike ho
  refine ⟨halike.names ▸ Nat.le_refl _, fun k _ _ hm => ⟨⟨⟨?_, ?_⟩, ?_, ?_⟩, trivial⟩,
    fun _ => Kind.Loose.change _ _⟩
  · exact hm.path.items.of_alike halike (by decide)
  · exact halike.balance ▸ hm.path.balance
  · exact halike.graph ▸ hm.graph
  · exact fun f _ => Kind.Loose.formula k f

/-! ### What needs nothing of the kind -/

theorem holds_pushPart {f : Path → Value} [Permits R [.stack, .pc]]
    (hf : ∀ k p, p.Fits K k → K.item k (f p)) : Holds R K C (pushPart f) Done :=
  (holds_advance 1).bind fun _ => holds_getPath.bind fun p => holds_push fun k h => hf k p h.2

theorem holds_address [Permits R [.stack, .pc]] : Holds R K C address Done := by
  refine (holds_advance 1).bind fun _ => holds_getPath.bind fun path => ?_
  split
  next hv =>
    exact holds_push fun k h => h.2.items.vars _ _ hv
  · exact holds_throw _

theorem gives_itemAt {P : Value → Prop} {xs : List Value} (h : ∀ v ∈ xs, P v) (i : Int) :
    Gives P (itemAt xs i) := by
  unfold itemAt
  generalize (if i < 0 then i + (xs.length : Int) else i) = j
  dsimp only
  split
  next v hv =>
    by_cases hj : j < 0
    · rw [if_pos hj] at hv
      cases hv
    · rw [if_neg hj] at hv
      exact gives_ok (h v (List.mem_of_getElem? hv))
  · exact gives_error _

theorem holds_number (n : Option Int) [Journey R] : Holds R K C (number n) Done :=
  holds_quiet (touches_number n) (touches_number n)

theorem holds_dup (depth : Option Int) [Permits R [.stack, .pc]] :
    Holds R K C (dup depth) Done := by
  refine (holds_advance 1).bind fun _ => (holds_number depth).bind fun n =>
    holds_getPath.bind fun path => holds_ite (fun _ => holds_throw _) fun _ => ?_
  refine (holds_ofExcept fun k h => gives_itemAt h.2.items.stack _).bind fun v => ?_
  exact holds_push fun k h => h.2

theorem forall_mem_setItem {P : Value → Prop} {xs : List Value} (h : ∀ v ∈ xs, P v) (i : Int)
    (hv : P v) : ∀ w ∈ setItem xs i v, P w := by
  intro w hw
  rcases List.mem_or_eq_of_mem_set hw with hw | rfl
  · exact h w hw
  · exact hv

theorem holds_swap (depth : Option Int) [Permits R [.stack, .pc]] :
    Holds R K C (swap depth) Done := by
  refine (holds_advance 1).bind fun _ => (holds_number depth).bind fun n =>
    holds_getPath.bind fun path => holds_ite (fun _ => holds_throw _) fun _ => ?_
  refine (holds_ofExcept fun k h => gives_itemAt h.2.items.stack _).bind fun deep => ?_
  refine (holds_ofExcept fun k h => gives_itemAt h.1.2.items.stack _).bind fun top => ?_
  exact holds_setStack fun k p h hp =>
    forall_mem_setItem (forall_mem_setItem hp.items.stack _ h.2) _ h.1.2

theorem holds_sstore [Permits R [.stack, .pc, .affected, .storage]] :
    Holds R K C (sstore ctx) Done := by
  refine (holds_need 2).bind fun _ => holds_getPath.bind fun path => Holds.bind (Q := Done)
    (holds_quiet (touches_step .affected fun _ => ⟨_, trivial, rfl⟩)
      (touches_step .affected fun _ => ⟨_, trivial, rfl⟩))
    fun _ => (holds_advance 1).bind fun _ => holds_pop.bind fun position =>
    holds_pop.bind fun v => ?_
  exact holds_setStorage _ fun k h => h.2

theorem holds_revert [Permits R [.stack, .pc, .revertible]] : Holds R K C revert Done :=
  (holds_need 2).bind fun _ => holds_getPath.bind fun _ => Holds.bind (Q := Done)
    (holds_quiet (touches_step .revertible fun _ => ⟨_, trivial, rfl⟩)
      (touches_step .revertible fun _ => ⟨_, trivial, rfl⟩))
    fun _ => (holds_advance 1).bind fun _ => holds_drop 2

theorem holds_jump (block : Int) [Permits R [.stack, .graph]] : Holds R K C (jump ctx block) Done :=
  (holds_need 1).bind fun _ => holds_pop.bind fun v =>
    (holds_quiet (touches_targetOf v) (touches_targetOf v)).bind fun target =>
    (holds_setTarget block v target).bind fun _ => holds_addEdge block target

theorem holds_verdict [Among .solver ps] : Holds R K C (verdict ctx) Done := by
  refine ⟨touches_verdict, ?_⟩
  rintro m _ _ ⟨⟩
  exact .of_quiet rfl rfl rfl fun k _ hm => ⟨hm.path, hm.graph, trivial⟩

theorem holds_assertFail (caller : Int) [Among .solver ps] [Among .problems ps] :
    Holds R K C (assertFail ctx caller) Done := by
  have hnote (at_ : Int) {D : Nat → Prop} :
      Holds R K D (modifyProblems fun p => { p with assertions := p.assertions ++ [at_] }) Done :=
    holds_quiet (touches_step .problems fun _ => ⟨_, ⟨_, _, _, rfl⟩, rfl⟩)
      (touches_step .problems fun _ => ⟨_, ⟨_, _, _, rfl⟩, rfl⟩)
  have hreport (feasible : Bool) (at_ : Int) {D : Nat → Prop} : Holds R K D (do
      if !feasible then throw .unsetResult
      modifyProblems fun p => { p with assertions := p.assertions ++ [at_] }) Done :=
    holds_ite (fun _ => (holds_throw (Q := Done) _).bind fun _ => hnote at_) fun _ => hnote at_
  unfold assertFail
  split
  · exact holds_pure fun _ _ => trivial
  · refine holds_pc.bind fun n => (holds_value _).bind fun code => holds_verdict.bind fun v => ?_
    have hreports (feasible : Bool) (name : String) {D : Nat → Prop} : Holds R K D (do
        let report (at_ : Int) : Exec Unit := do
          if !feasible then throw .unsetResult
          modifyProblems fun p => { p with assertions := p.assertions ++ [at_] }
        if name = "assert" then report (← pc)
        else if caller ≠ -1 then report caller) Done :=
      holds_ite (fun _ => holds_pc.bind fun at_ => hreport _ at_) fun _ =>
        holds_ite (fun _ => hreport _ caller) fun _ => holds_pure fun _ _ => trivial
    cases v with
    | unsat =>
      exact (holds_pure (Q := Done) (a := false) fun _ _ => trivial).bind fun _ => hreports _ _
    | sat values =>
      exact (holds_pure (Q := Done) (a := true) fun _ _ => trivial).bind fun _ => hreports _ _
    | unknown => exact (holds_throw (Q := Done) _).bind fun _ => hreports _ _

theorem holds_growSymbolic {current size : Value} [Among .solver ps] [Asks R]
    (h : ∀ k, C k → K.Room k current size) :
    Holds R K C (growSymbolic ctx current size) K.size := by
  refine (holds_ofExcept fun k hC => (h k hC).2).bind fun exceeds => ?_
  refine holds_ite (fun _ => holds_inquire fun k hC => hC.2) fun _ => ?_
  have hscope {D : Nat → Prop} : Holds R K D (do pushScope; assertThat exceeds; popScope) Done := by
    refine ⟨touches_pushScope.bind fun _ => (touches_assertThat _).bind fun _ => touches_popScope,
      ?_⟩
    rintro m _ _ ⟨⟩
    exact .of_quiet rfl rfl rfl fun k _ hm => ⟨hm.path, hm.graph, trivial⟩
  exact hscope.bind fun _ => holds_pure fun k hC => (h k hC.1.1).1

theorem holds_overwrite (key : Key) {active : Value} [Among .words ps] [Among .activeWords ps]
    (hv : ∀ k, C k → K.item k v) (ha : ∀ k, C k → K.size k active) :
    Holds R K C (do clearWords; setWord key v; setActive active) Done :=
  holds_clearWords.bind fun _ => (holds_setWord key fun k h => hv k h.1).bind fun _ =>
    holds_setActive fun k h => ha k h.1.1

theorem get?_of_knownWord {path : Path} {address v : Value} {a n : Int}
    (h : knownWord? path address = some (a, n, v)) : path.words.get? (.at a) = some v ∧
    path.world.activeWords.toInt? = some n := by
  unfold knownWord? at h
  split at h
  next hn =>
    obtain ⟨w, hw, he⟩ := Option.map_eq_some_iff.1 h
    cases he
    exact ⟨hw, hn⟩
  · cases h

theorem both_of_forall {a b : Value} (h : ∀ m n, a.toInt? = some m → b.toInt? = some n → False) :
    both a b = none := by
  unfold both
  split
  · exact (h _ _ ‹_› ‹_›).elim
  · rfl

/-! ### Names -/

section Closed

variable (hK : Closed ctx K)
include hK

theorem holds_freshOther {stem : String} {c : Char} (h : stem.toList.head? = some c) (hs : c ≠ 's')
    (hp : c ≠ 'p') [Among .names ps] : Holds R K C (fresh (Names.freshOther stem)) K.name :=
  holds_fresh fun k g _ => hK.named (c := c) (by
    rw [Names.freshOther, String.toList_append, List.head?_append, h]
    rfl) hs hp

theorem holds_freshArbitrary [Among .names ps] : Holds R K C (fresh Names.freshArbitrary) K.name :=
  holds_fresh fun _ _ h => hK.arbitrary h

theorem holds_freshData [Among .names ps] : Holds R K C (fresh Names.freshData) K.name :=
  holds_fresh fun k g _ => hK.named (c := 'I') (by simp [Names.freshData]) (by decide) (by decide)

theorem holds_pushArbitrary [Among .names ps] [Among .stack ps] :
    Holds R K C (fresh Names.freshArbitrary >>= fun name => push (.var name)) Done :=
  (holds_freshArbitrary hK).bind fun _ => holds_push fun _ h => hK.var h.2

theorem holds_pushNamed {c : Char} (h : name.toList.head? = some c) (hs : c ≠ 's') (hp : c ≠ 'p')
    [Among .vars ps] [Among .stack ps] : Holds R K C (do push (← wordNamed name)) Done :=
  (holds_wordNamed fun _ _ => hK.var (hK.named h hs hp)).bind fun _ => holds_push fun _ h => h.2

theorem holds_pushNormal {x : Exec Value} [Among .stack ps] (hx : Holds R K C x K.item) :
    Holds R K C (do let v ← x; push (ctx.simplify.value v)) Done :=
  hx.bind fun _ => holds_push fun _ h => hK.simplified h.2

/-! ### Arithmetic -/

theorem holds_binary {f : Value → Value → Exec Value} [Among .stack ps] [Among .pc ps]
    (hf : ∀ a b, Holds R K (fun k => K.item k a ∧ K.item k b) (f a b) K.item) :
    Holds R K C (binary ctx f) Done :=
  holds_begin 2 (holds_pop.bind fun a => holds_pop.bind fun b =>
    holds_pushNormal hK ((hf a b).of fun _ h => ⟨h.1.2, h.2⟩))

theorem holds_unary {f : Value → Exec Value} [Among .stack ps] [Among .pc ps]
    (hf : ∀ a, Holds R K (K.item · a) (f a) K.item) : Holds R K C (unary ctx f) Done :=
  holds_begin 1 (holds_pop.bind fun a => holds_pushNormal hK ((hf a).of fun _ h => h.2))

theorem holds_wrapping {block : Int} {x : Except Fault Value} {known : Value → Bool}
    {question : Value → Except Fault Formula} {note : Exec Unit} [Journey R] [Asks R]
    (hnote : Within R note) (hquiet : Touches nameless note) (hx : ∀ k, C k → Gives (K.item k) x) :
    Holds R K C (wrapping ctx block x known question note) K.item := by
  refine (holds_ofExcept hx).bind fun v =>
    (holds_quiet (touches_checksWrap block) (touches_checksWrap block)).bind fun w => ?_
  have hv {D : Nat → Prop} (hD : ∀ k, D k → K.item k v) :
      Holds R K D (pure (ctx.simplify.value v)) K.item :=
    holds_pure fun k hd => hK.simplified (hD k hd)
  refine holds_ite (fun _ => holds_ite (fun _ => ?_) fun _ => hv fun _ h => h.1.2) fun _ =>
    hv fun _ h => h.1.2
  refine (holds_inquire (Q := Done) fun _ _ => Inquiry.gives_of_forall (fun _ => trivial) _).bind
    fun w => ?_
  exact holds_ite (fun _ => (holds_quiet hnote hquiet).bind fun _ => hv fun _ h => h.1.1.1.2)
    fun _ => hv fun _ h => h.1.1.2

theorem holds_add (block : Int) [Permits R [.stack, .pc, .solver, .problems, .overflowPcs]]
    [Asks R] : Holds R K C (add ctx block) Done := by
  rw [add_eq]
  exact holds_binary hK fun a b => holds_wrapping hK touches_noteOverflow touches_noteOverflow
    fun k h => hK.sum h.1 h.2

theorem holds_sub (block : Int) [Permits R [.stack, .pc, .solver, .problems]] [Asks R] :
    Holds R K C (sub ctx block) Done := by
  rw [sub_eq]
  exact holds_binary hK fun a b => holds_wrapping hK touches_noteUnderflow touches_noteUnderflow
    fun k h => hK.difference h.1 h.2

theorem holds_settle {onInts : Int → Int → Except Fault Value}
    {onSymbols : Value → Value → Inquiry Value} [Permits R [.stack, .pc, .solver]] [Asks R]
    (hints : ∀ {k a b m n}, K.item k a → K.item k b → both a b = some (m, n) →
      Gives (K.item k) (onInts m n))
    (hsymbols : ∀ {k a b}, K.item k a → K.item k b → both a b = none →
      (onSymbols a.lift b.lift).Gives (K.item k)) :
    Holds R K C (settle ctx onInts onSymbols) Done := by
  refine holds_binary hK fun a b => ?_
  split
  · exact holds_ofExcept fun k h => hints h.1 h.2 ‹_›
  · exact holds_inquire fun k h => hsymbols h.1 h.2 ‹_›

theorem holds_modular (onInts : Int → Int → Int) {onTerms : Term → Term → Term → Term}
    (h : onTerms = .addMod ∨ onTerms = .mulMod) [Permits R [.stack, .pc, .solver]] [Asks R] :
    Holds R K C (modular ctx onInts onTerms) Done := by
  refine holds_begin 3 (holds_pop.bind fun a => holds_pop.bind fun b => holds_pop.bind fun m => ?_)
  dsimp only
  split
  · exact holds_pushNormal hK (holds_pure fun k hC => hK.reduced _ hC.2 ‹_›)
  · exact holds_pushNormal hK (holds_inquire fun k hC => hK.modular h hC.1.1.2 hC.1.2 hC.2)

/-! ### Comparisons and bits -/

theorem holds_compare (reading : Int → Int) (onInts : Int → Int → Bool)
    {onSymbols : Value → Value → Except Fault Condition}
    (h : onSymbols ∈ [unsignedOrder .ult, unsignedOrder .ugt, Value.lt, Value.gt, Value.eq])
    [Permits R [.stack, .pc]] : Holds R K C (compare ctx reading onInts onSymbols) Done := by
  refine holds_binary hK fun a b => ?_
  split
  · exact holds_pure fun k _ => hK.truth k _
  · exact (holds_ofExcept fun k hC => hK.comparison h hC.1 hC.2).bind fun _ =>
      holds_pure fun _ hC => hC.2

theorem holds_isZero [Permits R [.stack, .pc]] : Holds R K C (isZero ctx) Done := by
  refine holds_unary hK fun a => ?_
  split
  · refine holds_pure fun k _ => ?_
    split
    · exact hK.truth k true
    · exact hK.truth k false
  · exact (holds_ofExcept fun k h => hK.isZero h).bind fun _ => holds_pure fun _ h => h.2

theorem holds_byte [Permits R [.stack, .pc, .solver]] [Asks R] : Holds R K C (byte ctx) Done := by
  refine holds_begin 2 (holds_pop.bind fun a => ?_)
  refine (holds_ofExcept (Q := fun _ index => (do (← (Value.int 32).sub a).sub (.int 1)) =
    .ok index) fun _ _ _ h => h).bind fun index => holds_pop.bind fun b => ?_
  dsimp only
  split
  next hm hn =>
    refine holds_ite (fun _ => holds_pushNormal hK (holds_pure fun k _ => hK.truth k false))
      fun _ => holds_pushNormal hK (holds_ofExcept fun k h => (hK.byte h.1.1.2 h.2 h.1.2).1 ?_)
    simp [both, hm, hn]
  · exact holds_pushNormal hK (holds_inquire fun k h =>
      ⟨gives_ok (hK.truth k false), (hK.byte h.1.1.2 h.2 h.1.2).2⟩)

/-! ### Memory -/

theorem holds_mload [Permits R [.stack, .pc, .vars, .solver, .words, .activeWords]] [Asks R] :
    Holds R K C (mload ctx) Done := by
  refine holds_begin 1 (holds_pop.bind fun address => holds_getPath.bind fun path => ?_)
  dsimp only
  split
  next hknown =>
    obtain ⟨hword, hsize⟩ := get?_of_knownWord hknown
    refine (holds_ofExcept fun k h => hK.grown _ h.2.items.active hsize).bind fun grown => ?_
    exact (holds_push fun k h => h.1.2.items.words _ _ hword).bind fun _ =>
      holds_setActive fun k h => h.1.2
  · refine (holds_ofExcept fun k h => hK.after h.2.items.active h.1.2 (.inr rfl)).bind fun size =>
      ?_
    refine (holds_growSymbolic fun k h => h.2).bind fun grown => ?_
    refine (holds_wordNamed fun k _ =>
      hK.var (hK.named (c := 'm') (by simp [Names.memoryAt]) (by decide)
      (by decide))).bind fun v => (holds_push fun k h => h.2).bind fun _ => ?_
    exact (holds_setWord _ fun k h => h.1.2).bind fun _ => holds_setActive fun k h => h.1.1.1.2

theorem holds_mstore [Permits R [.stack, .pc, .bytes, .solver, .words, .activeWords]] [Asks R] :
    Holds R K C (mstore ctx) Done := by
  refine holds_begin 2
    (holds_pop.bind fun address => holds_pop.bind fun v => holds_getWorld.bind fun world =>
    (holds_quiet (touches_storeBytes address v) (touches_storeBytes address v)).bind fun _ => ?_)
  split
  · refine (holds_ofExcept fun k h => hK.grown _ h.1.2.active ‹_›).bind fun grown => ?_
    exact (holds_setWord _ fun k h => h.1.1.1.2).bind fun _ => holds_setActive fun k h => h.1.2
  next hsymbolic =>
    refine (holds_ofExcept fun k h =>
      hK.stored h.1.2.active h.1.1.1.2 (both_of_forall hsymbolic)).bind
      fun size => (holds_growSymbolic fun k h => h.2).bind fun grown => ?_
    exact holds_overwrite _ (fun k h => h.1.1.1.1.2) fun k h => h.2

theorem holds_mstore8 [Permits R [.stack, .pc, .solver, .words, .activeWords]] [Asks R] :
    Holds R K C (mstore8 ctx) Done := by
  refine holds_begin 2 (holds_pop.bind fun address => holds_pop.bind fun w =>
    (holds_ofExcept fun k h => hK.lowByte h.2).bind fun v => holds_getWorld.bind fun world => ?_)
  dsimp only
  split
  · refine (holds_ofExcept fun k h => hK.grown _ h.2.active ‹_›).bind fun grown => ?_
    exact (holds_setWord _ fun k h => h.1.1.2).bind fun _ => holds_setActive fun k h => h.1.2
  · refine (holds_ofExcept fun k h => hK.upTo h.2.active h.1.1.1.2).bind fun size =>
      (holds_growSymbolic fun k h => h.2).bind fun grown => ?_
    exact holds_overwrite _ (fun k h => h.1.1.1.2) fun k h => h.2

theorem holds_sha3 [Permits R [.stack, .pc, .names, .vars, .hashes]] :
    Holds R K C (sha3 ctx) Done := by
  refine holds_begin 2 (holds_pop.bind fun start => holds_pop.bind fun size => ?_)
  split
  · refine holds_getPath.bind fun path => ?_
    dsimp only
    split
    next hhash =>
      exact holds_push fun k h => h.2.items.hashes _ _ hhash
    · exact (holds_freshArbitrary hK).bind fun name =>
        (holds_setHash _ fun k h => hK.var h.2).bind fun _ => holds_push fun k h => hK.var h.1.2
  · exact (holds_freshArbitrary hK).bind fun name =>
      (holds_declare fun k h => hK.var h.2).bind fun _ => holds_push fun k h => hK.var h.1.2

/-! ### The transaction, the block, call data and code -/

omit hK in
theorem holds_askBalance (n : Int) (h : ∀ k d, K.item k (Value.ofDocument d)) [Among .requests ps]
    [Among .log ps] : Holds R K C (askBalance ctx n) K.item := by
  refine (holds_quiet touches_remoteOf touches_remoteOf).bind fun remote => holds_tryCatch_throw ?_
    (fun _ => (touches_say _ _).bind fun _ => touches_throw _) fun e _ => ⟨e, _, rfl⟩
  refine (holds_quiet (touches_ask _ _) (touches_ask _ _)).bind fun reply =>
    (holds_value _).bind fun status => ?_
  refine holds_ite (fun _ => ?_) fun _ => holds_pure fun k _ => h k reply
  exact (holds_value _).bind fun d => holds_pure fun k _ => h k d

theorem holds_balance [Permits R [.stack, .pc, .names, .vars, .balance, .requests, .log]] :
    Holds R K C (balance ctx) Done := by
  refine holds_begin 1 (holds_pop.bind fun owner => ?_)
  have hset (v : Value) {D : Nat → Prop} : Holds R K (fun k => D k ∧ K.item k v) (do
      modifyWorld fun w => { w with balance := w.balance.insert (balanceKey ctx.print owner) v }
      push v) Done :=
    (holds_setBalance (balanceKey ctx.print owner) fun k h => hK.held h.2).bind fun _ =>
    holds_push fun k h => h.1.2
  dsimp only
  split
  · exact (holds_askBalance _ fun k => (hK.reply k ‹_›).1).bind fun v => hset v
  · exact (holds_freshOther hK (c := 'b') rfl (by decide) (by decide)).bind fun name =>
      (holds_wordNamed fun k h => hK.var h.2).bind fun v => hset v

theorem holds_dataName (position : Value) (function : String) [Among .names ps]
    [Among .varNames ps] : Holds R K C (dataName ctx position function) K.name := by
  unfold dataName
  split
  · exact holds_freshData hK
  next map hmap =>
    refine holds_pc.bind fun n => (holds_value _).bind fun code => ?_
    split
    next i params _ hparams =>
      refine holds_ite
        (fun _ => (holds_quiet (touches_noteParameters _ _) (touches_noteParameters _ _)).bind
        fun _ => ?_) fun _ => holds_freshData hK
      split
      next name hname =>
        obtain ⟨p, hp, rfl⟩ := Option.map_eq_some_iff.1 hname
        exact holds_pure fun k _ =>
          hK.parameter hmap hparams (List.mem_reverse.1 (List.mem_of_find?_eq_some hp))
      · exact holds_throw _
    · exact holds_freshData hK

theorem holds_itemNamed (h : ∀ k, C k → K.name k name) [Among .vars ps] :
    Holds R K C (itemNamed name) K.item := by
  refine holds_ite (fun heq => holds_getPath.bind fun _ => holds_pure fun k hC => ?_) fun _ =>
    holds_wordNamed fun k hC => hK.var (h k hC)
  exact hK.listed _ (heq ▸ h k hC.1)

theorem holds_callDataLoad (function : String) [Permits R [.stack, .pc, .names, .vars, .varNames]] :
    Holds R K C (callDataLoad ctx function) Done :=
  holds_begin 1 (holds_pop.bind fun position => (holds_dataName hK position function).bind fun _ =>
    (holds_itemNamed hK fun _ h => h.2).bind fun _ => holds_push fun _ h => h.2)

theorem holds_copyUnknown {owner location start count : Value} [Among .vars ps] [Among .solver ps]
    [Asks R] [Among .words ps] [Among .activeWords ps] (hl : ∀ k, C k → K.item k location)
    (hc : ∀ k, C k → K.item k count) :
    Holds R K C (copyUnknown ctx owner location start count) Done := by
  refine holds_getWorld.bind fun world => (holds_wordNamed fun k _ => hK.var (hK.named (c := 'c')
    (by simp [Names.code]) (by decide) (by decide))).bind fun v => ?_
  refine (holds_ofExcept fun k h => hK.after h.1.2.active (hl k h.1.1) (.inl (hc k h.1.1))).bind
    fun size => ?_
  refine (holds_growSymbolic fun k h => h.2).bind fun grown => ?_
  exact holds_overwrite _ (fun k h => h.1.1.2) fun k h => h.2

theorem holds_extCodeSize [Permits R [.stack, .pc, .vars, .requests, .log]] :
    Holds R K C (extCodeSize ctx) Done := by
  refine holds_begin 1 (holds_pop.bind fun owner => ?_)
  split
  next hon =>
    have hpush (n : Nat) {D : Nat → Prop} : Holds R K D (push (halfLength n)) Done :=
      holds_push fun k _ => (hK.reply k hon).2 _
    refine (holds_quiet (touches_askCode _) (touches_askCode _)).bind fun d => ?_
    split
    · exact hpush _
    · exact hpush _
    · exact hpush _
    · exact holds_throw _
  · exact holds_pushNamed hK (c := 'c') (by simp [Names.codeSize]) (by decide) (by decide)

theorem holds_extCodeCopy [Permits R [.stack, .pc, .vars, .solver, .words, .activeWords]] [Asks R] :
    Holds R K C (extCodeCopy ctx) Done :=
  holds_begin 4 (holds_pop.bind fun _ => holds_pop.bind fun _ => holds_pop.bind fun _ =>
    holds_pop.bind fun _ => holds_getWorld.bind fun _ => holds_ite (fun _ => holds_throw _) fun _ =>
    holds_copyUnknown hK (fun _ h => h.1.1.1.2) fun _ h => h.1.2)

/-! ### Storage and jumps -/

theorem holds_loadUnknown (position : Value) [Among .stack ps] [Among .vars ps]
    [Among .storage ps] : Holds R K C (loadUnknown ctx position) Done := by
  refine (holds_quiet touches_storageLabel touches_storageLabel).bind fun label =>
    (holds_wordNamed fun k _ =>
    hK.var (hK.named (c := 'I') (by simp [Names.storage]) (by decide) (by decide))).bind fun v => ?_
  exact (holds_push fun k h => h.2).bind fun _ => holds_setStorage _ fun k h => h.1.2

theorem holds_sload [Permits R [.stack, .pc, .vars, .storage, .requests, .log]] :
    Holds R K C (sload ctx) Done := by
  refine holds_begin 1 (holds_pop.bind fun position => holds_getWorld.bind fun world => ?_)
  dsimp only
  split
  next hnumber =>
    obtain ⟨n, -, hn⟩ := Option.bind_eq_some_iff.1 hnumber
    exact holds_push fun k h => h.2.storage _ _ hn
  next hon =>
    refine (holds_quiet (touches_askStorage _) (touches_askStorage _)).bind fun v => ?_
    exact (holds_setStorage _ fun k _ => hK.storedReply k v hon).bind fun _ =>
      holds_push fun k _ => hK.storedReply k v hon
  · split
    next hnamed =>
      exact holds_push fun k h => h.2.storage _ _ hnamed
    · exact holds_loadUnknown hK position

theorem holds_jumpIf (block : Int) [Permits R [.stack, .graph]]
    (hbranch : ∀ branch : Value,
      Within R (updateBlock block fun b => { b with branch := some branch })) :
    Holds R K C (jumpIf ctx block) Done := by
  refine (holds_need 2).bind fun _ => holds_pop.bind fun v =>
    (holds_quiet (touches_targetOf v) (touches_targetOf v)).bind fun target =>
    (holds_setTarget block v target).bind fun _ => holds_pop.bind fun flag => ?_
  refine (holds_ofExcept fun k h => hK.branch h.2).bind fun branch => ?_
  refine (holds_updateBlock (hbranch branch) ?_).bind fun _ => holds_addEdge block target
  rintro k b v c h ⟨⟩ hc
  exact .inr (h.2 c hc)

/-! ### Numbers and divisions -/

theorem holds_codeCopy (hK' : Whole K)
    [Permits R [.stack, .pc, .vars, .solver, .words, .activeWords]] [Asks R] :
    Holds R K C (codeCopy ctx) Done := by
  refine holds_begin 3 (holds_pop.bind fun location => holds_pop.bind fun start =>
    holds_pop.bind fun count => holds_getWorld.bind fun world => ?_)
  split
  · refine (holds_ofExcept fun k h => hK.grown _ h.2.active ‹_›).bind fun grown =>
      (holds_quiet touches_codeText touches_codeText).bind fun code =>
      (holds_value _).bind fun n => ?_
    exact (holds_setWord _ fun k _ => hK'.int k n).bind fun _ => holds_setActive fun k h =>
      h.1.1.1.2
  · exact holds_copyUnknown hK (fun k h => h.1.1.1.2) fun k h => h.1.2

end Closed

theorem holds_pushOperand (hK : Whole K) (width : Option Int) (operand : Operand)
    [Permits R [.stack, .pc]] : Holds R K C (pushOperand ctx width operand) Done := by
  refine (holds_number width).bind fun n => (holds_advance _).bind fun _ => ?_
  split
  · exact holds_throw _
  · exact holds_throw _
  · refine holds_push fun k _ => ?_
    split
    · exact hK.lift (hK.int k _)
    · exact hK.int k _

theorem holds_codeSize (hK : Whole K) [Permits R [.stack]] : Holds R K C (codeSize ctx) Done :=
  (holds_quiet touches_codeText touches_codeText).bind fun _ => holds_push fun k _ => hK.double k _

theorem holds_programCounter (hK : Whole K) [Permits R [.stack, .pc]] :
    Holds R K C programCounter Done :=
  holds_pc.bind fun n => (holds_push fun k _ => hK.int k n).bind fun _ => holds_advance 1

theorem holds_memorySize (hK : Whole K) [Permits R [.stack, .pc]] : Holds R K C memorySize Done :=
  (holds_advance 1).bind fun _ => holds_getWorld.bind fun _ =>
    (holds_ofExcept fun _ h => hK.area h.2.active).bind fun _ => holds_push fun _ h => h.2

/-! ### Calls -/

/-- What is asked and noted before a payment. -/
def pledge (ctx : Context) (enough : Condition) : Exec Bool := do
  if ← inquire ctx (.whether (.ok enough.formula)) then
    push (.int 1)
    assertThat enough
    notePayment enough
  else
    push (.int 0)
    return false

/-- What is credited to an account whose balance is unknown. -/
def creditTo (amount : Value) (owner : String) : Exec Unit := do
  let name ← fresh Names.freshArbitrary
  declare name
  let known ← ofExcept ((Value.var name).ge (.int 0))
  assertThat known
  addCondition known
  setBalance owner (← ofExcept ((Value.var name).add amount))

def ownerOf (recipient : Value) : Exec String :=
  match recipient.toInt? with
  | some n => pure ("concrete_address_" ++ toString n)
  | none => fresh Names.freshAddress

theorem creditUnknown_eq (recipient amount : Value) :
    creditUnknown recipient amount = ownerOf recipient >>= creditTo amount := by
  unfold creditUnknown ownerOf
  cases recipient.toInt? <;> rfl

def creditOther (ctx : Context) (recipient amount sender : Value) : Exec Unit := do
  let senderAddress ← ofExcept (sender.bitAnd (.word (.const addressMask)))
  let other ← ofExcept (recipient.ne senderAddress)
  if ← inquire ctx (.whether (.ok other.formula)) then creditUnknown recipient amount
  else
    let old ← balanceOf "Is"
    setBalance "Is" (← ofExcept (old.add amount))

def senderOf (p : Path) : Except Fault Value :=
  (p.vars.get? Names.caller).elim (.error .missingKey) .ok

theorem moveValue_eq_credit (recipient amount : Value) : moveValue ctx recipient amount = (do
    let held ← balanceOf "Ia"
    setBalance "Ia" (← ofExcept (held.sub amount))
    let sender ← ofExcept (senderOf (← getPath))
    creditOther ctx recipient amount sender) := by
  unfold moveValue senderOf
  refine bind_congr fun held => bind_congr fun left => bind_congr fun _ => bind_congr fun path => ?_
  cases path.vars.get? Names.caller <;> rfl

/-- Conditions are only added to the path and to the solver before a payment and by a credit. -/
def Pledges (ctx : Context) (R : Machine → Machine → Prop) (K : Kind) : Prop :=
  ∀ {C : Nat → Prop} {enough : Condition}, (∀ k, C k → K.formula k enough.formula) →
    Holds R K C (pledge ctx enough) Done

@[inherit_doc Pledges]
def Credits (R : Machine → Machine → Prop) (K : Kind) : Prop :=
  ∀ {C : Nat → Prop} {amount : Value} (owner : String), (∀ k, C k → K.held k amount) →
    Holds R K C (creditTo amount owner) Done

section Loose

variable [K.Loose]

theorem pledges_of_note (hK : Closed ctx K) [Among .stack ps] [Among .solver ps]
    (hnote : ∀ c, Within R (notePayment c)) : Pledges ctx R K := by
  intro C enough _
  refine (holds_whether _).bind fun may => holds_ite (fun _ => ?_) fun _ => ?_
  · exact (holds_push fun k _ => hK.truth k true).bind fun _ =>
      holds_loose ((touches_assertThat _).bind fun _ =>
      hnote enough) ((touches_assertThat _).bind fun _ => touches_notePayment enough)
  · exact (holds_push fun k _ => hK.truth k false).bind fun _ => holds_pure fun _ _ => trivial

theorem credits (hK : Closed ctx K) [Among .names ps] [Among .vars ps] [Among .solver ps]
    [Among .conditions ps] [Among .balance ps] : Credits R K := by
  intro C amount owner ha
  refine (holds_freshArbitrary hK).bind fun name =>
    (holds_declare fun k h => hK.var h.2).bind fun _ => (holds_value _).bind fun known => ?_
  refine Holds.bind (Q := Done) (holds_loose (touches_assertThat known) (touches_assertThat known))
    fun _ =>
    Holds.bind (Q := Done) (holds_loose (touches_addCondition known) (touches_addCondition known))
      fun _ => ?_
  refine (holds_ofExcept fun k h => (hK.credit (hK.held (hK.var ?_)) (ha k ?_)).1).bind fun v =>
    holds_setBalance owner fun k h => h.2
  · exact h.1.1.1.1.2
  · exact h.1.1.1.1.1

end Loose

section Calls

theorem holds_creditUnknown (recipient : Value) (hcredits : Credits R K)
    (ha : ∀ k, C k → K.held k amount) [Among .names ps] :
    Holds R K C (creditUnknown recipient amount) Done := by
  rw [creditUnknown_eq]
  refine Holds.bind (Q := Done) ?_ fun owner => hcredits owner fun k h => ha k h.1
  unfold ownerOf
  split
  · exact holds_pure fun _ _ => trivial
  · exact holds_fresh fun _ _ _ => trivial

variable (hK : Closed ctx K)
include hK

theorem holds_moveValue (recipient : Value) (hcredits : Credits R K)
    (ha : ∀ k, C k → K.held k amount) [Among .names ps] [Among .solver ps] [Among .balance ps] :
    Holds R K C (moveValue ctx recipient amount) Done := by
  rw [moveValue_eq_credit]
  refine (holds_balanceOf "Ia").bind fun held =>
    (holds_ofExcept fun k h => (hK.credit h.2 (ha k h.1)).2).bind
    fun left => (holds_setBalance "Ia" fun k h => h.2).bind fun _ => holds_getPath.bind fun path =>
    (holds_value _).bind fun sender => (holds_value _).bind fun address =>
    (holds_value _).bind fun other =>
    (holds_whether _).bind fun may => holds_ite (fun _ => ?_) fun _ => ?_
  · exact holds_creditUnknown recipient hcredits fun k h => ha k h.1.1.1.1.1.1.1.1
  · refine (holds_balanceOf "Is").bind fun old =>
      (holds_ofExcept fun k h => (hK.credit h.2 (ha k ?_)).1).bind
      fun v => holds_setBalance "Is" fun k h => h.2
    exact h.1.1.1.1.1.1.1.1.1

theorem holds_pay (hpledges : Pledges ctx R K) (ha : ∀ k, C k → K.item k amount) [Journey R] :
    Holds R K C (pay ctx amount) Done :=
  (holds_balanceOf "Ia").bind fun _ =>
  (holds_ofExcept fun k h => hK.affords (hK.held (ha k h.1)) h.2).bind fun _ =>
    hpledges fun _ h => h.2

theorem call_eq_noting : ∃ rest, call ctx = (do need 7; noteCall; rest) ∧
    ∀ {R : Machine → Machine → Prop}
    [Permits R [.stack, .pc, .solver, .conditions, .analysis, .names, .vars, .balance]]
    {C : Nat → Prop}, Pledges ctx R K → Credits R K → Holds R K C rest Done := by
  refine ⟨_, rfl,
    fun hpledges hcredits => (holds_advance 1).bind fun _ => (holds_drop 1).bind fun _ =>
    holds_pop.bind fun recipient => holds_pop.bind fun amount => (holds_drop 4).bind fun _ => ?_⟩
  refine holds_ite (fun _ => holds_push fun k _ => hK.truth k true) fun _ =>
    (holds_pay hK hpledges fun k h => h.1.2).bind fun paid => holds_ite (fun _ => ?_) fun _ =>
    holds_pure fun _ _ => trivial
  exact holds_moveValue hK recipient hcredits fun k h => hK.held h.1.1.2

theorem callCode_eq_noting : ∃ rest, callCode ctx = (do need 7; noteCall; rest) ∧
    ∀ {R : Machine → Machine → Prop}
    [Permits R [.stack, .pc, .recipients, .solver, .conditions, .analysis]] {C : Nat → Prop},
    Pledges ctx R K → Holds R K C rest Done := by
  refine ⟨_, rfl, fun hpledges => (holds_advance 1).bind fun _ => (holds_drop 1).bind fun _ =>
    holds_pop.bind fun recipient => (holds_quiet (touches_noteRecipient recipient)
      (touches_noteRecipient recipient)).bind fun _ => holds_pop.bind fun amount =>
      (holds_drop 4).bind fun _ => ?_⟩
  exact holds_ite (fun _ => holds_push fun k _ => hK.truth k true) fun _ =>
    (holds_pay hK hpledges fun k h => h.1.2).bind fun _ => holds_pure fun _ _ => trivial

theorem holds_selfDestruct (hcredits : Credits R K)
    [Permits R [.stack, .pc, .names, .vars, .solver, .conditions, .balance]] :
    Holds R K C selfDestruct Done :=
  (holds_advance 1).bind fun _ => holds_pop.bind fun recipient =>
  (holds_balanceOf "Ia").bind fun _ =>
    (holds_setBalance "Ia" fun k _ => hK.held (hK.truth k false)).bind fun _ =>
    holds_creditUnknown recipient hcredits fun _ h => h.1.2

end Calls

end Exec

end EvmAudit
