import EvmAudit.Proofs.Machine.Inquiry
import EvmAudit.Proofs.Table

/-! The parts of the state and how instructions change each of them. A relation that permits such
changes leads from the first to the last state of every computation that is made of them. -/

namespace EvmAudit

/-- The parts of the state that change. The transaction is what is given of it and of its block; the
records are what is kept of the ends of blocks and paths. -/
inductive Part where
  | stack | pc | words | bytes | calls | overflowPcs | fees | analysis | hashes | balance | storage
  | activeWords | transaction | conditions | vars | graph | solver | names | varNames | visitedPcs
  | edges | affected | revertible | problems | records | trace | executed | recipients | requests
  | log
  deriving DecidableEq

def Part.Content : Part → Type
  | .stack => List Value
  | .pc => Int
  | .words | .storage => Table Key Value
  | .bytes => Bytes
  | .calls | .overflowPcs | .visitedPcs | .revertible => List Int
  | .fees => Int × Int
  | .analysis => List Flow × List Bool × List Int × Table Nat Int
  | .hashes | .balance | .vars => Table String Value
  | .activeWords => Value
  | .transaction => (Value × Value × Value × Value × Value) × Value × Value × Value × Value × Value
  | .conditions => List Condition
  | .graph => Graph
  | .solver => Solver
  | .names => Names
  | .varNames | .requests => List String
  | .edges => Table (Int × Int) Int
  | .affected => Table Int Bool
  | .problems => Problems
  | .records =>
    (List (List Flow) × List (List Condition) × List (Table Key Value) × List (List Bool)) ×
      Nat × Nat × List (Int × Int)
  | .trace => List TraceRow
  | .executed => Nat
  | .recipients => Option (List (Option String))
  | .log => List LogLine

def World.transaction (w : World) :
    (Value × Value × Value × Value × Value) × Value × Value × Value × Value × Value :=
  ((w.value, w.sender, w.receiver, w.gasPrice, w.origin),
    w.coinbase, w.timestamp, w.number, w.difficulty, w.gasLimit)

namespace Machine

def part (m : Machine) : (p : Part) → p.Content
  | .stack => m.path.stack
  | .pc => m.path.world.pc
  | .words => m.path.words
  | .bytes => m.path.bytes
  | .calls => m.path.calls
  | .overflowPcs => m.path.overflowPcs
  | .fees => (m.path.analysis.gas, m.path.analysis.memoryGas)
  | .analysis => (m.path.analysis.flows, m.path.analysis.reentrancy, m.path.analysis.transferPcs,
      m.path.analysis.conditionPcs)
  | .hashes => m.path.hashes
  | .balance => m.path.world.balance
  | .storage => m.path.world.storage
  | .activeWords => m.path.world.activeWords
  | .transaction => m.path.world.transaction
  | .conditions => m.path.conditions
  | .vars => m.path.vars
  | .graph => m.shared.graph
  | .solver => m.shared.solver
  | .names => m.shared.names
  | .varNames => m.shared.varNames
  | .visitedPcs => m.shared.visitedPcs
  | .edges => m.shared.visitedEdges
  | .affected => m.shared.affected
  | .revertible => m.shared.revertible
  | .problems => m.shared.problems
  | .records => ((m.shared.flows, m.shared.conditions, m.shared.storages, m.shared.reentrancy),
      m.shared.paths, m.shared.testCases, m.shared.ends)
  | .trace => m.shared.trace
  | .executed => m.shared.executed
  | .recipients => m.shared.recipients
  | .requests => m.shared.requests
  | .log => m.shared.log

def replace (m : Machine) : (p : Part) → p.Content → Machine
  | .stack, stack => { m with path := { m.path with stack } }
  | .pc, pc => { m with path := { m.path with world := { m.path.world with pc } } }
  | .words, words => { m with path := { m.path with words } }
  | .bytes, bytes => { m with path := { m.path with bytes } }
  | .calls, calls => { m with path := { m.path with calls } }
  | .overflowPcs, overflowPcs => { m with path := { m.path with overflowPcs } }
  | .fees, (gas, memoryGas) =>
    { m with path := { m.path with analysis := { m.path.analysis with gas, memoryGas } } }
  | .analysis, (flows, reentrancy, transferPcs, conditionPcs) =>
    { m with path := { m.path with analysis :=
        { m.path.analysis with flows, reentrancy, transferPcs, conditionPcs } } }
  | .hashes, hashes => { m with path := { m.path with hashes } }
  | .balance, balance => { m with path := { m.path with world := { m.path.world with balance } } }
  | .storage, storage => { m with path := { m.path with world := { m.path.world with storage } } }
  | .activeWords, activeWords =>
    { m with path := { m.path with world := { m.path.world with activeWords } } }
  | .transaction,
    ((value, sender, receiver, gasPrice, origin), coinbase, timestamp, number, difficulty,
      gasLimit) =>
    { m with path := { m.path with world := { m.path.world with
        value, sender, receiver, gasPrice, origin, coinbase, timestamp, number, difficulty,
        gasLimit } } }
  | .conditions, conditions => { m with path := { m.path with conditions } }
  | .vars, vars => { m with path := { m.path with vars } }
  | .graph, graph => { m with shared := { m.shared with graph } }
  | .solver, solver => { m with shared := { m.shared with solver } }
  | .names, names => { m with shared := { m.shared with names } }
  | .varNames, varNames => { m with shared := { m.shared with varNames } }
  | .visitedPcs, visitedPcs => { m with shared := { m.shared with visitedPcs } }
  | .edges, visitedEdges => { m with shared := { m.shared with visitedEdges } }
  | .affected, affected => { m with shared := { m.shared with affected } }
  | .revertible, revertible => { m with shared := { m.shared with revertible } }
  | .problems, problems => { m with shared := { m.shared with problems } }
  | .records, ((flows, conditions, storages, reentrancy), paths, testCases, ends) =>
    { m with shared := { m.shared with
        flows, conditions, storages, reentrancy, paths, testCases, ends } }
  | .trace, trace => { m with shared := { m.shared with trace } }
  | .executed, executed => { m with shared := { m.shared with executed } }
  | .recipients, recipients => { m with shared := { m.shared with recipients } }
  | .requests, requests => { m with shared := { m.shared with requests } }
  | .log, log => { m with shared := { m.shared with log } }

theorem part_replace {p q : Part} (h : p ≠ q) (m : Machine) (content : q.Content) :
    (m.replace q content).part p = m.part p := by
  cases q <;> cases p <;> first | rfl | exact absurd rfl h

def AlikeBut (ps : List Part) (m m' : Machine) : Prop := ∀ p, p ∉ ps → m'.part p = m.part p

namespace AlikeBut

variable {ps qs : List Part} {m m' m'' : Machine}

theorem refl (m : Machine) : m.AlikeBut ps m := fun _ _ => rfl

theorem trans (h : m.AlikeBut ps m') (h' : m'.AlikeBut ps m'') : m.AlikeBut ps m'' :=
  fun p hp => (h' p hp).trans (h p hp)

theorem mono (h : m.AlikeBut ps m') (hsub : ps ⊆ qs) : m.AlikeBut qs m' :=
  fun p hp => h p fun hmem => hp (hsub hmem)

theorem of_replace {q : Part} (hq : q ∈ ps) (m : Machine) (content : q.Content) :
    m.AlikeBut ps (m.replace q content) :=
  fun p hp => part_replace (p := p) (fun h => hp (h ▸ hq)) m content

variable (h : m.AlikeBut ps m')
include h

theorem stack (hp : .stack ∉ ps := by decide) : m'.path.stack = m.path.stack := h .stack hp

theorem pc (hp : .pc ∉ ps := by decide) : m'.path.world.pc = m.path.world.pc := h .pc hp

theorem words (hp : .words ∉ ps := by decide) : m'.path.words = m.path.words := h .words hp

theorem bytes (hp : .bytes ∉ ps := by decide) : m'.path.bytes = m.path.bytes := h .bytes hp

theorem calls (hp : .calls ∉ ps := by decide) : m'.path.calls = m.path.calls := h .calls hp

theorem balance (hp : .balance ∉ ps := by decide) : m'.path.world.balance = m.path.world.balance :=
  h .balance hp

theorem storage (hp : .storage ∉ ps := by decide) : m'.path.world.storage = m.path.world.storage :=
  h .storage hp

theorem activeWords (hp : .activeWords ∉ ps := by decide) :
    m'.path.world.activeWords = m.path.world.activeWords := h .activeWords hp

theorem conditions (hp : .conditions ∉ ps := by decide) : m'.path.conditions = m.path.conditions :=
  h .conditions hp

theorem vars (hp : .vars ∉ ps := by decide) : m'.path.vars = m.path.vars := h .vars hp

theorem graph (hp : .graph ∉ ps := by decide) : m'.shared.graph = m.shared.graph := h .graph hp

theorem solver (hp : .solver ∉ ps := by decide) : m'.shared.solver = m.shared.solver := h .solver hp

theorem names (hp : .names ∉ ps := by decide) : m'.shared.names = m.shared.names := h .names hp

end AlikeBut

end Machine

def Block.fixed (b : Block) : Block := { b with target := .int 0, branch := none }

namespace Graph

structure Same (g h : Graph) : Prop where
  endings : h.endings = g.endings
  blocks : ∀ key, (h.blocks.get? key).map Block.fixed = (g.blocks.get? key).map Block.fixed

theorem Same.refl (g : Graph) : g.Same g := ⟨rfl, fun _ => rfl⟩

theorem Same.trans {f g h : Graph} (hf : f.Same g) (hg : g.Same h) : f.Same h :=
  ⟨hg.endings.trans hf.endings, fun key => (hg.blocks key).trans (hf.blocks key)⟩

theorem Same.block {g h : Graph} (hs : g.Same h) {key : Int} {b : Block}
    (hb : h.blocks.get? key = some b) : ∃ b', g.blocks.get? key = some b' ∧ b'.fixed = b.fixed := by
  have hfixed := hs.blocks key
  rw [hb] at hfixed
  exact Option.map_eq_some_iff.1 hfixed.symm

theorem same_addEdge (g : Graph) (source target : Int) : g.Same (g.addEdge source target) := by
  unfold addEdge
  dsimp only
  split <;> exact ⟨rfl, fun _ => rfl⟩

theorem map_updateBlock {α : Type} (view : Block → α) (g : Graph) (key : Int) {f : Block → Block}
    (hf : ∀ b, view (f b) = view b) (k : Int) :
    ((g.updateBlock key f).blocks.get? k).map view = (g.blocks.get? k).map view := by
  unfold updateBlock
  split
  · rfl
  next b hb =>
    by_cases h : k = key
    · rw [h, Table.get?_insert_self, hb]
      exact congrArg some (hf b)
    · rw [Table.get?_insert_of_ne h]

theorem same_updateBlock (g : Graph) (key : Int) {f : Block → Block}
    (hf : ∀ b, (f b).fixed = b.fixed) : g.Same (g.updateBlock key f) := by
  refine ⟨?_, g.map_updateBlock Block.fixed key hf⟩
  unfold updateBlock
  split <;> rfl

end Graph

structure Names.Grow (g g' : Names) : Prop where
  data : g.data ≤ g'.data
  other : g.other ≤ g'.other

theorem Names.Grow.refl (g : Names) : g.Grow g := ⟨Nat.le_refl _, Nat.le_refl _⟩

theorem Names.Grow.trans {g g' g'' : Names} (h : g.Grow g') (h' : g'.Grow g'') : g.Grow g'' :=
  ⟨Nat.le_trans h.data h'.data, Nat.le_trans h.other h'.other⟩

class Names.Counts (f : Names → String × Names) : Prop where
  grow (g : Names) : g.Grow (f g).2

instance : Names.Counts Names.freshData := ⟨fun g => ⟨Nat.le_succ g.data, Nat.le_refl g.other⟩⟩

instance (stem : String) : Names.Counts (Names.freshOther stem) :=
  ⟨fun g => ⟨Nat.le_refl g.data, Nat.le_succ g.other⟩⟩

instance : Names.Counts Names.freshArbitrary := inferInstanceAs (Names.Counts (Names.freshOther _))

instance : Names.Counts Names.freshAddress := inferInstanceAs (Names.Counts (Names.freshOther _))

instance : Names.Counts Names.freshGas := inferInstanceAs (Names.Counts (Names.freshOther _))

instance : Names.Counts Names.freshBalance := inferInstanceAs (Names.Counts (Names.freshOther _))

class Among (p : Part) (ps : List Part) : Prop where
  mem : p ∈ ps

instance (p : Part) (ps : List Part) : Among p (p :: ps) := ⟨.head ps⟩

instance (priority := low) (p q : Part) (ps : List Part) [Among p ps] : Among p (q :: ps) :=
  ⟨.tail q Among.mem⟩

class Journey (R : Machine → Machine → Prop) : Prop where
  refl (m : Machine) : R m m
  trans {m m' m'' : Machine} : R m m' → R m' m'' → R m m''

/-- How instructions change a part by itself. Names are only counted on, variables only declared
under their own names, and conditions only added. In the graph they find edges and the targets of
jumps, and the problems they note are those of arithmetic and of assertions. Of the solver they take
nothing back and leave no scope open. What is kept about the whole path is not theirs to change. -/
def Part.Step : (p : Part) → p.Content → p.Content → Prop
  | .names, g, g' => g.Grow g'
  | .vars, t, t' => ∃ name, t' = t.insert name (.var name)
  | .conditions, cs, cs' => ∃ c : Condition, cs' = List.append cs [c]
  | .graph, g, g' =>
    g.Same g' ∧ ∀ key, (g'.blocks.get? key).map Block.branch = (g.blocks.get? key).map Block.branch
  | .solver, s, s' => s.Left 0 s'
  | .problems, r, r' =>
    ∃ assertions underflows overflows, r' = { r with assertions, underflows, overflows }
  | .analysis, _, _ | .records, _, _ | .executed, _, _ => False
  | _, _, _ => True

/-- The relation permits what instructions do to these parts. -/
class Permits (R : Machine → Machine → Prop) (ps : outParam (List Part)) :
    Prop extends Journey R where
  replace {p : Part} (hp : p ∈ ps) (m : Machine) {content : p.Content}
    (h : p.Step (m.part p) content) : R m (m.replace p content)

theorem Permits.mono {R : Machine → Machine → Prop} {ps qs : List Part} (h : Permits R ps)
    (hsub : qs ⊆ ps) : Permits R qs where
  replace hp := h.replace (hsub hp)

/-- The relation permits any question to the solver, also one that leaves scopes open. -/
class Asks (R : Machine → Machine → Prop) : Prop where
  ask (m : Machine) (s : Solver) : R m (m.withSolver s)

section

variable (ps : List Part)

instance : Permits (Machine.AlikeBut ps) ps where
  refl := .refl
  trans := .trans
  replace hp m _ _ := .of_replace hp m _

instance [Among .solver ps] : Asks (Machine.AlikeBut ps) := ⟨.of_replace (q := .solver) Among.mem⟩

end

abbrev allParts : List Part :=
  [.stack, .pc, .words, .bytes, .calls, .overflowPcs, .fees, .analysis, .hashes, .balance, .storage,
    .activeWords, .transaction, .conditions, .vars, .graph, .solver, .names, .varNames, .visitedPcs,
    .edges, .affected,
    .revertible, .problems, .records, .trace, .executed, .recipients, .requests, .log]

namespace Exec

variable {α β : Type} {ctx : Context} {ps qs : List Part}
variable {x : Exec α}

/-- However the computation ends, it has changed these parts only. -/
def Touches (ps : List Part) (x : Exec α) : Prop := ∀ m : Machine, m.AlikeBut ps (x.outcome m).2

theorem Touches.mono (h : Touches ps x) (hsub : ps ⊆ qs) : Touches qs x :=
  fun m => (h m).mono hsub

theorem Touches.alike {m m' : Machine} {r : Except Fault α} (h : Touches ps x)
    (ho : x.outcome m = (r, m')) : m.AlikeBut ps m' := by
  have hm := h m
  rwa [ho] at hm

/-- However the computation ends, the relation leads to its last state. -/
def Within (R : Machine → Machine → Prop) (x : Exec α) : Prop := ∀ m : Machine, R m (x.outcome m).2

section Within

variable {R : Machine → Machine → Prop} [Journey R]

/-! ### Ways of building computations -/

@[grind ←] theorem touches_pure (a : α) : Within R (pure a) := fun m => Journey.refl m

@[grind ←] theorem touches_throw (e : Fault) : Within R (throw e : Exec α) :=
  fun m => Journey.refl m

@[grind ←] theorem touches_ofExcept (x : Except Fault α) : Within R (ofExcept x) :=
  fun m => Journey.refl m

@[grind ←] theorem touches_getPath : Within R getPath := fun m => Journey.refl m

@[grind ←] theorem touches_getShared : Within R getShared := fun m => Journey.refl m

@[grind ←] theorem touches_getWorld : Within R getWorld := fun m => Journey.refl m

@[grind ←] theorem touches_pc : Within R pc := fun m => Journey.refl m

@[grind ←] theorem Within.bind {f : α → Exec β} (hx : Within R x)
    (hf : ∀ a, Within R (f a)) : Within R (x >>= f) := by
  intro m
  have h := hx m
  rw [outcome_bind]
  generalize x.outcome m = r at h ⊢
  obtain ⟨_ | a, m'⟩ := r
  · exact h
  · exact Journey.trans h (hf a m')

theorem Touches.bind {f : α → Exec β} (hx : Touches ps x) (hf : ∀ a, Touches ps (f a)) :
    Touches ps (x >>= f) :=
  Within.bind hx hf

omit [Journey R] in
theorem touches_ite {c : Prop} [Decidable c] {y : Exec α} (hx : Within R x) (hy : Within R y) :
    Within R (if c then x else y) := by
  split
  · exact hx
  · exact hy

@[grind ←] theorem touches_tryCatch {f : Fault → Exec α} (hx : Within R x)
    (hf : ∀ e, Within R (f e)) : Within R (tryCatch x f) := by
  intro m
  have h := hx m
  rw [outcome_tryCatch]
  generalize x.outcome m = r at h ⊢
  obtain ⟨e | a, m'⟩ := r
  · exact Journey.trans h (hf e m')
  · exact h

/-! ### What a computation leaves as it is -/

def Fixes {γ : Type} (view : Machine → γ) (x : Exec α) : Prop := ∀ m, view (x.outcome m).2 = view m

section

variable {γ : Type} {view : Machine → γ}

def Stays (view : Machine → γ) (m m' : Machine) : Prop := view m' = view m

instance : Journey (Stays view) := ⟨fun _ => rfl, fun h h' => h'.trans h⟩

@[simp] theorem fixes_pure (a : α) : Fixes view (pure a) := fun _ => rfl

@[simp] theorem fixes_ofExcept (x : Except Fault α) : Fixes view (ofExcept x) := fun _ => rfl

theorem Fixes.bind {f : α → Exec β} (hx : Fixes view x) (hf : ∀ a, Fixes view (f a)) :
    Fixes view (x >>= f) :=
  Within.bind (R := Stays view) hx hf

theorem fixes_ite {c : Prop} [Decidable c] {y : Exec α} (hx : Fixes view x) (hy : Fixes view y) :
    Fixes view (if c then x else y) :=
  touches_ite (R := Stays view) hx hy

end

end Within

end Exec

end EvmAudit
