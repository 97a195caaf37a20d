import EvmAudit.Proofs.Machine.Parts
import EvmAudit.Proofs.Value.Over

/-! Kinds of states. A kind says what the items of a state are as long as some names are still to be
given out. A computation holds to a kind if it leads from a state of the kind to another when it
succeeds, and to a relation if that leads to its last state however it ends. -/

namespace EvmAudit

variable {W S : Value → Prop}

/-! ### Paths -/

def Table.All {κ : Type} [DecidableEq κ] (W : Value → Prop) (t : Table κ Value) : Prop :=
  ∀ key v, t.get? key = some v → W v

section Tables

variable {κ : Type} [DecidableEq κ] {t : Table κ Value} {key : κ} {v : Value}

theorem Table.all_empty : Table.All W ({} : Table κ Value) := by
  intro key v h
  cases h

theorem Table.All.insert (h : t.All W) (hv : W v) : (t.insert key v).All W := by
  intro key' v' h'
  rw [Table.get?_insert] at h'
  split at h'
  · cases h'
    exact hv
  · exact h key' v' h'

end Tables

def World.given (w : World) : List Value :=
  [w.value, w.sender, w.receiver, w.gasPrice, w.origin, w.coinbase, w.timestamp, w.number,
   w.difficulty, w.gasLimit]

/-- Every item that an instruction can put on the stack of the path is of the kind `W`, and the
number of memory words of the kind `S`. -/
structure Path.Items (W S : Value → Prop) (p : Path) : Prop where
  stack : ∀ v ∈ p.stack, W v
  words : p.words.All W
  hashes : p.hashes.All W
  vars : p.vars.All W
  storage : p.world.storage.All W
  active : S p.world.activeWords
  given : ∀ v ∈ p.world.given, W v

abbrev itemParts : List Part :=
  [.stack, .words, .hashes, .vars, .storage, .activeWords, .transaction]

theorem Path.Items.of_stack {m m' : Machine} {ps : List Part} (hp : m.path.Items W S)
    (halike : m.AlikeBut ps m') (hps : ∀ p ∈ itemParts, p ∈ ps → p = .stack)
    (hstack : ∀ v ∈ m'.path.stack, W v) : m'.path.Items W S := by
  have hnot {p : Part} (hmem : p ∈ itemParts) (hne : p ≠ .stack) : p ∉ ps :=
    fun h => hne (hps p hmem h)
  have hhashes : m'.path.hashes = m.path.hashes := halike .hashes (hnot (by decide) (by decide))
  have htransaction : m'.path.world.transaction = m.path.world.transaction :=
    halike .transaction (hnot (by decide) (by decide))
  have hgiven : m'.path.world.given = m.path.world.given := by
    simp only [World.transaction, Prod.mk.injEq] at htransaction
    simp [World.given, htransaction]
  exact {
    stack := hstack
    words := halike.words (hnot (by decide) (by decide)) ▸ hp.words
    hashes := hhashes ▸ hp.hashes
    vars := halike.vars (hnot (by decide) (by decide)) ▸ hp.vars
    storage := halike.storage (hnot (by decide) (by decide)) ▸ hp.storage
    active := halike.activeWords (hnot (by decide) (by decide)) ▸ hp.active
    given := hgiven ▸ hp.given }

theorem Path.Items.of_alike {m m' : Machine} {ps : List Part} (hp : m.path.Items W S)
    (halike : m.AlikeBut ps m') (hps : ∀ p ∈ itemParts, p ∉ ps) : m'.path.Items W S := by
  have hstack : m'.path.stack = m.path.stack := halike .stack (hps .stack (by decide))
  exact hp.of_stack halike (fun p hmem hin => absurd hin (hps p hmem)) (hstack ▸ hp.stack)

def Graph.Branches (F : Formula → Prop) (g : Graph) : Prop :=
  ∀ key b v c, g.blocks.get? key = some b → b.branch = some v → v.asCondition = .ok c → F c.formula

/-! ### Kinds -/

/-- What items, numbers of memory words, balances, names and formulas there are in a state while the
name with a number is still to be given out, and how the path and the solver change. -/
structure Kind where
  item : Nat → Value → Prop
  size : Nat → Value → Prop
  held : Nat → Value → Prop
  name : Nat → String → Prop
  formula : Nat → Formula → Prop
  change : Machine → Machine → Prop

structure Path.Fits (K : Kind) (k : Nat) (p : Path) : Prop where
  items : p.Items (K.item k) (K.size k)
  balance : p.world.balance.All (K.held k)

structure World.Fits (K : Kind) (k : Nat) (w : World) : Prop where
  storage : w.storage.All (K.item k)
  active : K.size k w.activeWords
  balance : w.balance.All (K.held k)

structure Machine.Fits (K : Kind) (k : Nat) (m : Machine) : Prop where
  path : m.path.Fits K k
  graph : m.shared.graph.Branches (K.formula k)
  assertions : ∀ f ∈ m.shared.solver.assertions, K.formula k f

namespace Kind

/-- A kind that does not forbid what leaves the conditions and the open scopes as they are. -/
class Lawful (K : Kind) : Prop where
  still {m m' : Machine} (hc : m'.path.conditions = m.path.conditions)
    (hs : m'.shared.solver.frames = m.shared.solver.frames) : K.change m m'
  trans {m m' m'' : Machine} : K.change m m' → K.change m' m'' → K.change m m''

/-- What a successful computation makes of a state: under a condition on the names that are still to
be given out, it stays of its kind, and changes as it may. -/
structure Leads (K : Kind) (C Q : Nat → Prop) (m m' : Machine) : Prop where
  names : m.shared.names.other ≤ m'.shared.names.other
  clear : ∀ k, m'.shared.names.other < k → C k → m.Fits K k → m'.Fits K k ∧ Q k
  change : (∀ k, m.shared.names.other < k → C k ∧ m.Fits K k) → K.change m m'

namespace Leads

variable {K : Kind} [K.Lawful] {C D Q R : Nat → Prop} {m m' m'' : Machine}

theorem trans (h : K.Leads C Q m m') (h' : K.Leads (fun k => C k ∧ Q k) R m' m'') :
    K.Leads C R m m'' := by
  refine ⟨Nat.le_trans h.names h'.names, fun k hk hc hm => ?_, fun hm => ?_⟩
  · obtain ⟨hm', hq⟩ := h.clear k (Nat.lt_of_le_of_lt h'.names hk) hc hm
    exact h'.clear k hk ⟨hc, hq⟩ hm'
  · refine Lawful.trans (h.change hm) (h'.change fun k hk => ?_)
    obtain ⟨hc, hfits⟩ := hm k (Nat.lt_of_le_of_lt h.names hk)
    obtain ⟨hfits', hq⟩ := h.clear k hk hc hfits
    exact ⟨⟨hc, hq⟩, hfits'⟩

omit [K.Lawful] in
theorem imp (hc : ∀ k, D k → C k) (hq : ∀ k, D k → Q k → R k) (h : K.Leads C Q m m') :
    K.Leads D R m m' := by
  refine ⟨h.names, fun k hk hd hm => ?_,
    fun hm => h.change fun k hk => ⟨hc k (hm k hk).1, (hm k hk).2⟩⟩
  obtain ⟨hm', hQ⟩ := h.clear k hk (hc k hd) hm
  exact ⟨hm', hq k hd hQ⟩

theorem of_quiet (hn : m'.shared.names.other = m.shared.names.other)
    (hs : m'.shared.solver.frames = m.shared.solver.frames)
    (hc : m'.path.conditions = m.path.conditions) (h : ∀ k, C k → m.Fits K k →
      m'.path.Fits K k ∧ m'.shared.graph.Branches (K.formula k) ∧ Q k) : K.Leads C Q m m' := by
  refine ⟨hn.ge, fun k _ hC hm => ?_, fun _ => Lawful.still hc hs⟩
  obtain ⟨hp, hg, hq⟩ := h k hC hm
  exact ⟨⟨hp, hg, Solver.assertions_congr hs ▸ hm.assertions⟩, hq⟩

theorem of_still (h : m' = m) (hq : ∀ k, C k → m.Fits K k → Q k) : K.Leads C Q m m' := by
  subst h
  exact .of_quiet rfl rfl rfl fun k hC hm => ⟨hm.path, hm.graph, hq k hC hm⟩

end Leads

/-- The kind of all states. -/
abbrev any : Kind where
  item _ _ := True
  size _ _ := True
  held _ _ := True
  name _ _ := True
  formula _ _ := True
  change _ _ := True

instance : Lawful any := ⟨fun _ _ => trivial, fun _ _ => trivial⟩

end Kind

def Inquiry.Gives {α : Type} (Q : α → Prop) : Inquiry α → Prop
  | .answer result => EvmAudit.Gives Q result
  | .ask _ refuted possible => refuted.Gives Q ∧ possible.Gives Q
  | .andThen first f => first.Gives fun a => EvmAudit.Gives Q (f a)

theorem Inquiry.gives_of_forall {α : Type} {Q : α → Prop} (h : ∀ a, Q a) (i : Inquiry α) :
    i.Gives Q := by
  induction i generalizing Q with
  | answer result => exact fun a _ => h a
  | ask question refuted possible ihr ihp => exact ⟨ihr h, ihp h⟩
  | andThen first f ih => exact ih fun a b _ => h b

theorem Inquiry.fst_close {α : Type} (r : Except Fault α × Nat) : (close r).1 = r.1 := by
  obtain ⟨_ | a, n⟩ := r <;> rfl

theorem Inquiry.Gives.eval {α : Type} {Q : α → Prop} {i : Inquiry α} (h : i.Gives Q)
    (decide : List Formula → Verdict) (known : List Formula) :
    EvmAudit.Gives Q (i.eval decide known).1 := by
  induction i generalizing known Q with
  | answer result => exact h
  | ask question refuted possible ihr ihp =>
    cases question with
    | error e => exact gives_error e
    | ok f =>
      rw [Inquiry.eval]
      cases decide (known ++ [f]) with
      | unknown => exact gives_error _
      | unsat => exact (Inquiry.fst_close _).symm ▸ ihr h.1 _
      | sat values => exact (Inquiry.fst_close _).symm ▸ ihp h.2 _
  | andThen first f ih =>
    have hfirst := ih h known
    rw [Inquiry.eval]
    generalize first.eval decide known = r at hfirst ⊢
    obtain ⟨_ | a, n⟩ := r
    · exact gives_error _
    · exact hfirst a rfl

/-! ### Computations -/

namespace Exec

variable {α β : Type} {R : Machine → Machine → Prop} {K : Kind} {C D : Nat → Prop}
  {Q : Nat → α → Prop}
variable {x : Exec α} {P : Nat → β → Prop} {ctx : Context}

/-- However the computation ends, the relation leads to its last state. When it succeeds, the state
stays of the kind, and the result satisfies `Q` for every name that is still to be given out. -/
def Holds (R : Machine → Machine → Prop) (K : Kind) (C : Nat → Prop) (x : Exec α)
    (Q : Nat → α → Prop) : Prop :=
  Within R x ∧ ∀ m a m', x.outcome m = (.ok a, m') → K.Leads C (Q · a) m m'

abbrev Done (_ : Nat) (_ : α) : Prop := True

theorem Holds.within (h : Holds R .any (fun _ => True) x Q) : Within R x := h.1

theorem Holds.imp {Q' : Nat → α → Prop} (hx : Holds R K C x Q) (hc : ∀ k, D k → C k)
    (hq : ∀ k a, D k → Q k a → Q' k a) : Holds R K D x Q' :=
  ⟨hx.1, fun m a m' h => (hx.2 m a m' h).imp hc fun k => hq k a⟩

theorem Holds.of (hx : Holds R K C x Q) (hc : ∀ k, D k → C k) : Holds R K D x Q :=
  hx.imp hc fun _ _ _ h => h

theorem holds_ite {c : Prop} [Decidable c] {y : Exec α} (hx : c → Holds R K C x Q)
    (hy : ¬ c → Holds R K C y Q) : Holds R K C (if c then x else y) Q := by
  split
  · exact hx ‹_›
  · exact hy ‹_›

variable [K.Lawful]

/-- The parts in which no item, name or formula stands. -/
abbrev nameless : List Part :=
  [.pc, .bytes, .calls, .overflowPcs, .fees, .analysis, .varNames, .visitedPcs, .edges, .affected,
    .revertible, .problems, .records, .trace, .executed, .recipients, .requests, .log]

theorem leads_of_alike {m m' : Machine} (h : m.AlikeBut nameless m') :
    K.Leads C (fun _ => True) m m' := by
  have hnames := h.names
  have hsolver := h.solver
  have hgraph := h.graph
  have hbalance := h.balance
  refine .of_quiet (congrArg Names.other hnames) (congrArg Solver.frames hsolver) h.conditions
    fun k _ hm => ⟨⟨hm.path.items.of_alike h (by decide), hbalance ▸ hm.path.balance⟩, ?_, trivial⟩
  exact hgraph ▸ hm.graph

theorem holds_quiet (hR : Within R x) (h : Touches nameless x) : Holds R K C x Done := by
  exact ⟨hR, fun m a m' ho => leads_of_alike (h.alike ho)⟩

variable [Journey R]

theorem Holds.bind {f : α → Exec β} (hx : Holds R K C x Q)
    (hf : ∀ a, Holds R K (fun k => C k ∧ Q k a) (f a) P) : Holds R K C (x >>= f) P := by
  refine ⟨hx.1.bind fun a => (hf a).1, fun m b m' h => ?_⟩
  obtain ⟨a, m₁, hx', hf'⟩ := outcome_bind_eq_ok.1 h
  exact (hx.2 m a m₁ hx').trans ((hf a).2 m₁ b m' hf')

theorem holds_still (h : ∀ m, ∃ r, x.outcome m = (r, m) ∧ ∀ a, r = .ok a → ∀ k, C k → m.Fits K k →
    Q k a) : Holds R K C x Q := by
  refine ⟨fun m => ?_, fun m a m' ho => ?_⟩ <;> obtain ⟨r, hr, hq⟩ := h m
  · rw [hr]
    exact Journey.refl m
  · rw [hr] at ho
    obtain ⟨rfl, rfl⟩ := Prod.mk.inj ho
    exact .of_still rfl (hq a rfl)

theorem holds_ofExcept {x : Except Fault α} (h : ∀ k, C k → Gives (Q k) x) :
    Holds R K C (ofExcept x) Q :=
  holds_still fun _ => ⟨x, rfl, fun a ha k hC _ => h k hC a ha⟩

theorem holds_value (x : Except Fault α) : Holds R K C (ofExcept x) Done :=
  holds_ofExcept fun _ _ => gives_trivial _

theorem holds_pure {a : α} (h : ∀ k, C k → Q k a) : Holds R K C (pure a) Q :=
  holds_ofExcept (x := .ok a) fun k hC => gives_ok (h k hC)

theorem holds_throw (e : Fault) : Holds R K C (throw e : Exec α) Q :=
  holds_ofExcept (x := .error e) fun _ _ => gives_error e

theorem holds_getPath : Holds R K C getPath fun k p => p.Fits K k :=
  holds_still fun m => ⟨.ok m.path, rfl, by rintro _ ⟨⟩ k _ hm; exact hm.path⟩

theorem holds_getShared : Holds R K C getShared fun k s => s.graph.Branches (K.formula k) :=
  holds_still fun m => ⟨.ok m.shared, rfl, by rintro _ ⟨⟩ k _ hm; exact hm.graph⟩

theorem holds_getWorld : Holds R K C getWorld fun k w => w.Fits K k :=
  holds_getPath.bind fun _ => holds_pure fun _ h =>
  ⟨h.2.items.storage, h.2.items.active, h.2.balance⟩

omit [K.Lawful] in
theorem holds_tryCatch_throw {f : Fault → Exec α} (hx : Holds R K C x Q) (hR : ∀ e, Within R (f e))
    (hf : ∀ e m, ∃ e' m', (f e).outcome m = (.error e', m')) : Holds R K C (tryCatch x f) Q := by
  refine ⟨touches_tryCatch hx.1 hR, fun m a m' h => ?_⟩
  rw [outcome_tryCatch] at h
  rcases ho : x.outcome m with ⟨e | b, m₁⟩ <;> rw [ho] at h
  · obtain ⟨e', m₂, hf⟩ := hf e m₁
    dsimp only at h
    rw [hf] at h
    cases h
  · cases h
    exact hx.2 m a m' ho

omit [Journey R] in
theorem leads_modifyPath {f : Path → Path} (hc : ∀ p, (f p).conditions = p.conditions)
    (h : ∀ k p, C k → p.Fits K k → (f p).Fits K k) (m : Machine) (a : Unit) (m' : Machine)
    (ho : (modifyPath f).outcome m = (.ok a, m')) : K.Leads C (fun _ => True) m m' := by
  cases ho
  exact .of_quiet rfl rfl (hc m.path) fun k hC hm => ⟨h k m.path hC hm.path, hm.graph, trivial⟩

omit [Journey R] in
theorem leads_modifyWorld {f : World → World}
    (h : ∀ k (p : Path), C k → p.Fits K k → Path.Fits K k { p with world := f p.world })
    (m : Machine) (a : Unit) (m' : Machine) (ho : (modifyWorld f).outcome m = (.ok a, m')) :
    K.Leads C (fun _ => True) m m' := by
  cases ho
  exact .of_quiet rfl rfl rfl fun k hC hm => ⟨h k m.path hC hm.path, hm.graph, trivial⟩

end Exec

end EvmAudit
