import EvmAudit.Proofs.Machine.Kinds

/-! What instructions are made of, and what each of these computations does to the state: which part
of it changes, and what it needs of the items to keep the state of its kind. -/

namespace EvmAudit.Exec

variable {α β : Type} {ctx : Context} {ps : List Part}
variable {x : Exec α}

section Permits

variable {R : Machine → Machine → Prop} [Permits R ps]
variable {K : Kind} {C : Nat → Prop} {Q : Nat → α → Prop} {v : Value} {name : String}

theorem touches_step (p : Part) [Among p ps]
    (h : ∀ m : Machine, ∃ content, p.Step (m.part p) content ∧
      (x.outcome m).2 = m.replace p content) : Within R x := by
  intro m
  obtain ⟨content, hstep, hm⟩ := h m
  exact hm ▸ Permits.replace Among.mem m hstep

theorem touches_of_replace (p : Part) [Among p ps]
    (h : ∀ m, ∃ content, (x.outcome m).2 = m.replace p content) :
    Within (Machine.AlikeBut ps) x := by
  intro m
  obtain ⟨content, hm⟩ := h m
  exact hm ▸ .of_replace Among.mem m content

/-! ### Parts of which no kind says anything -/

@[grind ←] theorem touches_need (n : Nat) [Journey R] : Within R (need n) := by
  grind [need]

@[grind ←] theorem touches_advance (n : Int) [Among .pc ps] : Within R (advance n) :=
  touches_step .pc fun _ => ⟨_, trivial, rfl⟩

theorem touches_noteCondition (pc : Int) [Among .analysis ps] :
    Within (Machine.AlikeBut ps) (noteCondition pc) :=
  touches_of_replace .analysis fun _ => ⟨(_, _, _, _), rfl⟩

@[grind ←] theorem touches_addCondition (c : Condition) [Among .conditions ps] :
    Within R (addCondition c) :=
  touches_step .conditions fun _ => ⟨_, ⟨c, rfl⟩, rfl⟩

@[grind ←] theorem touches_say (level : Level) (text : String) [Among .log ps] :
    Within R (say level text) :=
  touches_step .log fun _ => ⟨_, trivial, rfl⟩

@[grind ←] theorem touches_noteParameters (params : List Parameter) (n : Int)
    [Among .varNames ps] : Within R (noteParameters params n) :=
  touches_step .varNames fun _ => ⟨_, trivial, rfl⟩

theorem touches_checksWrap (block : Int) [Journey R] : Within R (checksWrap block) := by
  grind [checksWrap]

theorem touches_noteOverflow [Among .problems ps] [Among .overflowPcs ps] : Within R noteOverflow :=
  touches_pc.bind fun _ => Within.bind (touches_step .problems fun _ => ⟨_, ⟨_, _, _, rfl⟩, rfl⟩)
    fun _ => touches_step .overflowPcs fun _ => ⟨_, trivial, rfl⟩

theorem touches_noteUnderflow [Among .problems ps] : Within R noteUnderflow :=
  touches_pc.bind fun _ => touches_step .problems fun _ => ⟨_, ⟨_, _, _, rfl⟩, rfl⟩

theorem touches_extendBytes (address : Int) [Among .bytes ps] :
    Within R (extendBytes ctx address) := by
  refine touches_getPath.bind fun path => ?_
  dsimp only
  split
  · exact touches_throw _
  · split
    · exact touches_throw _
    · exact touches_step .bytes fun _ => ⟨_, trivial, rfl⟩

theorem touches_setByte (address : Int) (v : Value) [Among .bytes ps] :
    Within R (setByte address v) := by
  refine touches_getPath.bind fun path => ?_
  dsimp only
  generalize (if address < 0 then address + path.bytes.size else address) = index
  split
  · exact touches_throw _
  · exact touches_step .bytes fun _ => ⟨_, trivial, rfl⟩

theorem touches_setBytes (address : Int) (n : Nat) (v : Value) [Among .bytes ps] :
    Within R (setBytes address n v) := by
  induction n generalizing v with
  | zero => exact touches_pure ()
  | succ n ih =>
    exact (touches_ofExcept _).bind fun low => (touches_setByte _ low).bind fun _ =>
      (touches_ofExcept _).bind fun high => ih high

@[grind ←] theorem touches_storeBytes (address v : Value) [Among .bytes ps] :
    Within R (storeBytes ctx address v) := by
  unfold storeBytes
  split
  · exact (touches_extendBytes _).bind fun _ => touches_setBytes _ _ _
  · exact touches_pure ()

theorem touches_remoteOf [Journey R] : Within R (remoteOf ctx) := by
  grind [remoteOf]

theorem touches_ask (remote : Remote) (url : String) [Among .requests ps] :
    Within R (ask remote url) := by
  refine Within.bind (touches_step .requests fun _ => ⟨_, trivial, rfl⟩) fun _ => ?_
  split
  · exact touches_throw _
  · exact touches_ofExcept _

theorem touches_reporting {text : String} (hx : Within R x) [Among .log ps] :
    Within R (reporting text x) :=
  touches_tryCatch hx fun _ => (touches_say _ _).bind fun _ => touches_throw _

theorem touches_askCode (n : Int) [Among .requests ps] [Among .log ps] : Within R (askCode ctx n) :=
  touches_remoteOf.bind fun _ => touches_reporting
    ((touches_ask _ _).bind fun _ => touches_ofExcept _)

theorem touches_askStorage (n : Int) [Among .requests ps] [Among .log ps] :
    Within R (askStorage ctx n) := by
  refine touches_remoteOf.bind fun _ => Within.bind (touches_reporting
    ((touches_ask _ _).bind fun _ => touches_ofExcept _)) fun result => ?_
  split
  · exact touches_ofExcept _
  · exact touches_throw _

@[grind ←] theorem touches_codeText [Journey R] : Within R (codeText ctx) := by
  grind [codeText]

theorem touches_storageLabel [Journey R] : Within R (storageLabel ctx) := by
  grind [storageLabel]

theorem touches_number (n : Option Int) [Journey R] : Within R (number n) := by
  cases n with
  | none => exact touches_throw _
  | some n => exact touches_pure n

@[grind ←] theorem touches_targetOf (v : Value) [Journey R] : Within R (targetOf ctx v) := by
  grind [targetOf]

theorem touches_unknown (name : String) [Among .log ps] : Within R (unknown ctx name) :=
  touches_ite ((touches_say _ _).bind fun _ => (touches_throw _).bind fun _ => touches_throw _)
    (touches_throw _)

theorem touches_noteCall [Among .calls ps] [Among .affected ps] : Within R noteCall := by
  refine touches_pc.bind fun n =>
    Within.bind (touches_step .calls fun _ => ⟨_, trivial, rfl⟩) fun _ => ?_
  exact touches_getPath.bind fun path => touches_step .affected fun _ => ⟨_, trivial, rfl⟩

@[grind ←] theorem touches_noteRecipient (recipient : Value) [Among .recipients ps] :
    Within R (noteRecipient ctx recipient) := by
  refine touches_ite (touches_getShared.bind fun s => ?_) (touches_pure ())
  split
  · exact touches_throw _
  · exact touches_ite (touches_step .recipients fun _ => ⟨_, trivial, rfl⟩) (touches_pure ())

/-! ### The solver -/

@[grind ←] theorem touches_pushScope [Asks R] : Within R pushScope := fun m => Asks.ask m _

@[grind ←] theorem touches_popScope [Journey R] [Asks R] : Within R popScope := by
  have hsolver (f : Solver → Solver) : Within R (modifySolver f) := fun m => Asks.ask m _
  grind [popScope]

@[grind ←] theorem touches_assert (f : Formula) [Among .solver ps] : Within R (assert f) :=
  touches_step .solver fun m => ⟨_, .add f m.shared.solver, rfl⟩

@[grind ←] theorem touches_assertThat (c : Condition) [Among .solver ps] :
    Within R (assertThat c) :=
  touches_assert _

@[grind ←] theorem touches_verdict [Among .solver ps] : Within R (verdict ctx) := by
  refine touches_step .solver fun m => ⟨_, ?_, rfl⟩
  exact .of_frames rfl

@[grind ←] theorem touches_inquire (i : Inquiry α) [Asks R] : Within R (inquire ctx i) := by
  intro m
  obtain ⟨inner, s, -, -, hm⟩ := i.opens_inquire ctx m
  exact (congrArg Prod.snd hm).symm ▸ Asks.ask m s

/-- A question that can be put closes its scope. -/
theorem touches_whether (f : Formula) [Among .solver ps] :
    Within R (inquire ctx (.whether (.ok f))) := by
  refine touches_step .solver fun m => ?_
  obtain ⟨inner, s, hlen, hs, hm⟩ := (Inquiry.whether (.ok f)).opens_inquire ctx m
  have hclosed : ((Inquiry.whether (.ok f)).eval ctx.decide m.shared.solver.assertions).2 = 0 := by
    unfold Inquiry.whether Inquiry.eval
    dsimp only
    split <;> rfl
  rw [List.length_eq_zero_iff.1 (hlen.trans hclosed)] at hs
  exact ⟨s, .of_frames hs.symm, congrArg Prod.snd hm⟩

theorem outcome_inquire_ok {i : Inquiry α} {m m' : Machine} {a : α}
    (h : (inquire ctx i).outcome m = (.ok a, m')) :
    (i.eval ctx.decide m.shared.solver.assertions).1 = .ok a ∧
      ∃ s, s.frames = m.shared.solver.frames ∧ m' = m.withSolver s := by
  obtain ⟨inner, s, hlen, hs, ho⟩ := i.opens_inquire ctx m
  rw [h] at ho
  obtain ⟨ha, hm⟩ := Prod.mk.inj ho
  rw [i.eval_ok ctx.decide _ a ha.symm] at hlen
  rw [List.length_eq_zero_iff.1 hlen] at hs
  exact ⟨ha.symm, s, hs, hm⟩

/-! ### Jumps and payments -/

theorem within_updateBlock {block : Int} {f : Block → Block} [Journey R]
    (h : ∀ m : Machine, R m (m.replace .graph (m.shared.graph.updateBlock block f))) :
    Within R (updateBlock block f) := by
  refine touches_getShared.bind fun s => ?_
  split
  · exact touches_throw _
  · exact h

@[grind ←] theorem touches_updateBlock (block : Int) (f : Block → Block) [Among .graph ps] :
    Within (Machine.AlikeBut ps) (updateBlock block f) :=
  within_updateBlock fun m => .of_replace (q := .graph) Among.mem m _

theorem touches_setTarget (block : Int) (v : Value) (target : Int) [Among .graph ps] :
    Within R (setTarget block v target) := by
  refine within_updateBlock fun m => Permits.replace (p := .graph) Among.mem m
    ⟨m.shared.graph.same_updateBlock block fun _ => rfl,
     m.shared.graph.map_updateBlock Block.branch block fun b => ?_⟩
  unfold Block.setTarget
  split <;> rfl

@[grind ←] theorem touches_addEdge (block target : Int) [Among .graph ps] :
    Within R (addEdge block target) := by
  refine touches_getShared.bind fun s => ?_
  split
  · exact touches_throw _
  · refine touches_step .graph fun m =>
      ⟨_, ⟨m.shared.graph.same_addEdge block target, fun key => ?_⟩, rfl⟩
    have hblocks : (m.shared.graph.addEdge block target).blocks = m.shared.graph.blocks := by
      unfold Graph.addEdge
      dsimp only
      split <;> rfl
    exact congrArg (fun blocks : Table Int Block => (blocks.get? key).map Block.branch) hblocks

/-- What is noted of a payment that is possible. -/
def notePayment (c : Condition) : Exec Bool := do
  addCondition c
  noteCondition ((← pc) - 1)
  return true

theorem touches_notePayment [Among .conditions ps] [Among .analysis ps] (c : Condition) :
    Within (Machine.AlikeBut ps) (notePayment c) :=
  (touches_addCondition c).bind fun _ => touches_pc.bind fun _ =>
    (touches_noteCondition _).bind fun _ => touches_pure true

/-! ### Items -/

section Items

variable [K.Lawful]

theorem holds_inquire {i : Inquiry α} [Asks R] (h : ∀ k, C k → i.Gives (Q k)) :
    Holds R K C (inquire ctx i) Q := by
  refine ⟨touches_inquire i, fun m a m' ho => ?_⟩
  obtain ⟨ha, s, hs, rfl⟩ := outcome_inquire_ok ho
  exact .of_quiet rfl hs rfl fun k hC hm =>
    ⟨hm.path, hm.graph, (h k hC).eval ctx.decide m.shared.solver.assertions a ha⟩

theorem holds_whether (f : Formula) [Among .solver ps] :
    Holds R K C (inquire ctx (.whether (.ok f))) Done := by
  refine ⟨touches_whether f, fun m a m' ho => ?_⟩
  obtain ⟨-, s, hs, rfl⟩ := outcome_inquire_ok ho
  exact .of_quiet rfl hs rfl fun k _ hm => ⟨hm.path, hm.graph, trivial⟩

theorem holds_pc [Journey R] : Holds R K C pc Done :=
  holds_getWorld.bind fun _ => holds_pure fun _ _ => trivial

theorem holds_need (n : Nat) [Journey R] : Holds R K C (need n) Done :=
  holds_quiet (touches_need n) (touches_need n)

theorem holds_advance (n : Int) [Among .pc ps] : Holds R K C (advance n) Done :=
  holds_quiet (touches_advance n) (touches_advance n)

theorem holds_setStack {f : Path → List Value} [Among .stack ps]
    (h : ∀ k p, C k → p.Fits K k → ∀ v ∈ f p, K.item k v) :
    Holds R K C (modifyPath fun p => { p with stack := f p }) Done :=
  ⟨touches_step .stack fun _ => ⟨_, trivial, rfl⟩, leads_modifyPath (fun _ => rfl) fun k p hC hp =>
    { items := { hp.items with stack := h k p hC hp }, balance := hp.balance }⟩

theorem holds_push (h : ∀ k, C k → K.item k v) [Among .stack ps] : Holds R K C (push v) Done :=
  holds_setStack fun k p hC hp w hw => by
    rcases List.mem_cons.1 hw with rfl | hw
    · exact h k hC
    · exact hp.items.stack w hw

theorem holds_pop [Among .stack ps] : Holds R K C pop K.item := by
  refine holds_getPath.bind fun p => ?_
  rcases hs : p.stack with _ | ⟨v, rest⟩
  · exact holds_throw _
  · refine Holds.bind (Q := Done) (holds_setStack fun k q hC _ w hw => ?_) fun _ =>
      holds_pure fun k hC => ?_
    · exact hC.2.items.stack w (hs ▸ List.mem_cons_of_mem v hw)
    · exact hC.1.2.items.stack v (hs ▸ List.mem_cons_self)

theorem holds_drop (n : Nat) [Among .stack ps] : Holds R K C (drop n) Done := by
  induction n generalizing C with
  | zero => exact holds_pure fun _ _ => trivial
  | succ n ih => exact holds_pop.bind fun _ => ih

theorem holds_begin (n : Nat) (hx : Holds R K C x Q) [Among .pc ps] :
    Holds R K C (do need n; advance 1; x) Q :=
  (holds_need n).bind fun _ => (holds_advance 1).bind fun _ => hx.of fun _ h => h.1.1

theorem holds_setWord (key : Key) (h : ∀ k, C k → K.item k v) [Among .words ps] :
    Holds R K C (setWord key v) Done :=
  ⟨touches_step .words fun _ => ⟨_, trivial, rfl⟩, leads_modifyPath (fun _ => rfl) fun k _ hC hp =>
    { items := { hp.items with words := hp.items.words.insert (h k hC) }, balance := hp.balance }⟩

theorem holds_clearWords [Among .words ps] : Holds R K C clearWords Done :=
  ⟨touches_step .words fun _ => ⟨_, trivial, rfl⟩, leads_modifyPath (fun _ => rfl) fun _ _ _ hp =>
    { items := { hp.items with words := Table.all_empty }, balance := hp.balance }⟩

theorem holds_setActive (h : ∀ k, C k → K.size k v) [Among .activeWords ps] :
    Holds R K C (setActive v) Done :=
  ⟨touches_step .activeWords fun _ => ⟨_, trivial, rfl⟩, leads_modifyWorld fun k _ hC hp =>
    { items := { hp.items with active := h k hC }, balance := hp.balance }⟩

theorem holds_setStorage (key : Key) (h : ∀ k, C k → K.item k v) [Among .storage ps] :
    Holds R K C (setStorage key v) Done :=
  ⟨touches_step .storage fun _ => ⟨_, trivial, rfl⟩, leads_modifyWorld fun k _ hC hp =>
    { items := { hp.items with storage := hp.items.storage.insert (h k hC) }
      balance := hp.balance }⟩

theorem holds_setBalance (owner : String) (h : ∀ k, C k → K.held k v) [Among .balance ps] :
    Holds R K C (setBalance owner v) Done :=
  ⟨touches_step .balance fun _ => ⟨_, trivial, rfl⟩, leads_modifyWorld fun k _ hC hp =>
    { items := { hp.items with }, balance := hp.balance.insert (h k hC) }⟩

theorem holds_setHash (content : String) (h : ∀ k, C k → K.item k v) [Among .hashes ps] :
    Holds R K C (modifyPath fun p => { p with hashes := p.hashes.insert content v }) Done :=
  ⟨touches_step .hashes fun _ => ⟨_, trivial, rfl⟩, leads_modifyPath (fun _ => rfl) fun k _ hC hp =>
    { items := { hp.items with hashes := hp.items.hashes.insert (h k hC) }, balance := hp.balance }⟩

theorem holds_declare (h : ∀ k, C k → K.item k (.var name)) [Among .vars ps] :
    Holds R K C (declare name) Done :=
  ⟨touches_step .vars fun _ => ⟨_, ⟨name, rfl⟩, rfl⟩,
    leads_modifyPath (fun _ => rfl) fun k _ hC hp =>
    { items := { hp.items with vars := hp.items.vars.insert (h k hC) }, balance := hp.balance }⟩

theorem holds_wordNamed (h : ∀ k, C k → K.item k (.var name)) [Among .vars ps] :
    Holds R K C (wordNamed name) K.item := by
  refine holds_getPath.bind fun p => ?_
  cases hv : p.vars.get? name with
  | some v => exact holds_pure fun k hC => hC.2.items.vars name v hv
  | none =>
    exact (holds_declare fun k hC => h k hC.1).bind fun _ => holds_pure fun k hC => h k hC.1.1

theorem holds_fresh {f : Names → String × Names} [Names.Counts f] [Among .names ps]
    {Q : Nat → String → Prop} (h : ∀ k g, (f g).2.other < k → Q k (f g).1) :
    Holds R K C (fresh f) Q := by
  refine ⟨touches_step .names fun m => ⟨_, Names.Counts.grow m.shared.names, rfl⟩, ?_⟩
  rintro m _ _ ⟨⟩
  refine ⟨(Names.Counts.grow (f := f) m.shared.names).other, fun k hk _ hm => ?_,
    fun _ => Kind.Lawful.still rfl rfl⟩
  exact ⟨⟨hm.path, hm.graph, hm.assertions⟩, h k m.shared.names hk⟩

theorem holds_balanceOf (owner : String) [Journey R] : Holds R K C (balanceOf owner) K.held := by
  refine holds_getWorld.bind fun world => ?_
  split
  next hv =>
    exact holds_pure fun k h => h.2.balance _ _ hv
  · exact holds_throw _

theorem holds_updateBlock {block : Int} {f : Block → Block} (hR : Within R (updateBlock block f))
    (hf : ∀ k b v c, C k → (f b).branch = some v → v.asCondition = .ok c →
      b.branch = some v ∨ K.formula k c.formula) : Holds R K C (updateBlock block f) Done := by
  refine ⟨hR, fun m a m' ho => ?_⟩
  obtain ⟨s, _, hs, ho⟩ := outcome_bind_eq_ok.1 ho
  cases hs
  split at ho
  · cases ho
  rename_i b₀ hb₀
  cases ho
  refine .of_quiet rfl rfl rfl fun k hC hm => ⟨hm.path, fun key b v c hb hv hc => ?_, trivial⟩
  change (m.shared.graph.updateBlock block f).blocks.get? key = some b at hb
  rw [Graph.updateBlock, hb₀] at hb
  by_cases h : key = block
  · subst h
    rw [Table.get?_insert_self] at hb
    cases hb
    exact (hf k b₀ v c hC hv hc).elim (hm.graph key b₀ v c hb₀ · hc) id
  · rw [Table.get?_insert_of_ne h] at hb
    exact hm.graph key b v c hb hv hc

theorem holds_setTarget (block : Int) (v : Value) (target : Int) [Among .graph ps] :
    Holds R K C (setTarget block v target) Done :=
  holds_updateBlock (touches_setTarget block v target) fun _ _ _ _ _ h _ => .inl h

theorem holds_addEdge (block target : Int) [Among .graph ps] :
    Holds R K C (addEdge block target) Done := by
  refine ⟨touches_addEdge block target, fun m a m' ho => ?_⟩
  obtain ⟨s, _, hs, ho⟩ := outcome_bind_eq_ok.1 ho
  cases hs
  split at ho
  · cases ho
  cases ho
  refine .of_quiet rfl rfl rfl fun k _ hm => ⟨hm.path, ?_, trivial⟩
  change (m.shared.graph.addEdge block target).Branches (K.formula k)
  unfold Graph.addEdge
  dsimp only
  split <;> exact hm.graph

end Items

/-! ### Without a kind -/

@[grind ←] theorem touches_push (v : Value) [Among .stack ps] : Within R (push v) :=
  (holds_push fun _ _ => trivial).within

@[grind ←] theorem touches_pop [Among .stack ps] : Within R pop := holds_pop.within

@[grind ←] theorem touches_drop (n : Nat) [Among .stack ps] : Within R (drop n) :=
  (holds_drop n).within

@[grind ←] theorem touches_declare (name : String) [Among .vars ps] : Within R (declare name) :=
  (holds_declare fun _ _ => trivial).within

@[grind ←] theorem touches_wordNamed (name : String) [Among .vars ps] : Within R (wordNamed name) :=
  (holds_wordNamed fun _ _ => trivial).within

@[grind ←] theorem touches_fresh (f : Names → String × Names) [Names.Counts f] [Among .names ps] :
    Within R (fresh f) :=
  (holds_fresh (Q := Done) fun _ _ _ => trivial).within

@[grind ←] theorem touches_setWord (key : Key) (v : Value) [Among .words ps] :
    Within R (setWord key v) :=
  (holds_setWord key fun _ _ => trivial).within

@[grind ←] theorem touches_clearWords [Among .words ps] : Within R clearWords :=
  holds_clearWords.within

@[grind ←] theorem touches_setActive (v : Value) [Among .activeWords ps] : Within R (setActive v) :=
  (holds_setActive fun _ _ => trivial).within

theorem touches_setStorage (key : Key) (v : Value) [Among .storage ps] :
    Within R (setStorage key v) :=
  (holds_setStorage key fun _ _ => trivial).within

@[grind ←] theorem touches_setBalance (owner : String) (v : Value) [Among .balance ps] :
    Within R (setBalance owner v) :=
  (holds_setBalance owner fun _ _ => trivial).within

theorem touches_balanceOf (owner : String) [Journey R] : Within R (balanceOf owner) :=
  (holds_balanceOf owner).within

end Permits

end EvmAudit.Exec
