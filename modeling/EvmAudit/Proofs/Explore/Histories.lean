import EvmAudit.Proofs.Explore.Lasting
import EvmAudit.Proofs.Machine.Naming
import EvmAudit.Proofs.Machine.Opening

/-! What a path comes to depends on the instructions that are executed on it. From block to block
nothing else changes but where control is, and under which conditions. -/

namespace EvmAudit

def Path.wordFor (p : Path) (name : String) : Value := (p.vars.get? name).getD (.var name)

def Path.Continues (p p' : Path) : Prop :=
  ∃ pc conditions conditionPcs, p' = { p with
    world := { p.world with pc }
    conditions := p.conditions ++ conditions
    analysis := { p.analysis with conditionPcs } }

theorem Path.Continues.move (p : Path) (pc : Int) :
    p.Continues { p with world := { p.world with pc } } :=
  ⟨pc, [], p.analysis.conditionPcs, by rw [List.append_nil]⟩

namespace Exec

variable {ctx : Context} {entries : Table Int String}
variable {back front texts : List String} {m m' : Machine} {c root : Call}
  {before history : List (String × Machine)} {s s' : String × Machine} {stack : List Value}
    {text : String} {site : Site} {g : Graph}

def steps (ctx : Context) (site : Site) : List String → Machine → List (String × Machine)
  | [], _ => []
  | text :: rest, m =>
    (text, m) :: match (traced ctx site text).outcome m with
      | (.ok (), m₁) => steps ctx site rest m₁
      | _ => []

def Call.steps (ctx : Context) (entries : Table Int String) (c : Call) : List (String × Machine) :=
  match (enter ctx entries c.visit).outcome c.machine with
  | (.ok (some (site, texts)), m₁) => Exec.steps ctx site texts m₁
  | _ => []

/-- These instructions are executed on the path from the first call to the other one. -/
inductive Trail (ctx : Context) (entries : Table Int String) (root : Call) :
    Call → List (String × Machine) → Prop
  | start : Trail ctx entries root root []
  | next {c d : Call} {before : List (String × Machine)} (h : Trail ctx entries root c before)
      (hnext : Next ctx entries c d) : Trail ctx entries root d (before ++ c.steps ctx entries)

theorem reach_iff_trail : Reaches ctx entries root c ↔
    ∃ before, Trail ctx entries root c before := by
  constructor
  · intro h
    induction h with
    | refl => exact ⟨[], .start⟩
    | tail _ hnext ih =>
      obtain ⟨before, hbefore⟩ := ih
      exact ⟨_, hbefore.next hnext⟩
  · rintro ⟨before, h⟩
    induction h with
    | start => exact .refl
    | next _ hnext ih => exact ih.tail hnext

theorem steps_split {front back : List (String × Machine)}
    (h : steps ctx site texts m = front ++ (text, m') :: back) : ∃ ts, steps ctx site ts m = front ∧
    (runAll ctx site ts).outcome m = (.ok (), m') := by
  induction texts generalizing m front with
  | nil =>
    have hlength := congrArg List.length h
    simp [steps] at hlength
  | cons first rest ih =>
    rw [steps] at h
    rcases List.append_eq_cons_iff.1 h.symm with ⟨rfl, hhead⟩ | ⟨front', rfl, hrest⟩
    · cases hhead
      exact ⟨[], rfl, rfl⟩
    · rcases ho : (traced ctx site first).outcome m with ⟨e | u, m₁⟩
      · rw [ho] at hrest
        have hlength := congrArg List.length hrest
        simp at hlength
      · rw [ho] at hrest
        obtain ⟨ts, rfl, hrun⟩ := ih hrest
        refine ⟨first :: ts, by rw [steps, ho], ?_⟩
        rw [runAll, outcome_bind, ho]
        exact hrun

theorem mem_steps_iff_ran : s ∈ steps ctx site texts m ↔ Ran ctx site texts m s.1 s.2 := by
  induction texts generalizing m with
  | nil =>
    constructor
    · intro h
      cases h
    · intro h
      cases h
  | cons text rest ih =>
    rw [steps, List.mem_cons]
    constructor
    · rintro (rfl | h)
      · exact .here
      · split at h
        next m₁ hfirst =>
          exact .there hfirst (ih.1 h)
        · cases h
    · intro h
      obtain ⟨text', m'⟩ := s
      cases h with
      | here => exact .inl rfl
      | there hfirst hrest =>
        rw [hfirst]
        exact .inr (ih.2 hrest)

theorem block_of_runs {v : Visit} {text : String} (h : Runs ctx entries v m site text m') :
    site.block = v.block := by
  obtain ⟨texts, m₁, henter, -⟩ := h
  obtain ⟨-, -, hblock, -⟩ := enter_some henter
  exact hblock

theorem mem_steps_iff_runs {c : Call} :
    s ∈ c.steps ctx entries ↔
      ∃ site : Site, site.block = c.visit.block ∧
      Runs ctx entries c.visit c.machine site s.1 s.2 := by
  constructor
  · intro h
    unfold Call.steps at h
    split at h
    next site texts m₁ henter =>
      have hruns : Runs ctx entries c.visit c.machine site s.1 s.2 :=
        ⟨texts, m₁, henter, mem_steps_iff_ran.1 h⟩
      exact ⟨site, block_of_runs hruns, hruns⟩
    · cases h
  · rintro ⟨site, -, texts, m₁, henter, hran⟩
    rw [Call.steps, henter]
    exact mem_steps_iff_ran.2 hran

theorem ready_ok (hfee : ∀ m, (Gas.dynamic ctx (Instruction.ofText text).operation).outcome m =
    (.ok 0, m)) (hmove : noteMove ctx (Instruction.ofText text).operation = pure ())
    (hcall : (Instruction.ofText text).operation ≠ .call)
    (htime : ctx.deadline ≠ some (m.shared.executed + 1)) :
    ((ready ctx text).outcome m).1 = .ok () := by
  obtain ⟨pcs, hvisited⟩ := outcome_markVisited (ticked m)
  rw [ready, outcome_bind, outcome_tick, if_neg htime]
  dsimp only
  rw [outcome_bind, hvisited]
  dsimp only
  rw [prepare]
  split
  · rfl
  · rw [updateAnalysis, Gas.charge, hmove, outcome_bind, outcome_bind, outcome_bind, hfee]
    rfl

theorem traced_result (site : Site) (hready : ((ready ctx text).outcome m).1 = .ok ()) :
    ∃ m₁, m.AlikeBut bookkeeping m₁ ∧
    ((traced ctx site text).outcome m).1 = ((effect ctx site text).outcome m₁).1 := by
  rcases @traced_cases ctx site text m with ⟨e, hfails, -⟩ | ⟨m₁, -, hbefore, hresult, -⟩
  · cases hready.symm.trans hfails
  · exact ⟨m₁, hbefore, hresult⟩

theorem traced_ok {P : Machine → Prop} (hready : ((ready ctx text).outcome m).1 = .ok ())
    (heffect : ∀ m₁, m.AlikeBut bookkeeping m₁ →
      ∃ m₂, (effect ctx site text).outcome m₁ = (.ok (), m₂) ∧
        ∀ m', m₂.AlikeBut bookkeeping m' → P m') :
    ∃ m', Traces ctx site text m m' ∧ P m' := by
  rcases @traced_cases ctx site text m with ⟨e, hfails, -⟩ | ⟨m₁, -, hbefore, hresult, hend⟩
  · cases hready.symm.trans hfails
  · obtain ⟨m₂, hm₂, hP⟩ := heffect m₁ hbefore
    rw [hm₂] at hresult hend
    exact ⟨((traced ctx site text).outcome m).2, Prod.ext hresult rfl, hP _ hend⟩

theorem outcome_wordFor (name : String) (m : Machine) :
    ∃ vars, (wordNamed name).outcome m =
      (.ok (m.path.wordFor name), { m with path := { m.path with vars } }) := by
  rw [wordNamed, outcome_bind_getPath, Path.wordFor]
  dsimp only
  cases m.path.vars.get? name with
  | none => exact ⟨_, rfl⟩
  | some v => exact ⟨_, rfl⟩

theorem Begins.alike (h : Begins ctx g entries root) :
    Machine.AlikeBut [.vars, .conditions, .balance, .transaction] { shared := { graph := g } }
      root.machine := by
  have hstart := @touches_start ctx { shared := { graph := g } }
  rwa [h.started] at hstart

theorem Next.path {d : Call} (h : Next ctx entries c d) :
    ∃ m, Completes ctx entries c m ∧ m.path.Continues d.machine.path := by
  have hfork {remaining : Nat} {v : Visit} {m m₁ : Machine} {site : Site} {cond : Condition}
      {b : Block} (hv : Forks ctx entries v m site cond b m₁) :
      ∃ m₂, Completes ctx entries ⟨remaining, v, m⟩ m₂ ∧ m₁.path = m₂.path := by
    obtain ⟨texts, m₀, m₂, m₃, henter, hrun, hpath, -, honward⟩ := entered_of_onward hv (by nofun)
    obtain ⟨rfl, -⟩ := onward_ok honward
    exact ⟨m₂, ⟨site, texts, m₀, henter, hrun⟩, hpath⟩
  cases h with
  | go hv =>
    obtain ⟨texts, m₀, m₂, m₃, henter, hrun, hpath, -, honward⟩ := entered_of_onward hv (by nofun)
    obtain ⟨-, -, hpath₁, -⟩ := onward_ok honward
    refine ⟨m₂, ⟨_, texts, m₀, henter, hrun⟩, ?_⟩
    rw [hpath₁, hpath]
    exact .move _ _
  | target hv ht =>
    obtain ⟨m, hcompletes, hpath⟩ := hfork hv
    exact ⟨m, hcompletes, _, _, _, by rw [path_approach ht, hpath]⟩
  | fall hv ht hf =>
    obtain ⟨m, hcompletes, hpath⟩ := hfork hv
    exact ⟨m, hcompletes, _, _, _, by rw [path_approach hf, hpath]⟩

/-- Instructions that succeed keep the relation between what has been executed and the state, and so
does what happens between blocks. -/
structure Upholds (ctx : Context) (I : List (String × Machine) → Machine → Prop) : Prop where
  traced {history : List (String × Machine)} {site : Site} {text : String} {m m' : Machine}
    (hbefore : I history m) (h : Traces ctx site text m m') : I (history ++ [(text, m)]) m'
  continues {history : List (String × Machine)} {m m' : Machine} (hbefore : I history m)
    (h : m.path.Continues m'.path) (hnames : m.shared.names.Grow m'.shared.names) : I history m'

/-- Instructions that succeed keep the relation between what has been executed and the path. -/
structure Keeps (ctx : Context) (I : List (String × Machine) → Path → Prop) : Prop where
  traced {history : List (String × Machine)} {site : Site} {text : String} {m m' : Machine}
    (hbefore : I history m.path) (h : Traces ctx site text m m') :
    I (history ++ [(text, m)]) m'.path
  continues {history : List (String × Machine)} {p p' : Path} (hbefore : I history p)
    (h : p.Continues p') : I history p' := by
      rintro _ _ _ hbefore ⟨_, _, _, rfl⟩
      exact hbefore

theorem Keeps.upholds {I : List (String × Machine) → Path → Prop} (hI : Keeps ctx I) :
    Upholds ctx fun history m => I history m.path where
  traced hbefore h := hI.traced hbefore h
  continues hbefore h _ := hI.continues hbefore h

variable {I : List (String × Machine) → Machine → Prop}

theorem Upholds.runAll (hI : Upholds ctx I) (hbefore : I history m)
    (h : (runAll ctx site texts).outcome m = (.ok (), m')) :
    I (history ++ steps ctx site texts m) m' := by
  induction texts generalizing history m with
  | nil =>
    cases h
    simpa [steps] using hbefore
  | cons text rest ih =>
    obtain ⟨_, m₁, hfirst, hrest⟩ := outcome_bind_eq_ok.1 h
    have hrests := ih (hI.traced hbefore hfirst) hrest
    rw [List.append_assoc, List.singleton_append] at hrests
    rw [steps, hfirst]
    exact hrests

theorem Upholds.counted (hI : Upholds ctx I) (hbefore : I history m) (edge : Int × Int) :
    I history (m.counted edge) :=
  hI.continues hbefore (.move m.path m.path.world.pc) (.refl _)

theorem Upholds.completes (hI : Upholds ctx I) (hbefore : I history c.machine)
    (h : Completes ctx entries c m) : I (history ++ c.steps ctx entries) m := by
  obtain ⟨site, texts, m₁, henter, hrun⟩ := h
  have hsteps : c.steps ctx entries = steps ctx site texts m₁ := by rw [Call.steps, henter]
  obtain ⟨-, rfl, -⟩ := enter_some henter
  rw [hsteps]
  exact hI.runAll (hI.counted hbefore _) hrun

theorem maintains_names (root : Call) (g : Names) :
    Maintains ctx entries root fun m => g.Grow m.shared.names := by
  refine maintains_of_alike (fun {c site text m} _ _ hm =>
    hm.trans (naming_traced site text m).grow) (fun {m} hm => ?_) fun {m m'} halike hm => ?_
  · have hnames : (record.outcome m).2.shared.names = m.shared.names :=
      touches_record m .names (by decide)
    rwa [hnames]
  · have hnames := halike.names
    rwa [hnames]

theorem Trail.upholds (h : Trail ctx entries root c before) (hI : Upholds ctx I)
    (hroot : I [] root.machine) : I before c.machine := by
  induction h with
  | start => exact hroot
  | next htrail hnext ih =>
    obtain ⟨m, hcompletes, hcontinues⟩ := hnext.path
    refine hI.continues (hI.completes ih hcompletes) hcontinues ?_
    exact (maintains_names root _).next_of_completes (reach_iff_trail.2 ⟨_, htrail⟩) hcompletes
      (.refl _) hnext

/-- The instruction is executed in an exploration, after these on the same path. -/
def Reached (ctx : Context) (entries : Table Int String) (root : Call)
    (history : List (String × Machine)) (s : String × Machine) : Prop :=
  ∃ c before front back, Trail ctx entries root c before ∧
    c.steps ctx entries = front ++ s :: back ∧ history = before ++ front

theorem exists_reached_iff {P : String × Machine → Prop} :
    (∃ c, Reaches ctx entries root c ∧ ∃ s ∈ c.steps ctx entries, P s) ↔
      ∃ history s, Reached ctx entries root history s ∧ P s := by
  constructor
  · rintro ⟨c, hreach, s, hs, hP⟩
    obtain ⟨before, htrail⟩ := reach_iff_trail.1 hreach
    obtain ⟨front, back, hsteps⟩ := List.append_of_mem hs
    exact ⟨_, s, ⟨c, before, front, back, htrail, hsteps, rfl⟩, hP⟩
  · rintro ⟨history, s, ⟨c, before, front, back, htrail, hsteps, -⟩, hP⟩
    refine ⟨c, reach_iff_trail.2 ⟨before, htrail⟩, s, ?_, hP⟩
    rw [hsteps]
    exact List.mem_append_right _ List.mem_cons_self

theorem Reached.upholds (h : Reached ctx entries root history s) (hI : Upholds ctx I)
    (hroot : I [] root.machine) : I history s.2 := by
  obtain ⟨c, before, front, back, htrail, hsteps, rfl⟩ := h
  have hbefore := htrail.upholds hI hroot
  unfold Call.steps at hsteps
  split at hsteps
  next site texts m₁ henter =>
    obtain ⟨ts, rfl, hrun⟩ := steps_split hsteps
    obtain ⟨-, rfl, -⟩ := enter_some henter
    exact hI.runAll (hI.counted hbefore _) hrun
  · have hlength := congrArg List.length hsteps
    simp at hlength

theorem Reached.keeps {I : List (String × Machine) → Path → Prop}
    (h : Reached ctx entries root history s) (hI : Keeps ctx I) (hroot : I [] root.machine.path) :
    I history s.2.path :=
  h.upholds hI.upholds hroot

theorem keeps_since {Starts : String × Machine → Prop} {Quiet : String → Prop}
    {Post : String × Machine → Path → Prop}
    (hstarts : ∀ {site text m m'}, Traces ctx site text m m' → Starts (text, m) →
    Post (text, m) m'.path) (hquiet : ∀ {w site text m m'}, Traces ctx site text m m' → Quiet text →
      Post w m.path → Post w m'.path) (hcontinues : ∀ {w p p'}, Path.Continues p p' → Post w p →
        Post w p') :
    Keeps ctx fun history p => ∀ before w between, history = before ++ w :: between → Starts w →
      (∀ s ∈ between, Quiet s.1) → Post w p where
  traced hbefore h before w between hsplit hw hbetween := by
    rcases List.eq_nil_or_concat between with rfl | ⟨between, s, rfl⟩
    · obtain ⟨rfl, hlast⟩ := List.append_inj' hsplit rfl
      cases hlast
      exact hstarts h hw
    · rw [List.concat_eq_append] at hsplit hbetween
      rw [← List.cons_append, ← List.append_assoc] at hsplit
      obtain ⟨rfl, hlast⟩ := List.append_inj' hsplit rfl
      cases hlast
      have hlast := hbetween _ (List.mem_append_right _ List.mem_cons_self)
      refine hquiet h hlast (hbefore _ _ _ rfl hw fun s hs => hbetween s ?_)
      exact List.mem_append_left _ hs
  continues hbefore h before w between hsplit hw hbetween :=
    hcontinues h (hbefore before w between hsplit hw hbetween)

theorem Trail.reached_of_split {front back : List (String × Machine)}
    (h : Trail ctx entries root c before) (hsplit : before = front ++ s :: back) :
    Reached ctx entries root front s := by
  induction h generalizing back with
  | start =>
    have hlength := congrArg List.length hsplit
    simp at hlength
  | @next c d before htrail _ ih =>
    -- the instruction is one of the last block, or one before it
    rcases List.append_eq_append_iff.1 hsplit with ⟨rest, rfl, hrest⟩ | ⟨rest, rfl, hrest⟩
    · exact ⟨c, before, rest, back, htrail, hrest, rfl⟩
    · rcases List.append_eq_cons_iff.1 hrest.symm with ⟨rfl, hsteps⟩ | ⟨rest', rfl, -⟩
      · exact ⟨c, _, [], back, htrail, by simpa using hsteps, by simp⟩
      · exact ih rfl

theorem Reached.of_split {front back : List (String × Machine)}
    (h : Reached ctx entries root history s) (hsplit : history = front ++ s' :: back) :
    Reached ctx entries root front s' := by
  obtain ⟨c, before, begun, rest, htrail, hsteps, rfl⟩ := h
  rcases List.append_eq_append_iff.1 hsplit with ⟨as, rfl, rfl⟩ | ⟨as, rfl, has⟩
  · exact ⟨c, before, as, back ++ s :: rest, htrail, by rw [hsteps]; simp, rfl⟩
  · rcases List.append_eq_cons_iff.1 has.symm with ⟨rfl, rfl⟩ | ⟨as', rfl, -⟩
    · exact ⟨c, _, [], back ++ s :: rest, htrail, by rw [hsteps]; simp, by simp⟩
    · exact htrail.reached_of_split rfl

theorem Reached.of_mem (h : Reached ctx entries root history s) (hs : s' ∈ history) :
    ∃ history', Reached ctx entries root history' s' := by
  obtain ⟨front, back, hsplit⟩ := List.append_of_mem hs
  exact ⟨front, h.of_split hsplit⟩

/-! ### What is gathered -/

/-- A set that instructions add to, and that nothing else in an exploration changes. What an
instruction adds can depend on the block it is in. -/
structure Gathers {ι : Type} (ctx : Context) (Q : Machine → Set ι)
    (A : Int → String × Machine → Set ι) : Prop where
  traced (site : Site) (text : String) (m : Machine) :
    Q ((traced ctx site text).outcome m).2 = Q m ∪ A site.block (text, m)
  record (m : Machine) : Q (record.outcome m).2 = Q m
  alike {m m' : Machine} (h : m.AlikeBut travel m') : Q m' = Q m

namespace Gathers

variable {ι : Type} {Q : Machine → Set ι} {A : Int → String × Machine → Set ι} (h : Gathers ctx Q A)

include h

theorem maintains (entries : Table Int String) (root : Call) (x : ι) :
    Maintains ctx entries root fun m => x ∈ Q m :=
  maintains_of_alike (fun _ _ hm => by rw [h.traced]; exact .inl hm) (fun hm => by rwa [h.record])
    fun hm hx => by rwa [h.alike hm]

theorem mem_ending (root : Call) (x : ι) :
    x ∈ Q (root.ending ctx entries) ↔ x ∈ Q root.machine ∨
      ∃ c, Reaches ctx entries root c ∧ ∃ s ∈ c.steps ctx entries, x ∈ A c.visit.block s := by
  have hkept := h.maintains entries root x
  constructor
  · -- at every moment, what is there was there at first or was added
    have hadded : Maintains ctx entries root fun m => x ∈ Q m → x ∈ Q root.machine ∨
        ∃ c, Reaches ctx entries root c ∧ ∃ s ∈ c.steps ctx entries, x ∈ A c.visit.block s := by
      refine maintains_of_alike (fun {c site text m} hreach hruns hm hx => ?_)
        (fun {m} hm => by rwa [h.record]) fun {m m'} hm hx => by rwa [h.alike hm]
      rw [h.traced] at hx
      rcases hx with hx | hx
      · exact hm hx
      · rw [block_of_runs hruns] at hx
        exact .inr ⟨c, hreach, (text, m), mem_steps_iff_runs.2 ⟨site, block_of_runs hruns, hruns⟩,
          hx⟩
    exact hadded.ending root .refl .inl
  · rintro (hx | ⟨c, hreach, s, hs, hx⟩)
    · exact hkept.ending root .refl hx
    · obtain ⟨site, hblock, hruns⟩ := mem_steps_iff_runs.1 hs
      refine hkept.ending_of_runs hreach hruns ?_
      rw [h.traced, hblock]
      exact .inr hx

theorem mem_ending_of_reached {x : ι} (hs : Reached ctx entries root history s) (hx : x ∈ Q s.2) :
    x ∈ Q (root.ending ctx entries) := by
  obtain ⟨c, before, front, back, htrail, hsteps, -⟩ := hs
  have hreach := reach_iff_trail.2 ⟨before, htrail⟩
  have hkept := h.maintains entries root x
  obtain ⟨site, -, hruns⟩ : ∃ site : Site, site.block = c.visit.block ∧
      Runs ctx entries c.visit c.machine site s.1 s.2 := by
    rw [← mem_steps_iff_runs, hsteps]
    exact List.mem_append_right _ List.mem_cons_self
  exact hkept.ending_of_runs hreach hruns (hkept.traced hreach hruns hx)

end Gathers

/-! ### The first block -/

theorem steps_append (h : (runAll ctx site front).outcome m = (.ok (), m')) :
    steps ctx site (front ++ back) m = steps ctx site front m ++ steps ctx site back m' := by
  induction front generalizing m with
  | nil =>
    cases h
    rfl
  | cons text front ih =>
    obtain ⟨_, m₁, hfirst, hrest⟩ := outcome_bind_eq_ok.1 h
    rw [List.cons_append, steps, steps, hfirst]
    exact congrArg _ (ih hrest)

theorem steps_append_cons (h : (runAll ctx site (front ++ [text])).outcome m = (.ok (), m')) :
    steps ctx site (front ++ text :: back) m = steps ctx site front m ++
      (text, ((runAll ctx site front).outcome m).2) :: steps ctx site back m' := by
  obtain ⟨m₁, hfront, hlast⟩ := runAll_append_ok h
  obtain ⟨_, m₂, htext, hend⟩ := outcome_bind_eq_ok.1 hlast
  cases hend
  rw [steps_append hfront, steps, htext, hfront]

theorem text_mem_of_mem_steps (h : s ∈ steps ctx site texts m) : s.1 ∈ texts := by
  induction texts generalizing m with
  | nil => cases h
  | cons text rest ih =>
    rw [steps] at h
    rcases List.mem_cons.1 h with rfl | h
    · exact List.mem_cons_self
    · split at h
      · exact List.mem_cons_of_mem _ (ih h)
      · cases h

theorem begins_first (hentries : ctx.source = none ∨ g.signatures = .ok {})
    (hstart : ((start ctx).outcome { shared := { graph := g } }).1.isOk = true) :
    Begins ctx g {} (.first ctx g) where
  started := outcome_eq_of_isOk hstart
  entries := by
    have hgraph : (Call.first ctx g).machine.shared.graph = g :=
      @touches_start ctx { shared := { graph := g } } .graph (by decide)
    rw [hgraph]
    rcases hentries with hsource | hnames
    · rw [hsource]
    · split
      · rfl
      · exact hnames
  visit := rfl
  remaining := rfl

abbrev Site.first : Site := ⟨0, -1, "fallback"⟩

@[irreducible]
def Call.opened (ctx : Context) (g : Graph) : Machine := (Call.first ctx g).machine.counted (0, 0)

@[irreducible]
def Call.openedBy (ctx : Context) (g : Graph) (texts : List String) : Machine :=
  ((runAll ctx Site.first texts).outcome (Call.opened ctx g)).2

/-- The lines can be executed one after the other where the exploration starts. -/
def Call.Passes (ctx : Context) (g : Graph) (texts : List String) : Prop :=
  ((runAll ctx Site.first texts).outcome (Call.opened ctx g)).1.isOk = true

instance : Decidable (Call.Passes ctx g texts) := inferInstanceAs (Decidable (_ = true))

theorem steps_openedBy (hrun : Call.Passes ctx g (front ++ [text])) :
    steps ctx Site.first (front ++ text :: back) (Call.opened ctx g) =
      steps ctx Site.first front (Call.opened ctx g) ++ (text, Call.openedBy ctx g front) ::
        steps ctx Site.first back (Call.openedBy ctx g (front ++ [text])) := by
  rw [steps_append_cons (outcome_eq_of_isOk hrun), Call.openedBy, Call.openedBy]

theorem reached_first {g : Graph} {front back : List String} {text : String}
    (hfunction : functionAt ctx {} 0 "fallback" = pure "fallback")
    (hb : (g.blocks.get? 0).map Block.instructions = some (front ++ text :: back))
    (hloop : 1 ≤ ctx.settings.loopLimit) (hgas : 0 ≤ ctx.settings.gasLimit)
    (hrun : Call.Passes ctx g front) :
    Reached ctx {} (.first ctx g) (steps ctx Site.first front (Call.opened ctx g))
      (text, Call.openedBy ctx g front) := by
  obtain ⟨b, hb, htexts⟩ := Option.map_eq_some_iff.1 hb
  have hstart := @touches_start ctx { shared := { graph := g } }
  have hgraph : (Call.first ctx g).machine.shared.graph = g := hstart.graph
  have hedges : (Call.first ctx g).machine.shared.visitedEdges = {} := hstart .edges (by decide)
  have hgas₀ : (Call.first ctx g).machine.path.analysis.gas = 0 :=
    congrArg Prod.fst (hstart .fees (by decide))
  have henter : (enter ctx {} (Call.first ctx g).visit).outcome (Call.first ctx g).machine =
      (.ok (some (Site.first, b.instructions)), Call.opened ctx g) := by
    rw [Call.opened]
    refine @enter_of_block ctx {} (Call.first ctx g).visit _ b hfunction (Int.le_refl 0) ?_ ?_ ?_
    · rw [Machine.count, hedges]
      exact hloop
    · rw [hgas₀]
      exact hgas
    · rw [hgraph]
      exact hb
  obtain ⟨after, hafter⟩ : ∃ after,
      steps ctx Site.first (text :: back) (Call.openedBy ctx g front) =
      (text, Call.openedBy ctx g front) :: after := ⟨_, rfl⟩
  refine ⟨_, [], _, after, .start, ?_, rfl⟩
  rw [Call.steps, henter]
  dsimp only
  rw [htexts, steps_append (outcome_eq_of_isOk hrun), ← Call.openedBy, hafter]

end Exec

end EvmAudit
