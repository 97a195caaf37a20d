import EvmAudit.Audit.Detect
import EvmAudit.Proofs.Explore.Places
import EvmAudit.Proofs.Explore.Records
import EvmAudit.Proofs.Explore.Soundness

/-! Where the conditions of a path come from. The rows of the tables that the detectors read belong
together, and the place that a row has for a condition is the program counter of the instruction
that added it. -/

namespace EvmAudit

/-- The first transfer is the one that begins the path, every other one has its place, and so have
conditions behind the first three: of their index, place and formula `P` holds. -/
structure Entry.Kept (P : Nat → Int → Condition → Prop) (e : Entry) : Prop where
  first : e.flows.head? = some { source := "Is", destination := "Ia", amount := "Iv" }
  transfers : e.flows.length = e.transferPcs.length + 1
  opening : 3 ≤ e.conditions.length
  places : ∀ i r, e.conditionPcs.get? i = some r →
    3 ≤ i ∧ ∃ c, e.conditions[i]? = some c ∧ P i r c

namespace Entry.Kept

variable {P Q : Nat → Int → Condition → Prop} {e : Entry}

theorem imp (hpq : ∀ i r c, P i r c → Q i r c) (h : e.Kept P) : e.Kept Q where
  first := h.first
  transfers := h.transfers
  opening := h.opening
  places i r hi := by
    obtain ⟨hthree, c, hc, hp⟩ := h.places i r hi
    exact ⟨hthree, c, hc, hpq i r c hp⟩

theorem accrues {pays : Prop} {p : Int} {m m' : Machine} (h : m.path.entry.Kept P)
    (hadds : m.ledger.Accrues pays m'.ledger)
    (hplaces : ∀ i r, m'.path.analysis.conditionPcs.get? i = some r →
      m.path.analysis.conditionPcs.get? i = some r ∨ r = p)
    (hnew : pays → ∀ i c, m.path.conditions.length ≤ i → m'.path.conditions[i]? = some c →
      P i p c) : m'.path.entry.Kept P := by
  obtain ⟨fs, ps, hlength, hflows, hpcs⟩ := hadds.transfers
  obtain ⟨cs, hcs⟩ := hadds.conditions
  replace hflows : m'.path.analysis.flows = m.path.analysis.flows ++ fs := hflows
  replace hpcs : m'.path.analysis.transferPcs = m.path.analysis.transferPcs ++ ps := hpcs
  replace hcs : m.path.conditions ++ cs = m'.path.conditions := hcs
  have hopening : 3 ≤ m.path.conditions.length := h.opening
  refine ⟨?_, ?_, ?_, fun i r hi => ?_⟩
  · change m'.path.analysis.flows.head? = _
    rw [hflows, List.head?_append, show m.path.analysis.flows.head? = _ from h.first]
    rfl
  · change m'.path.analysis.flows.length = m'.path.analysis.transferPcs.length + 1
    rw [hflows, hpcs, List.length_append, List.length_append, hlength,
      show m.path.analysis.flows.length = _ from h.transfers]
    change m.path.analysis.transferPcs.length + 1 + _ = _
    omega
  · change 3 ≤ m'.path.conditions.length
    rw [← hcs, List.length_append]
    omega
  · change 3 ≤ i ∧ ∃ c, m'.path.conditions[i]? = some c ∧ P i r c
    have hold (hi : m.path.analysis.conditionPcs.get? i = some r) :
        3 ≤ i ∧ ∃ c, m'.path.conditions[i]? = some c ∧ P i r c := by
      obtain ⟨hthree, c, hc, hp⟩ := h.places i r hi
      refine ⟨hthree, c, ?_, hp⟩
      rw [← hcs]
      exact List.getElem?_append_left (List.getElem?_eq_some_iff.1 hc).1 |>.trans hc
    -- a place that is not an old one stands under the index of a condition added here
    rcases hadds.places i r hi with hi' | ⟨hpays, hlow, hhigh⟩
    · exact hold hi'
    · rcases hplaces i r hi with hi' | rfl
      · exact hold hi'
      · exact ⟨Nat.le_trans hopening hlow, _, List.getElem?_eq_getElem hhigh,
          hnew hpays i _ hlow (List.getElem?_eq_getElem hhigh)⟩

end Entry.Kept

namespace Exec

variable {call d root : Call} {m m' m₁ : Machine} {text : String} {c : Condition} {site : Site}
  {parent : Path} {target : Except Fault Int} {v : Visit}

open Listing

variable {ctx : Context} {entries : Table Int String} {code : Code}

/-! ### Instructions that add conditions -/

/-- The instruction `text` of the call, executed in the state `m`, adds the condition with index
`i`: a transfer those of its funds, and the jump behind a block the one that its side is taken
under. -/
inductive Imposes (ctx : Context) (entries : Table Int String) :
    Call → String → Machine → Nat → Condition → Prop
  | pays {call : Call} {site : Site} {text : String} {m m' : Machine} {i : Nat} {c : Condition}
      (h : Runs ctx entries call.visit call.machine site text m)
      (hop : Pays (Instruction.ofText text).operation)
      (hok : Traces ctx site text m m')
      (hi : m.path.conditions.length ≤ i) (hc : m'.path.conditions[i]? = some c) :
      Imposes ctx entries call text m i c
  | turns {remaining : Nat} {v : Visit} {m₀ m m₁ : Machine} {site : Site} {text : String}
      {c c' : Condition} {b : Block} (h : Runs ctx entries v m₀ site text m)
      (hop : (Instruction.ofText text).operation = .jumpIf)
      (hv : Forks ctx entries v m₀ site c b m₁)
      (hc : c' = c ∨ c' = .symbolic c.not) :
      Imposes ctx entries ⟨remaining + 1, v, m₀⟩ text m m.path.conditions.length c'

theorem Imposes.runs {i : Nat}
    (h : Imposes ctx entries call text m i c) :
    ∃ site, Runs ctx entries call.visit call.machine site text m := by
  cases h with
  | pays h => exact ⟨_, h⟩
  | turns h => exact ⟨_, h⟩

theorem Imposes.operation {i : Nat} (h : Imposes ctx entries call text m i c) :
    (Instruction.ofText text).operation = .jumpIf ∨ (Instruction.ofText text).operation = .call ∨
      (Instruction.ofText text).operation = .callCode := by
  cases h with
  | pays _ hop => exact .inr hop
  | turns _ hop => exact .inl hop

/-- On the way to the call `d` the condition was added by an instruction with this program
counter. -/
def Origin (ctx : Context) (entries : Table Int String) (root d : Call) (i : Nat) (r : Int)
    (c : Condition) : Prop :=
  ∃ call text m, Relation.ReflTransGen (Next ctx entries) root call ∧
    Relation.ReflTransGen (Next ctx entries) call d ∧ Imposes ctx entries call text m i c ∧
    m.path.world.pc = r

theorem Origin.next {root d d' : Call} {i : Nat} {r : Int} {c : Condition}
    (h : Next ctx entries d d') (ho : Origin ctx entries root d i r c) :
    Origin ctx entries root d' i r c := by
  obtain ⟨call, text, m, hcall, hd, himposes⟩ := ho
  exact ⟨call, text, m, hcall, hd.tail h, himposes⟩

theorem kept_runAll (hreach : Reaches ctx entries root d) {texts front back : List String}
    (henter : (enter ctx entries d.visit).outcome d.machine = (.ok (some (site, texts)), m₁))
    (htexts : texts = front ++ back) (hfront : (runAll ctx site front).outcome m₁ = (.ok (), m))
    (hkept : m.path.entry.Kept (Origin ctx entries root d))
    (hback : (runAll ctx site back).outcome m = (.ok (), m')) :
    m'.path.entry.Kept (Origin ctx entries root d) := by
  -- `front` grows with what is done, so that each instruction is one that the call runs
  induction back generalizing front m with
  | nil =>
    cases hback
    exact hkept
  | cons text back ih =>
    obtain ⟨_, m₂, htraced, hrest⟩ := outcome_bind_eq_ok.1 hback
    have hruns : Runs ctx entries d.visit d.machine site text m :=
      ⟨texts, m₁, henter, ran_iff.2 ⟨front, back, htexts, hfront⟩⟩
    have hadds := (@ledger_traced ctx site text m).1
    have hnotes := (@notes_traced ctx site text m).conditions
    rw [htraced] at hadds hnotes
    have hnext : m₂.path.entry.Kept (Origin ctx entries root d) :=
      hkept.accrues hadds hnotes fun hpays i c hi hc =>
        ⟨d, text, m, hreach, .refl, .pays hruns hpays htraced hi hc, rfl⟩
    have hfront' : (runAll ctx site (front ++ [text])).outcome m₁ = (.ok (), m₂) := by
      rw [outcome_runAll_append hfront, runAll, outcome_bind, htraced]
      rfl
    exact ih (by rw [htexts, List.append_assoc]; rfl) hfront' hnext hrest

theorem kept_completes (hreach : Reaches ctx entries root d)
    (hkept : d.machine.path.entry.Kept (Origin ctx entries root d))
    (h : Completes ctx entries d m) : m.path.entry.Kept (Origin ctx entries root d) := by
  obtain ⟨site, texts, m₁, henter, hrun⟩ := h
  obtain ⟨-, rfl, -⟩ := enter_some henter
  exact kept_runAll hreach henter (List.nil_append texts).symm rfl hkept hrun

/-! ### Branches -/

theorem kept_approach {next : Int} (hkept : parent.entry.Kept P)
    (h : (approach ctx parent c target).outcome m = (.ok (some next), m'))
    (hc : P parent.conditions.length parent.world.pc c) : m'.path.entry.Kept P := by
  rw [path_approach h]
  have hopening : 3 ≤ parent.conditions.length := hkept.opening
  refine ⟨hkept.first, hkept.transfers, ?_, fun i r hi => ?_⟩
  · change 3 ≤ (parent.conditions ++ [c]).length
    rw [List.length_append]
    omega
  · change 3 ≤ i ∧ ∃ c', (parent.conditions ++ [c])[i]? = some c' ∧ P i r c'
    change (parent.analysis.conditionPcs.insert parent.conditions.length parent.world.pc).get? i =
      some r at hi
    rw [Table.get?_insert] at hi
    split at hi
    next heq =>
      cases heq
      cases hi
      exact ⟨hopening, c, List.getElem?_concat_length, hc⟩
    · obtain ⟨hthree, c', hc', hp⟩ := hkept.places i r hi
      exact ⟨hthree, c', (List.getElem?_append_left (List.getElem?_eq_some_iff.1 hc').1).trans hc',
        hp⟩

theorem jumpIf_of_fork {b : Block} (hgraph : code.linked.Same m.shared.graph)
    (hv : Forks ctx entries v m site c b m₁) :
    ∃ text mj, Runs ctx entries v m site text mj ∧ (Instruction.ofText text).operation = .jumpIf ∧
      m₁.path.world.pc = mj.path.world.pc ∧ m₁.path.conditions = mj.path.conditions := by
  obtain ⟨texts, m₀, m₂, m₃, henter, hrun, hpath, hsame, honward⟩ := entered_of_onward hv (by nofun)
  obtain ⟨-, rfl, hsite, -, b₀, hb₀, rfl⟩ := enter_some henter
  obtain ⟨b', before, front, last, rest, hb', hspan, -, -, htexts⟩ := exists_last hgraph hb₀
  obtain ⟨rfl, -, hending, -⟩ := onward_ok honward
  -- instructions find jumps, but the endings stay those of the listing
  have hgraph₁ : code.linked.Same m₁.shared.graph := by
    obtain ⟨n, hchanges, -⟩ := @accounts_runAll ctx site b₀.instructions (m.counted v.edge)
    rw [hrun] at hchanges
    rw [hsame]
    exact hgraph.trans hchanges.graph
  have hlast : last.mnemonic = "JUMPI" := by
    obtain ⟨hends, hjumpi, -⟩ := code.wellFormed_linked.ending v.block b' last hb' (by simp [hspan])
    rw [hgraph₁.endings, hsite, hends] at hending
    exact hjumpi.1 hending
  have hop : (Instruction.ofText last.text).operation = .jumpIf := by
    rw [Line.ofText_text, hlast]
    rfl
  rw [htexts] at hrun
  obtain ⟨mj, hfront, hrest⟩ := runAll_append_ok hrun
  obtain ⟨_, m₂', htraced, hnil⟩ := outcome_bind_eq_ok.1 hrest
  cases hnil
  refine ⟨last.text, mj, ⟨_, _, henter, ran_iff.2 ⟨_, [], htexts, hfront⟩⟩, hop, ?_⟩
  rw [hpath]
  exact ⟨part_traced (p := .pc) (by decide) (by rw [hop]; decide) htraced,
    part_traced (p := .conditions) (by decide) (by rw [hop]; decide) htraced⟩

/-! ### Calls -/

/-- The program counter is at the block of the call, and the graph is that of the listing but for
the jumps that have been found. -/
structure Placed (code : Code) (c : Call) : Prop where
  pc : c.machine.path.world.pc = c.visit.block
  graph : code.linked.Same c.machine.shared.graph

theorem Begins.placed (h : Begins ctx code.linked entries root) : Placed code root where
  pc := by
    have hmarks := @quiet_start ctx { shared := { graph := code.linked } }
    rw [h.started] at hmarks
    rw [h.visit]
    exact congrArg Marks.pc hmarks
  graph := by
    rw [h.consistent.2.2]
    exact .refl _

theorem same_visit {r : Site × Onward} (hm : code.linked.Same m.shared.graph)
    (hv : (visit ctx entries false v).outcome m = (.ok r, m₁)) :
    code.linked.Same m₁.shared.graph := by
  obtain ⟨n, hchanges⟩ := changes_visit hv
  exact hm.trans hchanges.graph

theorem placed_approach {cond : Condition} {remaining : Nat} {next : Int}
    (hm : code.linked.Same m.shared.graph)
    (h : (approach ctx parent cond target).outcome m = (.ok (some next), m')) :
    Placed code ⟨remaining, sideOf v site next, m'⟩ := by
  obtain ⟨s, p, hend⟩ := @approach_end ctx parent cond target m
  rw [h] at hend
  refine ⟨?_, ?_⟩
  · change m'.path.world.pc = next
    rw [path_approach h]
  · change code.linked.Same m'.shared.graph
    rw [show m' = _ from hend]
    exact hm

theorem Placed.next {c d : Call} (hc : Placed code c) (h : Next ctx entries c d) :
    Placed code d := by
  cases h with
  | @go remaining v next m m₁ site hv =>
    refine ⟨?_, same_visit hc.graph hv⟩
    obtain ⟨-, -, -, m₃, -, -, -, -, honward⟩ := entered_of_onward hv (by nofun)
    obtain ⟨-, -, hpath, -⟩ := onward_ok honward
    change m₁.path.world.pc = next.block
    rw [hpath]
  | target hv ht => exact placed_approach (same_visit hc.graph hv) ht
  | fall hv ht hf =>
    obtain ⟨n, hchanges⟩ := changes_side ht
    exact placed_approach ((same_visit hc.graph hv).trans hchanges.graph) hf

theorem placed_of_reach {c : Call} (hroot : Begins ctx code.linked entries root)
    (h : Reaches ctx entries root c) : Placed code c := by
  induction h with
  | refl => exact hroot.placed
  | tail _ hnext ih => exact ih.next hnext

theorem Begins.ledger {g : Graph} (h : Begins ctx g entries root) :
    ∃ conditions : List Condition, conditions.length = 3 ∧
      root.machine.ledger =
        Machine.ledger { path := { conditions }, shared := { graph := g } } := by
  obtain ⟨o, paid, payable, owned, -, -, -, -, hfurnish⟩ := start_ok h.started
  have hledger :=
    (congrArg (fun r => r.2.ledger) hfurnish).symm.trans (fixes_furnish (fun _ _ _ => rfl) o _)
  exact ⟨[paid, payable, owned], rfl, hledger⟩

theorem Begins.kept {g : Graph} (h : Begins ctx g entries root) :
    root.machine.path.entry.Kept P := by
  obtain ⟨conditions, hthree, hledger⟩ := h.ledger
  have hflows : root.machine.path.analysis.flows = _ := congrArg Ledger.flows hledger
  have hpcs : root.machine.path.analysis.transferPcs = _ := congrArg Ledger.transferPcs hledger
  have hconditions : root.machine.path.conditions = _ := congrArg Ledger.conditions hledger
  have hplaces : root.machine.path.analysis.conditionPcs = _ := congrArg Ledger.conditionPcs hledger
  refine ⟨?_, ?_, ?_, fun i r hi => ?_⟩
  · exact congrArg List.head? hflows
  · change root.machine.path.analysis.flows.length =
      root.machine.path.analysis.transferPcs.length + 1
    rw [hflows, hpcs]
    rfl
  · change 3 ≤ root.machine.path.conditions.length
    rw [hconditions]
    exact hthree.ge
  · change root.machine.path.analysis.conditionPcs.get? i = some r at hi
    rw [hplaces] at hi
    cases hi

section

variable {root : Call} {v : Visit} {m m₁ : Machine} {site : Site} {remaining : Nat}
  (hreach : Reaches ctx entries root ⟨remaining + 1, v, m⟩)
  (hm : m.path.entry.Kept (Origin ctx entries root ⟨remaining + 1, v, m⟩))

include hreach hm

theorem kept_visit {onward : Onward}
    (hv : (visit ctx entries false v).outcome m = (.ok (site, onward), m₁)) (ho : onward ≠ .stop) :
    m₁.path.entry.Kept (Origin ctx entries root ⟨remaining + 1, v, m⟩) := by
  obtain ⟨texts, m₀, m₂, m₃, henter, hrun, hpath, -, honward⟩ := entered_of_onward hv ho
  have hm₂ := kept_completes hreach hm ⟨site, texts, m₀, henter, hrun⟩
  have hsame : m₁.path.entry = m₂.path.entry := by
    cases onward with
    | stop => exact absurd rfl ho
    | go next =>
      obtain ⟨-, -, hpath₁, -⟩ := onward_ok honward
      rw [hpath₁, ← hpath]
      rfl
    | fork cond b =>
      obtain ⟨rfl, -⟩ := onward_ok honward
      rw [hpath]
  rwa [hsame]

theorem kept_side {m₂ m' : Machine} {cond cond' : Condition} {b : Block} {target : Except Fault Int}
    {next : Int} (hgraph : code.linked.Same m.shared.graph)
    (hv : Forks ctx entries v m site cond b m₁)
    (h : (approach ctx m₁.path cond' target).outcome m₂ = (.ok (some next), m'))
    (hcond : cond' = cond ∨ cond' = .symbolic cond.not) :
    m'.path.entry.Kept (Origin ctx entries root ⟨remaining + 1, v, m⟩) := by
  obtain ⟨text, mj, hruns, hop, hpc, hconditions⟩ := jumpIf_of_fork hgraph hv
  refine kept_approach (kept_visit hreach hm hv (by nofun)) h ?_
  rw [hconditions, hpc]
  exact ⟨_, text, mj, hreach, .refl, .turns hruns hop hv hcond, rfl⟩

end

theorem kept_next {root c d : Call} (hreach : Reaches ctx entries root c)
    (hgraph : code.linked.Same c.machine.shared.graph)
    (hc : c.machine.path.entry.Kept (Origin ctx entries root c)) (h : Next ctx entries c d) :
    d.machine.path.entry.Kept (Origin ctx entries root d) := by
  refine Entry.Kept.imp (fun i r cond => Origin.next h) ?_
  cases h with
  | go hv => exact kept_visit hreach hc hv (by nofun)
  | target hv ht => exact kept_side hreach hc hgraph hv ht (.inl rfl)
  | fall hv ht hf => exact kept_side hreach hc hgraph hv hf (.inr rfl)

theorem kept_of_reach {root c : Call} (hroot : Begins ctx code.linked entries root)
    (h : Reaches ctx entries root c) : c.machine.path.entry.Kept (Origin ctx entries root c) := by
  induction h with
  | refl => exact hroot.kept
  | tail hreach hnext ih => exact kept_next hreach (placed_of_reach hroot hreach).graph ih hnext

/-! ### Addresses -/

theorem line_of_runs {c : Call} (hgraph : code.linked.Same c.machine.shared.graph) {site : Site}
    {text : String} {m : Machine} (h : Runs ctx entries c.visit c.machine site text m) :
    ∃ b before l after, code.linked.blocks.get? c.visit.block = some b ∧
      code.span code.linked c.visit.block = before ++ l :: after ∧ l.text = text ∧
      (runAll ctx site (before.map Line.text)).outcome (c.machine.counted c.visit.edge) =
        (.ok (), m) := by
  obtain ⟨texts, m₁, henter, hran⟩ := h
  obtain ⟨-, rfl, -, -, b, hb, rfl⟩ := enter_some henter
  obtain ⟨front, back, htexts, hfront⟩ := ran_iff.1 hran
  obtain ⟨b', hb', hfixed⟩ := hgraph.block hb
  obtain ⟨-, -, hspanned⟩ := code.wellFormed_linked.texts c.visit.block b' hb'
  have hinstructions : b.instructions = b'.instructions := (congrArg Block.instructions hfixed).symm
  rw [hinstructions, hspanned] at htexts
  obtain ⟨before, rest, hspan, rfl, hrest⟩ := List.map_eq_append_iff.1 htexts
  obtain ⟨l, after, rfl, rfl, -⟩ := List.map_eq_cons_iff.1 hrest
  exact ⟨b', before, l, after, hb', hspan, rfl, hfront⟩

theorem address_of_runs (hpacked : code.Packed) {c : Call} (hc : Placed code c) {site : Site}
    {text : String} {m : Machine} (h : Runs ctx entries c.visit c.machine site text m) :
    ∃ before l after, code.span code.linked c.visit.block = before ++ l :: after ∧ l.text = text ∧
      m.path.world.pc + before.countP Line.lags = l.address := by
  obtain ⟨b, before, l, after, hb, hspan, htext, hfront⟩ := line_of_runs hc.graph h
  obtain ⟨hpart, hjumps, hhead⟩ := Code.span_lines hb hspan
  obtain ⟨first, hfirst, haddress⟩ := Option.map_eq_some_iff.1 hhead
  have hbegin : (c.machine.counted c.visit.edge).path.world.pc + 0 = first.address := by
    rw [haddress, ← hc.pc]
    exact Int.add_zero _
  have hchain := List.IsChain.infix hpacked hpart
  have hbehind := pc_runAll hchain hfirst hjumps hbegin hfront
  rw [Int.add_zero] at hbehind
  exact ⟨before, l, after, hspan, htext, hbehind⟩

end Exec

/-! ### Detectors -/

theorem mapM_eq_ok {α β : Type} {f : α → Except Fault β} {g : α → β} {xs : List α}
    (h : ∀ x ∈ xs, f x = .ok (g x)) : xs.mapM f = .ok (xs.map g) := by
  induction xs with
  | nil => rfl
  | cons x xs ih =>
    rw [List.mapM_cons, h x List.mem_cons_self, ih fun y hy => h y (List.mem_cons_of_mem x hy)]
    rfl

theorem mapM_zipIdx_map {α β : Type} {es : List Entry} {row : Entry → α}
    {f : α × Nat → Except Fault β} {k : Nat} (answer : Entry → β)
    (h : ∀ i e, es[i]? = some e → f (row e, k + i) = .ok (answer e)) :
    ((es.map row).zipIdx k).mapM f = .ok (es.map answer) := by
  induction es generalizing k with
  | nil => rfl
  | cons e es ih =>
    rw [List.map_cons, List.zipIdx_cons, List.mapM_cons, show f (row e, k) = _ from h 0 e rfl,
      ih fun i e' hi => ?_]
    · rfl
    · rw [Nat.add_assoc, Nat.add_comm 1]
      exact h (i + 1) e' hi

namespace Audit

variable {ctx : Context}
variable {i j : Nat} {es : List Entry}

theorem mem_of_against {f : List Flow} {i' : Nat} {gs : List (List Flow × Nat)}
    (h : findRace.against ctx f i gs = .ok (some (i', j))) : i' = i ∧ ∃ g, (g, j) ∈ gs := by
  induction gs with
  | nil => cases h
  | cons p gs ih =>
    obtain ⟨g, k⟩ := p
    rw [findRace.against] at h
    cases hdiffer : flowsDiffer ctx.decide (f.map transferValues) (g.map transferValues) with
    | error e =>
      rw [hdiffer] at h
      cases h
    | ok differ =>
      rw [hdiffer] at h
      cases differ with
      | true =>
        cases h
        exact ⟨rfl, g, List.mem_cons_self⟩
      | false =>
        obtain ⟨hi, g', hg'⟩ := ih h
        exact ⟨hi, g', List.mem_cons_of_mem _ hg'⟩

theorem mem_of_from {fs : List (List Flow × Nat)}
    (h : findRace.from_ ctx fs = .ok (some (i, j))) : (∃ f, (f, i) ∈ fs) ∧ ∃ g, (g, j) ∈ fs := by
  induction fs with
  | nil => cases h
  | cons p fs ih =>
    obtain ⟨f, k⟩ := p
    rw [findRace.from_] at h
    cases hagainst : findRace.against ctx f k fs with
    | error e =>
      rw [hagainst] at h
      cases h
    | ok race =>
      rw [hagainst] at h
      cases race with
      | some race =>
        cases h
        obtain ⟨rfl, g, hg⟩ := mem_of_against hagainst
        exact ⟨⟨f, List.mem_cons_self⟩, g, List.mem_cons_of_mem _ hg⟩
      | none =>
        obtain ⟨⟨f', hf'⟩, g, hg⟩ := ih h
        exact ⟨⟨f', List.mem_cons_of_mem _ hf'⟩, g, List.mem_cons_of_mem _ hg⟩

def movers (rows : List (List Flow)) : List (List Flow × Nat) :=
  rows.zipIdx.filter fun (f, _) => f.length ≠ 1

theorem lt_of_findRace {flows : List (List Flow)}
    (h : findRace ctx flows = .ok (some (i, j))) : i < flows.length ∧ j < flows.length := by
  have hlt {k : Nat} (hk : ∃ f, (f, k) ∈ movers flows) : k < flows.length := by
    obtain ⟨f, hf⟩ := hk
    exact (List.mem_zipIdx' (List.mem_filter.1 hf).1).1
  obtain ⟨hi, hj⟩ := mem_of_from h
  exact ⟨hlt hi, hlt hj⟩

def timeNote (p : Printer) (origins : Table Nat Int) : Condition × Nat → Option Int
  | (.settled _, _) => none
  | (.symbolic f, i) => if Text.contains timestampName (p.formula f) then origins.get? i else none

theorem timePcs_ok (p : Printer) (conditions : List Condition) (origins : Table Nat Int) :
    timePcs p conditions (.ok origins) =
      .ok (conditions.zipIdx.filterMap (timeNote p origins)) := by
  rw [timePcs, mapM_eq_ok (g := timeNote p origins)]
  · change Except.ok ((conditions.zipIdx.map (timeNote p origins)).filterMap id) = _
    rw [List.filterMap_map]
    rfl
  · rintro ⟨c, i⟩ -
    cases c with
    | settled b => rfl
    | symbolic f =>
      dsimp only [timeNote]
      split <;> rfl

structure Answered (ctx : Context) (s : Shared) (es : List Entry) : Prop where
  storages : storagesLeft s = .ok (es.map Entry.storage)
  races : ∀ i j, findRace ctx s.flows = .ok (some (i, j)) → ∃ a b, es[i]? = some a ∧
    es[j]? = some b ∧ racePlaces s (some (i, j)) = .ok [a.transferPcs, b.transferPcs] ∧
    cannotFollow ctx s i j = isFalseAlarm ctx.decide (a.conditions.map Value.ofCondition) a.storage
      (b.conditions.map Value.ofCondition) ∧
    cannotFollow ctx s j i = isFalseAlarm ctx.decide (b.conditions.map Value.ofCondition) b.storage
      (a.conditions.map Value.ofCondition)
  times : timePlaces ctx.print s =
    .ok (es.map fun e => e.conditions.zipIdx.filterMap (timeNote ctx.print e.conditionPcs)).flatten

theorem itemAt_map {α : Type} {e : Entry} (h : es[i]? = some e) (f : Entry → α) :
    itemAt (es.map f) i = .ok (f e) := by
  rw [itemAt_natCast, List.getElem?_map, h]
  rfl

theorem places_of_tables {s : Shared} (h : s.tables = .ofEntries es) :
    s.problems.conditionPcs = es.map Entry.conditionPcs :=
  congrArg Tables.conditionPcs h

theorem answered_of_tables {s : Shared} (h : s.tables = .ofEntries es) : Answered ctx s es := by
  have hflows : s.flows = es.map Entry.flows := congrArg Tables.flows h
  have hconditions : s.conditions = es.map Entry.conditions := congrArg Tables.conditions h
  have hstorages : s.storages = es.map Entry.storage := congrArg Tables.storages h
  have htransfers : s.problems.transfers = es.map Entry.transferPcs := congrArg Tables.transfers h
  have hplaces := places_of_tables h
  refine ⟨?_, fun i j hrace => ?_, ?_⟩
  · rw [storagesLeft, hflows, hstorages]
    refine mapM_zipIdx_map _ fun i e hi => ?_
    rw [Nat.zero_add]
    exact itemAt_map hi _
  · obtain ⟨hi, hj⟩ := lt_of_findRace hrace
    rw [hflows, List.length_map] at hi hj
    have ha := List.getElem?_eq_getElem hi
    have hb := List.getElem?_eq_getElem hj
    refine ⟨_, _, ha, hb, ?_, ?_, ?_⟩
    · rw [racePlaces, htransfers, itemAt_map ha, itemAt_map hb]
      rfl
    · rw [cannotFollow, hconditions, hstorages, itemAt_map ha, itemAt_map hb, itemAt_map ha]
      rfl
    · rw [cannotFollow, hconditions, hstorages, itemAt_map ha, itemAt_map hb, itemAt_map hb]
      rfl
  · rw [timePlaces, hconditions, hplaces, mapM_zipIdx_map
      (fun e => e.conditions.zipIdx.filterMap (timeNote ctx.print e.conditionPcs)) fun i e hi => ?_]
    · rfl
    · rw [Nat.zero_add]
      dsimp only
      rw [itemAt_map hi, timePcs_ok]

end Audit

namespace Exec

open Listing

variable {ctx : Context} {entries : Table Int String} {code : Code}

/-! ### The tables of an exploration -/

/-- The condition with index `i` was added with the program counter at `r`, by a conditional jump or
a transfer. In a packed listing the address of its line is `r`, plus one for every line before it in
its block that lags. -/
def Sited (ctx : Context) (entries : Table Int String) (code : Code) (root : Call) (i : Nat)
    (r : Int) (c : Condition) : Prop :=
  ∃ call text m, Relation.ReflTransGen (Next ctx entries) root call ∧
    Imposes ctx entries call text m i c ∧ m.path.world.pc = r ∧
    ((Instruction.ofText text).operation = .jumpIf ∨ (Instruction.ofText text).operation = .call ∨
      (Instruction.ofText text).operation = .callCode) ∧
    (code.Packed → ∃ before l after, code.span code.linked call.visit.block = before ++ l :: after ∧
      l.text = text ∧ r + before.countP Line.lags = l.address)

theorem Origin.sited {d : Call} (hroot : Begins ctx code.linked entries root) {i : Nat} {r : Int}
    {c : Condition} (h : Origin ctx entries root d i r c) : Sited ctx entries code root i r c := by
  obtain ⟨call, text, m, hreach, -, himposes, rfl⟩ := h
  obtain ⟨site, hruns⟩ := himposes.runs
  exact ⟨call, text, m, hreach, himposes, rfl, himposes.operation, fun hpacked =>
    address_of_runs hpacked (placed_of_reach hroot hreach) hruns⟩

theorem Filed.kept (hroot : Begins ctx code.linked entries root) {e : Entry}
    (h : Filed ctx entries root e) : e.Kept (Sited ctx entries code root) := by
  obtain ⟨d, m, hreach, hcompletes, rfl⟩ := h
  exact (kept_completes hreach (kept_of_reach hroot hreach) hcompletes).imp fun _ _ _ =>
    Origin.sited hroot

/-- At every moment of an exploration the tables have the same rows, each recorded from one path
when a block of it was done. No two rows have the same transfers; a row has a place for every
transfer but the first, and the places of its conditions are those where they were added. Every row
that a detector asks for is there. -/
theorem tables_aligned {root c : Call} {m : Machine} (hroot : Begins ctx code.linked entries root)
    (hreach : Relation.ReflTransGen (Next ctx entries) root c) (hm : Moment ctx entries c m) :
    ∃ es : List Entry, m.shared.tables = .ofEntries es ∧ (es.map Entry.flows).Nodup ∧
      (∀ e ∈ es, Filed ctx entries root e ∧ e.Kept (Sited ctx entries code root)) ∧
      Audit.Answered ctx m.shared es := by
  have hempty : root.machine.shared.tables = .ofEntries [] := by
    rw [hroot.consistent.2.2]
    rfl
  obtain ⟨es, htables, hfiled, hnodup⟩ := filed_of_moment hempty hreach hm
  exact ⟨es, htables, hnodup, fun e he => ⟨hfiled e he, (hfiled e he).kept hroot⟩,
    Audit.answered_of_tables htables⟩

def sizedJump : Code := .ofDrafts
  [⟨0, "CODESIZE", none⟩, ⟨1, "CALLVALUE", none⟩, ⟨2, "PUSH1", some "06"⟩, ⟨4, "JUMPI", none⟩,
    ⟨5, "STOP", none⟩, ⟨6, "JUMPDEST", none⟩, ⟨7, "CALLER", none⟩, ⟨8, "SUICIDE", none⟩]

def sizedJumpContext : Context where
  settings := { depthLimit := 1 }
  code := some "3834600657005b33ff\n"
  decide := fun _ => .sat []

def sizedJumpRoot : Call := .first sizedJumpContext sizedJump.assembled

theorem begins_sizedJump : Begins sizedJumpContext sizedJump.linked {} sizedJumpRoot :=
  begins_unsourced sizedJump.linked_sorted rfl (by decide +kernel)

def sizedJumpEnd : Machine :=
  ((explore sizedJumpContext {} sizedJumpRoot.remaining sizedJumpRoot.visit).outcome
    sizedJumpRoot.machine).2

theorem places_sizedJump : sizedJumpEnd.shared.problems.conditionPcs = [{}, .ofList [(3, 3)]] := by
  decide +kernel

/-- Two paths are recorded. The second one goes through the jump, whose place is 3. -/
theorem tables_aligned_sizedJump : ∃ es : List Entry, sizedJumpEnd.shared.tables = .ofEntries es ∧
    es.map Entry.conditionPcs = [{}, .ofList [(3, 3)]] ∧ (es.map Entry.flows).Nodup ∧
    (∀ e ∈ es, e.Kept (Sited sizedJumpContext {} sizedJump sizedJumpRoot)) ∧
    Audit.Answered sizedJumpContext sizedJumpEnd.shared es := by
  -- The end is unfolded by name, so that only the kernel runs the exploration.
  have hmoment : Moment sizedJumpContext {} sizedJumpRoot sizedJumpEnd := by
    unfold sizedJumpEnd
    exact .ended sizedJumpRoot
  obtain ⟨es, htables, hnodup, hrows, hanswered⟩ := tables_aligned begins_sizedJump .refl hmoment
  exact ⟨es, htables, (Audit.places_of_tables htables).symm.trans places_sizedJump, hnodup,
    fun e he => (hrows e he).2, hanswered⟩

theorem place_of_rows {m : Machine} (h : m.shared.problems.conditionPcs = [{}, .ofList [(3, 3)]]) :
    ∃ row ∈ m.shared.problems.conditionPcs, row.get? 3 = some 3 := by
  rw [h]
  exact ⟨_, List.mem_cons_of_mem _ List.mem_cons_self, rfl⟩

/-- The condition of the jump has a place at which there is no instruction. -/
theorem sizedJump_misplaced : sizedJump.Packed ∧
    (∃ row ∈ ((exploreAll sizedJumpContext).outcome
      { shared := { graph := sizedJump.linked } }).2.shared.problems.conditionPcs,
        row.get? 3 = some 3) ∧
    ∀ l ∈ sizedJump.lines, l.address ≠ 3 := by
  refine ⟨?_, ?_, by decide⟩
  · simp only [Code.Packed, sizedJump]
    decide
  · have hrow := place_of_rows places_sizedJump
    unfold sizedJumpEnd at hrow
    rwa [begins_sizedJump.outcome_exploreAll]

end Exec

end EvmAudit
