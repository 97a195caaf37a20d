import EvmAudit.Proofs.Explore.Entry
import EvmAudit.Proofs.Explore.Forks

/-! Conditional jumps. The jump at the end of a block leaves its target and its condition with the
block, and the block forks on them. -/

namespace EvmAudit

namespace Graph

theorem get?_updateBlock_self {g : Graph} {key : Int} {b : Block} (f : Block → Block)
    (h : g.blocks.get? key = some b) : (g.updateBlock key f).blocks.get? key = some (f b) := by
  rw [updateBlock, h]
  exact Table.get?_insert_self _ _ _

theorem blocks_addEdge (g : Graph) (source target : Int) :
    (g.addEdge source target).blocks = g.blocks := by
  unfold addEdge
  dsimp only
  split <;> rfl

def Links (g : Graph) (source target : Int) : Prop :=
  ∃ ts, g.edges.get? source = some ts ∧ target ∈ ts

theorem get?_addEdge (g : Graph) (source target k : Int) : (g.addEdge source target).edges.get? k =
    if k = source ∧ target ∉ (g.edges.get? source).getD [] then
      some ((g.edges.get? source).getD [] ++ [target])
    else g.edges.get? k := by
  unfold addEdge
  by_cases hmem : target ∈ (g.edges.get? source).getD []
  · simp [hmem]
  · by_cases hk : k = source <;> simp [hmem, hk, Table.get?_insert]

end Graph

def Value.IsNumber : Value → Prop
  | .int _ | .word _ => True
  | _ => False

def Value.IsSet (env : Assignment) : Value → Prop
  | .int n => n ≠ 0
  | .word t => t.eval env ≠ 0
  | _ => False

namespace Exec

variable {ctx : Context} {entries : Table Int String}
variable {flag found v : Value} {m m' : Machine} {block n : Int} {site : Site} {texts : List String}
  {text : String} {rest : List Value}

/-! ### What a jump leaves with its block -/

theorem Ran.succeeds {m₁ : Machine} (h : Ran ctx site texts m text m₁)
    (hrun : (runAll ctx site texts).outcome m = (.ok (), m')) : Succeeds ctx site text m₁ := by
  obtain ⟨front, back, rfl, hfront⟩ := ran_iff.1 h
  rw [outcome_runAll_append hfront, runAll] at hrun
  obtain ⟨_, m₂, htext, -⟩ := outcome_bind_eq_ok.1 hrun
  exact ⟨m₂, htext⟩

theorem outcome_targetOf (v : Value) : ∃ r, ∀ m, (targetOf ctx v).outcome m = (r, m) := by
  unfold targetOf
  split
  · exact ⟨_, fun _ => rfl⟩
  · split <;> exact ⟨_, fun _ => rfl⟩

theorem updateBlock_ok {f : Block → Block} (h : (updateBlock block f).outcome m = (.ok (), m')) :
    ∃ b, m.shared.graph.blocks.get? block = some b ∧ m' = { m with shared := { m.shared with
      graph := m.shared.graph.updateBlock block f } } := by
  rw [updateBlock, outcome_bind_getShared] at h
  cases hb : m.shared.graph.blocks.get? block with
  | none =>
    rw [hb] at h
    cases h
  | some b =>
    rw [hb] at h
    cases h
    exact ⟨b, rfl, rfl⟩

theorem addEdge_ok {target : Int} (h : (addEdge block target).outcome m = (.ok (), m')) :
    m' = { m with shared := { m.shared with graph := m.shared.graph.addEdge block target } } ∧
      m'.shared.graph.Links block target := by
  rw [addEdge, outcome_bind_getShared] at h
  split at h
  · cases h
  next ts hts =>
    cases h
    refine ⟨rfl, ?_⟩
    rw [Graph.Links, Graph.get?_addEdge, hts]
    by_cases hmem : target ∈ ts <;> simp [hmem]

theorem toInt_of_targetOf {i : Int} (h : (targetOf ctx v).outcome m = (.ok n, m'))
    (hi : v.toInt? = some i) : i = n := by
  rw [targetOf, hi] at h
  cases h
  rfl

theorem targetAddress_setTarget (b : Block) (h : ∀ i, v.toInt? = some i → i = n) :
    (b.setTarget (if v.isConcrete then v else .int n)).targetAddress = n := by
  cases hv : v.toInt? with
  | none =>
    have hconcrete : v.isConcrete = false := by rw [Value.isConcrete, hv]; rfl
    rw [hconcrete]
    rfl
  | some i =>
    have hconcrete : v.isConcrete = true := by rw [Value.isConcrete, hv]; rfl
    rw [if_pos hconcrete, Block.setTarget, if_pos hconcrete, Block.targetAddress, hv]
    exact h i hv

theorem aim_ok {α : Type} {f : Int → Exec α} {a : α} (hstack : m.path.stack = v :: rest)
    (h : (do let v ← pop; let target ← targetOf ctx v; setTarget block v target; f target).outcome
      m = (.ok a, m')) :
    ∃ n b g, (∀ m₁, (targetOf ctx v).outcome m₁ = (.ok n, m₁)) ∧ g.blocks.get? block = some b ∧
      b.targetAddress = n ∧ (f n).outcome
        { path := { m.path with stack := rest }, shared := { m.shared with graph := g } } =
          (.ok a, m') := by
  obtain ⟨r, hr⟩ := outcome_targetOf v
  rw [outcome_bind, outcome_pop hstack] at h
  dsimp only at h
  rw [outcome_bind, hr] at h
  cases r with
  | error e => cases h
  | ok n =>
    dsimp only at h
    obtain ⟨_, m₁, htarget, h⟩ := outcome_bind_eq_ok.1 h
    obtain ⟨b, hb, rfl⟩ := updateBlock_ok htarget
    exact ⟨n, _, _, hr, Graph.get?_updateBlock_self _ hb,
      targetAddress_setTarget b fun i => toInt_of_targetOf (hr m), h⟩

theorem jump_ok (hstack : m.path.stack = v :: rest)
    (h : (jump ctx block).outcome m = (.ok (), m')) :
    ∃ n b, (∀ m₁, (targetOf ctx v).outcome m₁ = (.ok n, m₁)) ∧
      m'.shared.graph.blocks.get? block = some b ∧ b.targetAddress = n ∧
      m'.shared.graph.Links block n ∧ m'.path = { m.path with stack := rest } := by
  have hneed : 1 ≤ m.path.stack.length := by simp [hstack]
  rw [jump, outcome_bind, outcome_need hneed] at h
  obtain ⟨n, b, g, hn, hb, haddress, hedge⟩ := aim_ok hstack h
  obtain ⟨rfl, hlinks⟩ := addEdge_ok hedge
  rw [← Graph.blocks_addEdge _ block n] at hb
  exact ⟨n, b, hn, hb, haddress, hlinks, rfl⟩

theorem jumpIf_ok (hstack : m.path.stack = v :: flag :: rest)
    (h : (jumpIf ctx block).outcome m = (.ok (), m')) :
    ∃ n found b, (∀ m₁, (targetOf ctx v).outcome m₁ = (.ok n, m₁)) ∧ branchOf flag = .ok found ∧
      m'.shared.graph.blocks.get? block = some b ∧ b.targetAddress = n ∧
      m'.shared.graph.Links block n ∧
      b.branch = some found ∧ m'.path = { m.path with stack := rest } ∧
      m'.shared.solver = m.shared.solver := by
  have hneed : 2 ≤ m.path.stack.length := by simp [hstack]
  rw [jumpIf, outcome_bind, outcome_need hneed] at h
  obtain ⟨n, b, g, hn, hb, haddress, h⟩ := aim_ok hstack h
  rw [outcome_bind, outcome_pop rfl] at h
  dsimp only at h
  obtain ⟨found, hbranch, h⟩ := outcome_ofExcept_bind_eq_ok.1 h
  obtain ⟨_, m₁, hset, h⟩ := outcome_bind_eq_ok.1 h
  obtain ⟨b₁, hb₁, rfl⟩ := updateBlock_ok hset
  obtain ⟨rfl, hlinks⟩ := addEdge_ok h
  have hb₂ := Graph.get?_updateBlock_self (fun b => { b with branch := some found }) hb₁
  rw [hb] at hb₁
  cases hb₁
  rw [← Graph.blocks_addEdge _ block n] at hb₂
  exact ⟨n, found, _, hn, hbranch, hb₂, haddress, hlinks, rfl, rfl, rfl⟩

theorem condition_of_flag (hflag : flag.IsNumber) (h : branchOf flag = .ok found) :
    ∃ c, found.asCondition = .ok c ∧ ∀ env, c.formula.eval env = true ↔ flag.IsSet env := by
  match flag, hflag with
  | .int n, _ =>
    by_cases hn : n = 0
    · subst hn
      cases h
      exact ⟨_, rfl,
        fun env => by
          simp [Condition.formula, Formula.eval, Term.eval, Comparison.holds, Value.IsSet]⟩
    · have hfound : found = .bool true := by
        rw [branchOf, Value.toInt?] at h
        simp only [hn, if_false] at h
        exact (Except.ok.inj h).symm
      subst hfound
      exact ⟨_, rfl, fun env => by simp [Condition.formula, Formula.eval, Value.IsSet, hn]⟩
  | .word t, _ =>
    cases h
    refine ⟨_, rfl, fun env => ?_⟩
    simp [Condition.formula, Formula.eval, Term.eval, Comparison.holds, Value.IsSet]

theorem onward_conditional {previous : Int} {b : Block} {c : Condition}
    (he : m.shared.graph.endings.get? site.block = some .conditional)
    (hb : m.shared.graph.blocks.get? site.block = some b) (hbranch : b.branch = some found)
    (hc : found.asCondition = .ok c) :
    (onward ctx previous site false).outcome m = (.ok (.fork c b), m) := by
  have hfork : (do (← b.getBranch).asCondition : Except Fault Condition) = .ok c := by
    rw [Block.getBranch, hbranch]
    exact hc
  rw [onward, outcome_bind_getShared]
  dsimp only
  rw [he, hb]
  dsimp only
  rw [outcome_bind, outcome_ofExcept, hfork]
  rfl

theorem visit_jumpIf {code : Listing.Code} {v : Visit} {mj : Machine} {target : Value}
    (hgraph : code.linked.Same m.shared.graph) (hrun : Runs ctx entries v m site text mj)
    (hop : (Instruction.ofText text).operation = .jumpIf) (hpass : Succeeds ctx site text mj)
    (hstack : mj.path.stack = target :: flag :: rest) (hflag : flag.IsNumber) :
    ∃ n c b m₁, Forks ctx entries v m site c b m₁ ∧
      (∀ m₂, (targetOf ctx target).outcome m₂ = (.ok n, m₂)) ∧ b.targetAddress = n ∧
      (∀ env, c.formula.eval env = true ↔ flag.IsSet env) ∧
      m₁.shared.graph.blocks.get? v.block = some b ∧ m₁.shared.solver = mj.shared.solver := by
  obtain ⟨texts, m₀, henter, hran⟩ := hrun
  obtain ⟨front, back, rfl, hfront⟩ := ran_iff.1 hran
  obtain ⟨-, rfl, hsite, -, b₀, hb₀, htexts⟩ := enter_some henter
  obtain ⟨b', hb', hfixed⟩ := hgraph.block hb₀
  have hinstructions : b'.instructions = front ++ text :: back :=
    (congrArg Block.instructions hfixed).trans htexts.symm
  obtain ⟨rfl, hending⟩ := Listing.Code.jump_last hb' hinstructions fun l hl =>
    Listing.Line.of_jumpIf hl hop
  obtain ⟨m', hlast⟩ := hpass
  have hrunAll : (runAll ctx site (front ++ [text])).outcome (m.counted v.edge) = (.ok (), m') := by
    rw [outcome_runAll_append hfront, runAll, outcome_bind, hlast]
    rfl
  -- the jump itself, between the bookkeeping before and after it
  obtain ⟨ma, mb, hready, hperform, hafter⟩ := performed_of_traced hlast
  have hbefore := (touches_ready text).alike hready
  rw [effect, hop] at hperform
  obtain ⟨n, found, b, hn, hfound, hb, haddress, -, hbranch, -, hsolver⟩ :=
    jumpIf_ok (hbefore.stack.trans hstack) hperform
  obtain ⟨c, hc, hset⟩ := condition_of_flag hflag hfound
  obtain ⟨m₁, hrecord, -, hgraph₁, hsolver₁, -⟩ := outcome_record m'
  have hendings : m₁.shared.graph.endings.get? site.block = some .conditional := by
    obtain ⟨k, hchanges, -⟩ := @accounts_runAll ctx site (front ++ [text]) (m.counted v.edge)
    rw [hrunAll] at hchanges
    rw [hgraph₁, hchanges.graph.endings, hsite]
    exact (congrArg (·.get? v.block) hgraph.endings).trans hending
  have hblock : m₁.shared.graph.blocks.get? site.block = some b := by
    rw [hgraph₁, hafter.graph, hb]
  refine ⟨n, c, b, m₁, ?_, hn, haddress, hset, hsite ▸ hblock, ?_⟩
  · rw [Forks, visit, outcome_bind, henter]
    dsimp only
    rw [outcome_bind, hrunAll]
    dsimp only
    rw [outcome_bind, hrecord]
    dsimp only
    rw [outcome_bind, onward_conditional hendings hblock hbranch hc]
    rfl
  · rw [hsolver₁, hafter.solver, hsolver, solver_of_ready (by rw [hop]; exact fun _ => rfl) hready]

end Exec

end EvmAudit
