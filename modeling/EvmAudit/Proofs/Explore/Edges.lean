import EvmAudit.Proofs.Explore.Entry
import EvmAudit.Proofs.Machine.Opening

/-! How often the edges count as taken. A call counts the edge that it comes through, and takes this
back only if its block forks and both sides are done. What other calls have counted stays, and
counts against the paths that are explored after them. -/

namespace EvmAudit

def Machine.uncounted (m : Machine) (edge : Int × Int) : Machine :=
  { m with shared := { m.shared with
      visitedEdges := m.shared.visitedEdges.insert edge (m.count edge - 1) } }

theorem Machine.count_uncounted (m : Machine) (edge e : Int × Int) :
    (m.uncounted edge).count e = m.count e - if e = edge then 1 else 0 := by
  rw [count, uncounted, Table.get?_insert]
  by_cases h : e = edge
  · simp [h]
  · simp [h, count]

namespace Exec

variable {α β : Type} {ctx : Context} {entries : Table Int String}
variable {m m' m₁ : Machine} {c root : Call} {P Q : Int × Int → Prop} {x : Exec α} {f : α → Exec β}
  {site : Site} {b : Block} {v : Visit} {texts : List String}

/-! ### Computations that count nothing -/

abbrev KeepsEdges (x : Exec α) : Prop := Fixes (fun m => m.shared.visitedEdges) x

theorem Quiet.keepsEdges (h : Quiet x) : KeepsEdges x :=
  fun m => congrArg Marks.visitedEdges (h m)

theorem keepsEdges_finish : KeepsEdges (finish ctx) := fun m => touches_finish m .edges (by decide)

theorem keepsEdges_callerAfter (caller : Int) : KeepsEdges (callerAfter ctx caller) :=
  within_callerAfter (R := Stays fun m => m.shared.visitedEdges) caller

theorem count_of_edges (h : m'.shared.visitedEdges = m.shared.visitedEdges)
    (e : Int × Int) : m'.count e = m.count e := by rw [Machine.count, h, Machine.count]

theorem count_approach {parent : Path} {c : Condition} {target : Except Fault Int}
    {r : Except Fault (Option Int)} (h : (approach ctx parent c target).outcome m = (r, m'))
    (e : Int × Int) : m'.count e = m.count e := by
  obtain ⟨s, p, hend⟩ := @approach_end ctx parent c target m
  rw [h] at hend
  rw [show m' = _ from hend]
  rfl

/-! ### One call -/

/-- The instructions of the block are done, and its ending is of no known kind. -/
def Strays (ctx : Context) (entries : Table Int String) (v : Visit) (m : Machine) : Prop :=
  ∃ site texts m₁ m₂ b kind, (enter ctx entries v).outcome m = (.ok (some (site, texts)), m₁) ∧
    (runAll ctx site texts).outcome m₁ = (.ok (), m₂) ∧
    m₂.shared.graph.blocks.get? v.block = some b ∧
    m₂.shared.graph.endings.get? v.block = some (.other kind)

theorem edges_onward {previous : Int} {site : Site} {last : Bool} {m : Machine}
    (h : ∀ b kind, last = false → m.shared.graph.blocks.get? site.block = some b →
      m.shared.graph.endings.get? site.block ≠ some (.other kind)) :
    ((onward ctx previous site last).outcome m).2.shared.visitedEdges = m.shared.visitedEdges := by
  rw [onward, outcome_bind_getShared]
  dsimp only
  split
  · rfl
  · rfl
  · exact (keepsEdges_finish.bind fun _ => fixes_pure _) m
  · exact (keepsEdges_finish.bind fun _ => fixes_pure _) m
  · exact ((keepsEdges_callerAfter _).bind fun caller => Fixes.bind (fun _ => rfl) fun _ =>
      fixes_pure _) m
  · exact ((quiet_ofExcept _).keepsEdges.bind fun next => Fixes.bind (fun _ => rfl) fun _ =>
      fixes_pure _) m
  · exact ((quiet_ofExcept _).keepsEdges.bind fun c => fixes_pure _) m
  next kind he hlast hb =>
    obtain ⟨b, hb⟩ := Option.ne_none_iff_exists'.1 hb
    exact absurd he (h b kind (by simpa using hlast) hb)

theorem strays_iff (henter : (enter ctx entries v).outcome m = (.ok (some (site, texts)), m₁)) :
    Strays ctx entries v m ↔ ∃ m₂ b kind, (runAll ctx site texts).outcome m₁ = (.ok (), m₂) ∧
      m₂.shared.graph.blocks.get? site.block = some b ∧
      m₂.shared.graph.endings.get? site.block = some (.other kind) := by
  rw [(enter_some henter).2.2.1]
  constructor
  · rintro ⟨site', texts', m₁', m₂, b, kind, henter', h⟩
    rw [henter] at henter'
    cases henter'
    exact ⟨m₂, b, kind, h⟩
  · exact fun ⟨m₂, b, kind, h⟩ => ⟨site, texts, m₁, m₂, b, kind, henter, h⟩

theorem count_visit_entered {last : Bool}
    (henter : (enter ctx entries v).outcome m = (.ok (some (site, texts)), m₁)) (e : Int × Int) :
    (¬ (last = false ∧ Strays ctx entries v m) → ((visit ctx entries last v).outcome m).2.count e =
      m.count e + if e = v.edge then 1 else 0) ∧
    (last = false → Strays ctx entries v m → ∃ m', m'.count e = m.count e ∧
      (visit ctx entries last v).outcome m = (.error .unknownJumpKind, m')) := by
  rw [strays_iff henter]
  obtain ⟨-, rfl, hblock, -, -⟩ := enter_some henter
  have hrun := @edges_runAll ctx site texts (m.counted v.edge)
  rw [visit, outcome_bind, henter]
  dsimp only
  rw [outcome_bind]
  generalize (runAll ctx site texts).outcome (m.counted v.edge) = o at hrun ⊢
  obtain ⟨cause | u, m₂⟩ := o
  · refine ⟨fun _ => ?_, fun _ ⟨_, _, _, h, _⟩ => by cases h⟩
    exact (count_of_edges hrun e).trans (m.count_counted v.edge e)
  · obtain ⟨m₃, hrecord, -, hgraph, -, hedges⟩ := outcome_record m₂
    have hcount : m₃.count e = m.count e + if e = v.edge then 1 else 0 := by
      rw [count_of_edges (hedges.trans hrun), Machine.count_counted]
    dsimp only
    rw [outcome_bind, hrecord]
    dsimp only
    rw [outcome_bind]
    by_cases hstray : last = false ∧ ∃ b kind, m₃.shared.graph.blocks.get? site.block = some b ∧
        m₃.shared.graph.endings.get? site.block = some (.other kind)
    · obtain ⟨rfl, b, kind, hb, hkind⟩ := hstray
      refine ⟨fun h => absurd ⟨rfl, m₂, b, kind, rfl, hgraph ▸ hb, hgraph ▸ hkind⟩ h,
        fun _ _ => ⟨m₃.uncounted v.edge, ?_, ?_⟩⟩
      · rw [Machine.count_uncounted, hcount]
        omega
      · rw [onward, outcome_bind_getShared]
        dsimp only
        rw [hb, hkind, hblock]
        rfl
    · refine ⟨fun _ => ?_, fun hlast ⟨_, b, kind, h, hb, hkind⟩ => ?_⟩
      · have honward := @edges_onward ctx v.previous site last m₃ fun b kind hlast hb hkind =>
          hstray ⟨hlast, b, kind, hb, hkind⟩
        generalize (onward ctx v.previous site last).outcome m₃ = o at honward
        obtain ⟨_ | a, m₄⟩ := o
        · exact (count_of_edges honward e).trans hcount
        · exact (count_of_edges honward e).trans hcount
      · cases h
        exact absurd ⟨hlast, b, kind, hgraph ▸ hb, hgraph ▸ hkind⟩ hstray

theorem visit_of_strays (h : Strays ctx entries v m) (e : Int × Int) :
    ∃ m', m'.count e = m.count e ∧
    (visit ctx entries false v).outcome m = (.error .unknownJumpKind, m') := by
  obtain ⟨site, texts, m₁, m₂, b, kind, henter, -⟩ := id h
  exact (count_visit_entered henter e).2 rfl h

theorem count_visit_of_counted (last : Bool) (h : Counted ctx entries v)
    (hstrays : ¬ (last = false ∧ Strays ctx entries v m)) (e : Int × Int) :
    ((visit ctx entries last v).outcome m).2.count e = m.count e + if e = v.edge then 1 else 0 := by
  rcases outcome_enter ctx entries v with ⟨hnot, -⟩ | ⟨-, function, henter⟩
  · exact absurd h hnot
  · cases hadmitted : admitted ctx v function m with
    | none =>
      rw [visit, outcome_bind, henter, hadmitted]
      exact m.count_counted v.edge e
    | some found =>
      exact (count_visit_entered ((henter m).trans (by rw [hadmitted])) e).1 hstrays

theorem visit_of_not_counted (last : Bool) (h : ¬ Counted ctx entries v) :
    ((visit ctx entries last v).outcome m).2 = m ∧
      ∀ site onward, ((visit ctx entries last v).outcome m).1 = .ok (site, onward) →
      onward = .stop := by
  rcases outcome_enter ctx entries v with ⟨-, r, hr, henter⟩ | ⟨hcounted, -⟩
  · rw [visit, outcome_bind, henter]
    obtain cause | none | found := r
    · exact ⟨rfl, fun _ _ h => by cases h⟩
    · exact ⟨rfl, fun _ _ h => by cases h; rfl⟩
    · exact absurd rfl (hr found)
  · exact absurd hcounted h

/-! ### What stays counted -/

/-- A call that takes back what it has counted: its block forks and both sides are done, or the
ending of its block is of no known kind. -/
inductive Releases (ctx : Context) (entries : Table Int String) : Call → Prop
  | fork {remaining : Nat} {v : Visit} {m m₁ m₂ : Machine} {site : Site} {c : Condition} {b : Block}
      (hv : Forks ctx entries v m site c b m₁)
      (hdone : (explore ctx entries (remaining + 1) v).outcome m = (.ok (), m₂)) :
      Releases ctx entries ⟨remaining + 1, v, m⟩
  | strays {remaining : Nat} {v : Visit} {m : Machine} (h : Strays ctx entries v m) :
      Releases ctx entries ⟨remaining + 1, v, m⟩

def Retains (ctx : Context) (entries : Table Int String) (c : Call) : Prop :=
  Counted ctx entries c.visit ∧ ¬ Releases ctx entries c

def Lingers (ctx : Context) (entries : Table Int String) (e : Int × Int) (c : Call) : Prop :=
  ∃ d, Relation.ReflTransGen (Next ctx entries) c d ∧ e = d.visit.edge ∧ Retains ctx entries d

theorem lingers_iff {e : Int × Int} :
    Lingers ctx entries e c ↔ (e = c.visit.edge ∧ Retains ctx entries c) ∨
      ∃ c', Next ctx entries c c' ∧ Lingers ctx entries e c' := by
  constructor
  · rintro ⟨d, hd, h⟩
    rcases hd.cases_head with rfl | ⟨c', hc, hd⟩
    · exact .inl h
    · exact .inr ⟨c', hc, d, hd, h⟩
  · rintro (h | ⟨c', hc, d, hd, h⟩)
    · exact ⟨c, .refl, h⟩
    · exact ⟨d, .head hc hd, h⟩

/-- However a computation ends, it adds to the counts of exactly the edges in `P`. -/
def Adds (m : Machine) (o : Except Fault α × Machine) (P : Int × Int → Prop) : Prop :=
  ∃ n : Int × Int → Nat, ∀ e, o.2.count e = m.count e + n e ∧ (n e = 0 ↔ ¬ P e)

theorem Fixes.adds (h : KeepsEdges x) (m : Machine) : Adds m (x.outcome m) fun _ => False :=
  ⟨fun _ => 0, fun e => ⟨by simp [count_of_edges (h m)], by simp⟩⟩

theorem Adds.congr {o : Except Fault α × Machine} (h : Adds m o P) (hpq : ∀ e, P e ↔ Q e) :
    Adds m o Q := by
  obtain ⟨n, hn⟩ := h
  exact ⟨n, fun e => ⟨(hn e).1, (hn e).2.trans (not_congr (hpq e))⟩⟩

theorem Adds.trans {r : Except Fault α} {o : Except Fault β × Machine} (h₁ : Adds m (r, m₁) P)
    (h₂ : Adds m₁ o Q) : Adds m o fun e => P e ∨ Q e := by
  obtain ⟨i, hi⟩ := h₁
  obtain ⟨j, hj⟩ := h₂
  refine ⟨fun e => i e + j e, fun e => ?_⟩
  obtain ⟨hcount₁, hzero₁⟩ := hi e
  obtain ⟨hcount₂, hzero₂⟩ := hj e
  constructor
  · rw [hcount₂, hcount₁]
    push_cast
    omega
  · rw [Nat.add_eq_zero_iff, hzero₁, hzero₂, not_or]

theorem Adds.bind {R : α → Machine → Int × Int → Prop} (hx : Adds m (x.outcome m) P)
    (hf : ∀ a m₁, x.outcome m = (.ok a, m₁) → Adds m₁ ((f a).outcome m₁) (R a m₁)) :
    Adds m ((x >>= f).outcome m) fun e => P e ∨ ∃ a m₁, x.outcome m = (.ok a, m₁) ∧ R a m₁ e := by
  rw [outcome_bind]
  generalize x.outcome m = o at hx hf ⊢
  obtain ⟨cause | a, m₁⟩ := o
  · exact hx.congr fun e => by simp
  · exact (hx.trans (hf a m₁ rfl)).congr fun e => by simp

theorem adds_branch {parent : Path} {c : Condition} {target : Except Fault Int}
    {continue_ : Int → Exec Unit} {R : Int → Machine → Int × Int → Prop} {m : Machine}
    (hk : ∀ next m', (approach ctx parent c target).outcome m = (.ok (some next), m') →
      Adds m' ((continue_ next).outcome m') (R next m')) :
    Adds m ((branch ctx parent c target continue_).outcome m) fun e =>
      ∃ next m', (approach ctx parent c target).outcome m = (.ok (some next), m') ∧
      R next m' e := by
  obtain ⟨s, p, hend, -⟩ := @branch_end ctx parent c target continue_ m
  have hturned : Adds m ((approach ctx parent c target).outcome m) fun _ => False := by
    refine ⟨fun _ => 0, fun e => ⟨?_, by simp⟩⟩
    have hcount := count_approach (Prod.eta ((approach ctx parent c target).outcome m)).symm e
    simp [hcount]
  unfold Adds
  rw [hend]
  change Adds m (Except.ok (), sideEnd ctx parent c target continue_ m) _
  rw [sideEnd]
  rcases ho : (approach ctx parent c target).outcome m with ⟨e | _ | next, m'⟩ <;>
    rw [ho] at hturned
  · exact hturned.congr (by simp)
  · exact hturned.congr (by simp)
  · exact (hturned.trans (hk next m' ho)).congr (by simp)

theorem adds_sides {remaining : Nat} {c : Condition} (hv : Forks ctx entries v m site c b m₁)
    (ih : ∀ v m, Adds m ((explore ctx entries remaining v).outcome m)
      fun e => Lingers ctx entries e ⟨remaining, v, m⟩) :
    Adds m₁ ((do
        branch ctx m₁.path c (.ok b.targetAddress) (side ctx entries remaining v site)
        branch ctx m₁.path (.symbolic c.not) b.getFallsTo
          (side ctx entries remaining v site)).outcome m₁)
      fun e => ∃ c', Next ctx entries ⟨remaining + 1, v, m⟩ c' ∧ Lingers ctx entries e c' := by
  have hside (c : Condition) (target : Except Fault Int) (m₂ : Machine) :=
    @adds_branch ctx m₁.path c target (side ctx entries remaining v site)
      (fun next m' e => Lingers ctx entries e ⟨remaining, sideOf v site next, m'⟩) m₂
      fun next m' _ => ih (sideOf v site next) m'
  refine ((hside c (.ok b.targetAddress) m₁).bind fun _ m₂ _ =>
    hside (.symbolic c.not) b.getFallsTo m₂).congr fun e => ⟨?_, ?_⟩
  · rintro (⟨next, m₂, ht, h⟩ | ⟨_, m₂, ht, next, m₃, hf, h⟩)
    · exact ⟨_, .target hv ht, h⟩
    · exact ⟨_, .fall hv ht hf, h⟩
  · rintro ⟨c', hc, h⟩
    rcases hc.inv hv with ⟨next, m₂, ht, rfl⟩ | ⟨next, m₂, m₃, ht, hf, rfl⟩
    · exact .inl ⟨next, m₂, ht, h⟩
    · exact .inr ⟨_, m₂, ht, next, m₃, hf, h⟩

theorem explore_fork {remaining : Nat} {v : Visit} {m m₁ : Machine} {site : Site} {c : Condition}
    {b : Block} (hv : Forks ctx entries v m site c b m₁) :
    (explore ctx entries (remaining + 1) v).outcome m =
      ((do
        branch ctx m₁.path c (.ok b.targetAddress) (side ctx entries remaining v site)
        branch ctx m₁.path (.symbolic c.not) b.getFallsTo (side ctx entries remaining v site)) >>=
        fun _ => leaveEdge v.previous v.block).outcome m₁ := by
  rw [explore, outcome_bind, hv, bind_assoc]
  dsimp only
  rw [outcome_bind_getPath]
  rfl

theorem counted_of_onward {last : Bool} {onward : Onward}
    (hv : (visit ctx entries last v).outcome m = (.ok (site, onward), m₁))
    (h : onward ≠ .stop) : Counted ctx entries v := by
  by_contra hnot
  exact h ((visit_of_not_counted last hnot).2 site onward (by rw [hv]))

theorem not_strays_of_ok {found : Site × Onward}
    (hv : (visit ctx entries false v).outcome m = (.ok found, m₁)) : ¬ Strays ctx entries v m := by
  intro h
  obtain ⟨m', -, herr⟩ := visit_of_strays h v.edge
  rw [hv] at herr
  cases herr

theorem count_onward {onward : Onward}
    (hv : (visit ctx entries false v).outcome m = (.ok (site, onward), m₁)) (h : onward ≠ .stop)
    (e : Int × Int) : m₁.count e = m.count e + if e = v.edge then 1 else 0 := by
  have hcount := count_visit_of_counted false (counted_of_onward hv h)
    (fun hs => not_strays_of_ok hv hs.2) e
  rwa [hv] at hcount

theorem adds_visit (last : Bool) (v : Visit) (m : Machine) :
    Adds m ((visit ctx entries last v).outcome m) fun e =>
      e = v.edge ∧ Counted ctx entries v ∧ ¬ (last = false ∧ Strays ctx entries v m) := by
  by_cases hcounted : Counted ctx entries v
  · by_cases hstrays : last = false ∧ Strays ctx entries v m
    · refine ⟨fun _ => 0, fun e => ⟨?_, by simp [hstrays]⟩⟩
      obtain ⟨rfl, hstrays⟩ := hstrays
      obtain ⟨m', hcount, herr⟩ := visit_of_strays hstrays e
      rw [herr]
      simpa using hcount
    · refine ⟨fun e => if e = v.edge then 1 else 0, fun e => ⟨?_, by simp [hcounted, hstrays]⟩⟩
      rw [count_visit_of_counted last hcounted hstrays e]
      dsimp only
      split <;> rfl
  · refine ⟨fun _ => 0, fun e => ⟨?_, by simp [hcounted]⟩⟩
    simp [(visit_of_not_counted last hcounted).1]

theorem adds_fork {remaining : Nat} {c : Condition} (hv : Forks ctx entries v m site c b m₁)
    (ih : ∀ v m, Adds m ((explore ctx entries remaining v).outcome m)
      fun e => Lingers ctx entries e ⟨remaining, v, m⟩) :
    Adds m ((explore ctx entries (remaining + 1) v).outcome m)
      fun e => Lingers ctx entries e ⟨remaining + 1, v, m⟩ := by
  have hcounted := counted_of_onward hv (by nofun)
  have hstrays := not_strays_of_ok hv
  have hself := count_onward hv (by nofun)
  have hexplore := @explore_fork ctx entries remaining v m m₁ site c b hv
  obtain ⟨n, hn⟩ := adds_sides hv ih
  rw [outcome_bind] at hexplore
  generalize (do
      branch ctx m₁.path c (.ok b.targetAddress) (side ctx entries remaining v site)
      branch ctx m₁.path (.symbolic c.not) b.getFallsTo (side ctx entries remaining v site)).outcome
      m₁ = o
    at hexplore hn
  obtain ⟨cause | u, m₂⟩ := o <;> dsimp only at hexplore hn
  · -- the exploration ends inside a side, and the edge stays counted
    have hretains : Retains ctx entries ⟨remaining + 1, v, m⟩ := by
      refine ⟨hcounted, fun h => ?_⟩
      cases h with
      | fork hv' hdone => rw [hexplore] at hdone; cases hdone
      | strays h => exact hstrays h
    refine ⟨fun e => (if e = v.edge then 1 else 0) + n e, fun e => ?_⟩
    obtain ⟨hcount, hzero⟩ := hn e
    dsimp only
    rw [hexplore, lingers_iff]
    dsimp only
    rw [hcount, hself, not_or, ← hzero, Nat.add_eq_zero_iff]
    refine ⟨?_, and_congr_left' ?_⟩
    · split <;> omega
    · simp [hretains]
  · have hdone : (explore ctx entries (remaining + 1) v).outcome m =
        (.ok (), m₂.uncounted v.edge) :=
      hexplore
    have hretains : ¬ Retains ctx entries ⟨remaining + 1, v, m⟩ := fun h => h.2 (.fork hv hdone)
    refine ⟨n, fun e => ?_⟩
    obtain ⟨hcount, hzero⟩ := hn e
    dsimp only
    rw [hdone, lingers_iff]
    dsimp only
    rw [Machine.count_uncounted, hcount, hself, hzero]
    refine ⟨by omega, ?_⟩
    simp [hretains]

theorem adds_explore (remaining : Nat) (v : Visit) (m : Machine) :
    Adds m ((explore ctx entries remaining v).outcome m) fun e =>
      Lingers ctx entries e ⟨remaining, v, m⟩ := by
  induction remaining generalizing v m with
  | zero =>
    rw [explore]
    refine ((adds_visit true v m).bind fun _ m₁ _ => (quiet_pure ()).keepsEdges.adds m₁).congr
      fun e => ?_
    have hnext : ¬ ∃ c', Next ctx entries ⟨0, v, m⟩ c' ∧ Lingers ctx entries e c' := by
      rintro ⟨c', hc, -⟩
      cases hc
    have hretains : Retains ctx entries ⟨0, v, m⟩ ↔ Counted ctx entries v :=
      and_iff_left fun h => by cases h
    rw [lingers_iff, hretains]
    simp [hnext]
  | succ remaining ih =>
    by_cases hfork : ∃ site c b m₁, Forks ctx entries v m site c b m₁
    · obtain ⟨site, c, b, m₁, hv⟩ := hfork
      exact adds_fork hv ih
    have hretains : Retains ctx entries ⟨remaining + 1, v, m⟩ ↔ Counted ctx entries v ∧
        ¬ Strays ctx entries v m := by
      refine and_congr_right fun _ => not_congr ⟨fun h => ?_, .strays⟩
      cases h with
      | fork hv _ => exact absurd ⟨_, _, _, _, hv⟩ hfork
      | strays h => exact h
    rw [explore]
    refine ((adds_visit false v m).bind (R := fun _ _ e =>
      ∃ c', Next ctx entries ⟨remaining + 1, v, m⟩ c' ∧ Lingers ctx entries e c') ?_).congr ?_
    · rintro ⟨site, onward⟩ m₁ hv
      cases onward with
      | stop =>
        refine ((quiet_pure ()).keepsEdges.adds m₁).congr fun e => ⟨False.elim, ?_⟩
        rintro ⟨c', hc, -⟩
        exact hc.inv hv
      | go next =>
        refine (ih next m₁).congr fun e => ⟨fun h => ⟨_, .go hv, h⟩, ?_⟩
        rintro ⟨c', hc, h⟩
        obtain rfl := hc.inv hv
        exact h
      | fork c b => exact absurd ⟨_, _, _, _, hv⟩ hfork
    · intro e
      rw [lingers_iff, hretains]
      refine or_congr (by simp) ⟨?_, ?_⟩
      · rintro ⟨_, _, _, h⟩
        exact h
      · rintro ⟨c', hc, h⟩
        cases hc with
        | go hv => exact ⟨_, _, hv, _, .go hv, h⟩
        | target hv ht => exact ⟨_, _, hv, _, .target hv ht, h⟩
        | fall hv ht hf => exact ⟨_, _, hv, _, .fall hv ht hf, h⟩

/-! ### The way to a call -/

/-- The way to a call: the edges that lead to it, the last one first, and the sides of branches that
are done before it is made. -/
inductive Way (ctx : Context) (entries : Table Int String) (root : Call) :
    List (Int × Int) → (Call → Prop) → Call → Prop
  | start : Way ctx entries root [] (fun _ => False) root
  | go {path : List (Int × Int)} {behind : Call → Prop} {remaining : Nat} {v next : Visit}
      {m m₁ : Machine} {site : Site} (h : Way ctx entries root path behind ⟨remaining + 1, v, m⟩)
      (hv : (visit ctx entries false v).outcome m = (.ok (site, .go next), m₁)) :
      Way ctx entries root (v.edge :: path) behind ⟨remaining, next, m₁⟩
  | target {path : List (Int × Int)} {behind : Call → Prop} {remaining : Nat} {v : Visit}
      {m m₁ m₂ : Machine} {site : Site} {c : Condition} {b : Block} {next : Int}
      (h : Way ctx entries root path behind ⟨remaining + 1, v, m⟩)
      (hv : Forks ctx entries v m site c b m₁)
      (ht : (approach ctx m₁.path c (.ok b.targetAddress)).outcome m₁ = (.ok (some next), m₂)) :
      Way ctx entries root (v.edge :: path) behind ⟨remaining, sideOf v site next, m₂⟩
  | fall {path : List (Int × Int)} {behind : Call → Prop} {remaining : Nat} {v : Visit}
      {m m₁ m₂ m₃ : Machine} {site : Site} {c : Condition} {b : Block} {next : Int}
      (h : Way ctx entries root path behind ⟨remaining + 1, v, m⟩)
      (hv : Forks ctx entries v m site c b m₁)
      (ht : (branch ctx m₁.path c (.ok b.targetAddress) fun next =>
        explore ctx entries remaining (sideOf v site next)).outcome m₁ = (.ok (), m₂))
      (hf : (approach ctx m₁.path (.symbolic c.not) b.getFallsTo).outcome m₂ =
        (.ok (some next), m₃)) :
      Way ctx entries root (v.edge :: path)
        (fun d => behind d ∨ ∃ next m', (approach ctx m₁.path c (.ok b.targetAddress)).outcome m₁ =
          (.ok (some next), m') ∧ d = ⟨remaining, sideOf v site next, m'⟩)
        ⟨remaining, sideOf v site next, m₃⟩

theorem exists_way (h : Reaches ctx entries root c) :
    ∃ path behind, Way ctx entries root path behind c := by
  induction h with
  | refl => exact ⟨_, _, .start⟩
  | tail _ hnext ih =>
    obtain ⟨path, behind, hway⟩ := ih
    cases hnext with
    | go hv => exact ⟨_, _, hway.go hv⟩
    | target hv ht => exact ⟨_, _, hway.target hv ht⟩
    | fall hv ht hf => exact ⟨_, _, hway.fall hv ht hf⟩

theorem count_edge_cons (path : List (Int × Int)) (v : Visit) (e : Int × Int) :
    ((v.edge :: path).count e : Int) = path.count e + if e = v.edge then 1 else 0 := by
  rw [List.count_cons]
  by_cases he : e = v.edge
  · simp [he]
  · have hne : ¬ v.edge = e := fun h => he h.symm
    simp [he, hne]

theorem count_way {path : List (Int × Int)} {behind : Call → Prop}
    (h : Way ctx entries root path behind c) : ∃ n :
    Int × Int → Nat, ∀ e, c.machine.count e = root.machine.count e + path.count e + n e ∧
      (n e = 0 ↔ ∀ d, behind d → ¬ Lingers ctx entries e d) := by
  induction h with
  | start => exact ⟨fun _ => 0, fun e => by simp⟩
  | go h hv ih =>
    obtain ⟨n, hn⟩ := ih
    refine ⟨n, fun e => ⟨?_, (hn e).2⟩⟩
    have hbefore := (hn e).1
    have hcount := count_onward hv (by nofun) e
    rw [count_edge_cons]
    dsimp only at hbefore ⊢
    omega
  | target h hv ht ih =>
    obtain ⟨n, hn⟩ := ih
    refine ⟨n, fun e => ⟨?_, (hn e).2⟩⟩
    have hbefore := (hn e).1
    have hcount := count_onward hv (by nofun) e
    have hside := count_approach ht e
    rw [count_edge_cons]
    dsimp only at hbefore ⊢
    omega
  | @fall path behind remaining v m m₁ m₂ m₃ site c b next h hv ht hf ih =>
    obtain ⟨n, hn⟩ := ih
    obtain ⟨k, hk⟩ := @adds_branch ctx m₁.path c (.ok b.targetAddress)
      (side ctx entries remaining v site)
      (fun next m' e => Lingers ctx entries e ⟨remaining, sideOf v site next, m'⟩) m₁
      fun next m' _ => adds_explore remaining (sideOf v site next) m'
    refine ⟨fun e => n e + k e, fun e => ?_⟩
    have hbefore := (hn e).1
    have hcount := count_onward hv (by nofun) e
    have hdone := (hk e).1
    have hside := count_approach hf e
    rw [ht] at hdone
    rw [count_edge_cons]
    dsimp only at hbefore hdone ⊢
    refine ⟨by push_cast; omega, ?_⟩
    rw [Nat.add_eq_zero_iff, (hn e).2, (hk e).2]
    constructor
    · rintro ⟨hbehind, hlast⟩ d (hd | ⟨next, m', ho, rfl⟩)
      · exact hbehind d hd
      · exact fun hl => hlast ⟨next, m', ho, hl⟩
    · refine fun hall => ⟨fun d hd => hall d (.inl hd), ?_⟩
      rintro ⟨next, m', ho, hl⟩
      exact hall _ (.inr ⟨next, m', ho, rfl⟩) hl

theorem quiet_start : Quiet (start ctx) := quiet_of_touches touches_start (by decide)

theorem Begins.count {g : Graph} (h : Begins ctx g entries root) (e : Int × Int) :
    root.machine.count e = 0 := by
  have hedges := (@quiet_start ctx).keepsEdges { shared := { graph := g } }
  rw [h.started] at hedges
  rw [count_of_edges hedges]
  rfl

/-- At every call of an exploration an edge counts as often as the way to the call takes it, plus
what the sides of branches that are done have left behind. The loop limit is applied to this sum.
When the call is over, the counts are those from before but for the edges that linger below it. -/
theorem edge_counts_of_way {g : Graph} {root c : Call} (hroot : Begins ctx g entries root)
    (hreach : Relation.ReflTransGen (Next ctx entries) root c) :
    ∃ path behind, Way ctx entries root path behind c ∧ ∃ extra : Int × Int → Nat,
      (∀ e, c.machine.count e = path.count e + extra e ∧
        (extra e = 0 ↔ ∀ d, behind d → ¬ Lingers ctx entries e d)) ∧
      (Counted ctx entries c.visit → ∃ function, (enter ctx entries c.visit).outcome c.machine =
        (.ok (if path.count c.visit.edge + extra c.visit.edge + 1 > ctx.settings.loopLimit then none
          else if c.machine.path.analysis.gas > ctx.settings.gasLimit then none
          else (c.machine.shared.graph.blocks.get? c.visit.block).map fun b =>
            (⟨c.visit.block, c.visit.caller, function⟩, b.instructions)),
          c.machine.counted c.visit.edge)) ∧
      ∃ kept : Int × Int → Nat, ∀ e,
        ((explore ctx entries c.remaining c.visit).outcome c.machine).2.count e =
          c.machine.count e + kept e ∧
        (kept e = 0 ↔ ¬ Lingers ctx entries e c) := by
  obtain ⟨path, behind, hway⟩ := exists_way hreach
  obtain ⟨extra, hextra⟩ := count_way hway
  have hcount (e : Int × Int) : c.machine.count e = path.count e + extra e := by
    have h := (hextra e).1
    rw [hroot.count] at h
    omega
  refine ⟨path, behind, hway, extra, fun e => ⟨hcount e, (hextra e).2⟩, fun hcounted => ?_,
    adds_explore c.remaining c.visit c.machine⟩
  rcases outcome_enter ctx entries c.visit with ⟨hnot, -⟩ | ⟨-, function, henter⟩
  · exact absurd hcounted hnot
  · refine ⟨function, ?_⟩
    rw [henter, admitted, hcount]

/-! ### Two paths that share an edge -/

def joining : Graph where
  endings := .ofList [(0, .conditional), (4, .fallsTo), (5, .fallsTo), (6, .terminal)]
  edges := .ofList [(0, [4]), (4, [5]), (5, [6]), (6, [])]
  blocks := .ofList [
    (0, { start := 0, stop := 3, instructions := ["CALLVALUE ", "PUSH1 0x05 ", "JUMPI "]
          fallsTo := some 4 }),
    (4, { start := 4, stop := 4, instructions := ["JUMPDEST "], fallsTo := some 5 }),
    (5, { start := 5, stop := 5, instructions := ["JUMPDEST "], fallsTo := some 6 }),
    (6, { start := 6, stop := 7, instructions := ["JUMPDEST ", "STOP "] })]

def limited (loopLimit : Int) : Context where
  settings := { loopLimit, depthLimit := 4 }
  decide := fun _ => .sat []

def joiningRoot (loopLimit : Int) : Call := .first (limited loopLimit) joining

theorem begins_joining : Begins (limited 1) joining {} (joiningRoot 1) :=
  begins_unsourced rfl rfl (by decide +kernel)

def behindJump? (ctx : Context) (entries : Table Int String) : Call → Option Call
  | ⟨0, _, _⟩ => none
  | ⟨remaining + 1, v, m⟩ =>
    match (visit ctx entries false v).outcome m with
    | (.ok (site, .fork c b), m₁) =>
      match (branch ctx m₁.path c (.ok b.targetAddress) fun next =>
          explore ctx entries remaining (sideOf v site next)).outcome m₁ with
      | (.ok (), m₂) =>
        match (approach ctx m₁.path (.symbolic c.not) b.getFallsTo).outcome m₂ with
        | (.ok (some next), m₃) => some ⟨remaining, sideOf v site next, m₃⟩
        | _ => none
      | _ => none
    | _ => none

theorem way_behindJump (h : behindJump? ctx entries root = some c) :
    Next ctx entries root c ∧ ∃ behind, Way ctx entries root [root.visit.edge] behind c := by
  unfold behindJump? at h
  split at h
  · cases h
  · split at h
    · split at h
      · split at h
        · cases h
          exact ⟨.fall ‹_› ‹_› ‹_›, _, Way.fall .start ‹_› ‹_› ‹_›⟩
        · cases h
      · cases h
    · cases h

/-- When the block behind the jump is entered, an edge counts that is not on the way to it. -/
theorem edge_counts_of_way_joining : ∃ c path behind,
    Begins (limited 1) joining {} (joiningRoot 1) ∧
    Relation.ReflTransGen (Next (limited 1) {}) (joiningRoot 1) c ∧
    Way (limited 1) {} (joiningRoot 1) path behind c ∧ c.machine.count (5, 6) = 1 ∧
    ∃ extra : Int × Int → Nat, ∀ e, c.machine.count e = path.count e + extra e ∧
      (extra e = 0 ↔ ∀ d, behind d → ¬ Lingers (limited 1) {} e d) := by
  have hcount : (behindJump? (limited 1) {} (joiningRoot 1)).map (·.machine.count (5, 6)) =
      some 1 := by
    decide +kernel
  obtain ⟨c, hc, hone⟩ := Option.map_eq_some_iff.1 hcount
  have hreach := Relation.ReflTransGen.single (way_behindJump hc).1
  obtain ⟨path, behind, hway, extra, hextra, -⟩ := edge_counts_of_way begins_joining hreach
  exact ⟨c, path, behind, begins_joining, hreach, hway, hone, extra, hextra⟩

/-- Every edge can be taken only once in this graph. Still the second path is cut if the limit is
one, for the edge behind block 5 has been counted on the first. -/
theorem shared_edge_cuts_path :
    (∃ c behind, Way (limited 1) {} (joiningRoot 1) [(0, 0)] behind c ∧ c.visit.block = 4 ∧
      c.machine.count (5, 6) = 1) ∧
    ((exploreAll (limited 1)).outcome { shared := { graph := joining } }).2.shared.paths = 1 ∧
    ((exploreAll (limited 2)).outcome { shared := { graph := joining } }).2.shared.paths = 2 := by
  have hcall : (behindJump? (limited 1) {} (joiningRoot 1)).map (fun c =>
      (c.visit.block, c.machine.count (5, 6))) = some (4, 1) := by
    decide +kernel
  obtain ⟨c, hc, hboth⟩ := Option.map_eq_some_iff.1 hcall
  obtain ⟨hblock, hone⟩ := Prod.mk.inj hboth
  obtain ⟨behind, hway⟩ := (way_behindJump hc).2
  exact ⟨⟨c, behind, hway, hblock, hone⟩, by decide +kernel⟩

end Exec

end EvmAudit
