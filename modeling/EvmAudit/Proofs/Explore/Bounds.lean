import EvmAudit.Proofs.Explore.Moments

/-! How far an exploration can go. On no path is an edge taken more often than the loop limit
allows, and the calls of an exploration form a binary tree whose height is the depth limit. -/

namespace EvmAudit.Exec

variable {ctx : Context} {entries : Table Int String}

/-! ### The loop limit -/

theorem count_of_runs {v : Visit} {m m' : Machine} {site : Site} {text : String}
    (h : Runs ctx entries v m site text m') (e : Int × Int) :
    m'.count e = m.count e + if e = v.edge then 1 else 0 := by
  obtain ⟨texts, m₁, henter, hran⟩ := h
  obtain ⟨-, rfl, -⟩ := enter_some henter
  have hedges : m'.shared.visitedEdges = (m.counted v.edge).shared.visitedEdges := by
    clear henter
    generalize m.counted v.edge = m₁ at hran
    induction hran with
    | here => rfl
    | @there first text rest m m₁ m' hfirst _ ih =>
      have hkept := (@notes_traced ctx site first m).edges
      rw [hfirst] at hkept
      exact ih.trans hkept
  rw [count_of_edges hedges, Machine.count_counted]

theorem count_le_side (remaining : Nat) (v : Visit) (site : Site) (parent : Path) (c : Condition)
    (target : Except Fault Int) (m : Machine) (e : Int × Int) :
    m.count e ≤
      ((branch ctx parent c target (side ctx entries remaining v site)).outcome m).2.count e := by
  obtain ⟨n, hn⟩ := @adds_branch ctx parent c target
    (side ctx entries remaining v site)
    (fun next m' e => Lingers ctx entries e ⟨remaining, sideOf v site next, m'⟩) m
    fun next m' _ => adds_explore remaining (sideOf v site next) m'
  have := (hn e).1
  omega

theorem count_le_approach (parent : Path) (c : Condition) (target : Except Fault Int) (m : Machine)
    (e : Int × Int) : m.count e ≤ ((approach ctx parent c target).outcome m).2.count e :=
  Int.le_of_eq (count_approach rfl e).symm

section

variable {v : Visit} {m m₁ : Machine} {site : Site} {c : Condition} {b : Block}

theorem count_le_fork (hv : Forks ctx entries v m site c b m₁)
    (e : Int × Int) : m.count e ≤ m₁.count e := by
  have hcount := count_onward hv (by nofun) e
  split at hcount <;> omega

theorem count_le_target {remaining : Nat} {m₂ : Machine} (hv : Forks ctx entries v m site c b m₁)
    (ht : (branch ctx m₁.path c (.ok b.targetAddress) (side ctx entries remaining v site)).outcome
      m₁ = (.ok (), m₂)) (e : Int × Int) : m.count e ≤ m₂.count e := by
  have hside := @count_le_side ctx entries remaining v site m₁.path c (.ok b.targetAddress) m₁ e
  rw [ht] at hside
  exact Int.le_trans (count_le_fork hv e) hside

end

theorem Moment.count_le {c : Call} {m : Machine} (h : Moment ctx entries c m) (e : Int × Int) :
    c.machine.count e ≤ m.count e := by
  cases h with
  | called => exact Int.le_refl _
  | entered =>
    rcases outcome_enter ctx entries c.visit with ⟨-, r, -, henter⟩ | ⟨-, function, henter⟩
    · exact Int.le_of_eq (by rw [henter])
    · rw [henter]
      dsimp only
      rw [Machine.count_counted]
      split <;> omega
  | before h =>
    rw [count_of_runs h]
    split <;> omega
  | @after _ site text m h =>
    rw [count_of_edges (notes_traced site text m).edges, count_of_runs h]
    split <;> omega
  | left =>
    obtain ⟨n, hn⟩ := @adds_visit ctx entries (c.remaining == 0) c.visit c.machine
    have := (hn e).1
    omega
  | turned hv => exact Int.le_trans (count_le_fork hv e) (count_le_approach _ _ _ _ e)
  | returned hv => exact Int.le_trans (count_le_fork hv e) (count_le_side _ _ _ _ _ _ _ e)
  | turnedBehind hv ht => exact Int.le_trans (count_le_target hv ht e) (count_le_approach _ _ _ _ e)
  | returnedBehind hv ht =>
    exact Int.le_trans (count_le_target hv ht e) (count_le_side _ _ _ _ _ _ _ e)
  | ended =>
    obtain ⟨n, hn⟩ := @adds_explore ctx entries c.remaining c.visit c.machine
    have := (hn e).1
    omega

theorem count_lt_limit {v : Visit} {m m₁ : Machine} {found : Site × List String}
    (h : (enter ctx entries v).outcome m = (.ok (some found), m₁)) :
    m.count v.edge + 1 ≤ ctx.settings.loopLimit := by
  rcases outcome_enter ctx entries v with ⟨-, r, hr, henter⟩ | ⟨-, function, henter⟩ <;>
    rw [henter] at h
  · exact absurd (Prod.mk.inj h).1 (hr found)
  · have hadmitted := Except.ok.inj (Prod.mk.inj h).1
    unfold admitted at hadmitted
    split at hadmitted
    · cases hadmitted
    · omega

section Loops

variable {root c : Call} {path : List (Int × Int)} {behind : Call → Prop}

theorem count_le_of_way (hroot : ∀ e, root.machine.count e = 0)
    (h : Way ctx entries root path behind c) (e : Int × Int) :
    (path.count e : Int) ≤ c.machine.count e := by
  obtain ⟨n, hn⟩ := count_way h
  have hcount := (hn e).1
  rw [hroot] at hcount
  omega

theorem count_entered (hroot : ∀ e, root.machine.count e = 0)
    (h : Way ctx entries root path behind c) {found : Site × List String}
    (henter : (enter ctx entries c.visit).outcome c.machine = (.ok (some found), m₁)) :
    ((c.visit.edge :: path).count c.visit.edge : Int) ≤ ctx.settings.loopLimit := by
  have hway := count_le_of_way hroot h c.visit.edge
  have hlimit := count_lt_limit henter
  rw [count_edge_cons, if_pos rfl]
  omega

theorem count_cons_le {v : Visit} {limit : Int}
    (hself : ((v.edge :: path).count v.edge : Int) ≤ limit)
    (hpath : ∀ e ∈ path, (path.count e : Int) ≤ limit) :
    ∀ e ∈ v.edge :: path, ((v.edge :: path).count e : Int) ≤ limit := by
  intro e he
  by_cases hedge : e = v.edge
  · rwa [hedge]
  · have hold := hpath e ((List.mem_cons.1 he).resolve_left hedge)
    rwa [count_edge_cons, if_neg hedge, Int.add_zero]

theorem count_le_onward (hroot : ∀ e, root.machine.count e = 0)
    (h : Way ctx entries root path behind c)
    (hpath : ∀ e ∈ path, (path.count e : Int) ≤ ctx.settings.loopLimit) {site : Site}
    {onward : Onward}
    (hv : (visit ctx entries false c.visit).outcome c.machine = (.ok (site, onward), m₁))
    (hgo : onward ≠ .stop) : ∀ e ∈ c.visit.edge :: path, ((c.visit.edge :: path).count e : Int) ≤
      ctx.settings.loopLimit := by
  obtain ⟨texts, m', -, -, henter, -⟩ := entered_of_onward hv hgo
  exact count_cons_le (count_entered hroot h henter) hpath

theorem count_le_limit (hroot : ∀ e, root.machine.count e = 0)
    (h : Way ctx entries root path behind c) :
    ∀ e ∈ path, (path.count e : Int) ≤ ctx.settings.loopLimit := by
  induction h with
  | start => exact fun e he => absurd he List.not_mem_nil
  | go h hv ih => exact count_le_onward hroot h ih hv (by nofun)
  | target h hv _ ih => exact count_le_onward hroot h ih hv (by nofun)
  | fall h hv _ _ ih => exact count_le_onward hroot h ih hv (by nofun)

/-- On every path of an exploration, each edge is taken at most as often as the loop limit says,
counting the block that is being executed. At no moment is a count negative. -/
theorem loops_bounded {g : Graph} (hroot : Begins ctx g entries root)
    (hway : Way ctx entries root path behind c) :
    (∀ e ∈ path, (path.count e : Int) ≤ ctx.settings.loopLimit) ∧
    (∀ found m₁, (enter ctx entries c.visit).outcome c.machine = (.ok (some found), m₁) →
      ∀ e ∈ c.visit.edge :: path,
        ((c.visit.edge :: path).count e : Int) ≤ ctx.settings.loopLimit) ∧
    ∀ m, Moment ctx entries c m → ∀ e n, m.shared.visitedEdges.get? e = some n → 0 ≤ n := by
  have hpath := count_le_limit hroot.count hway
  refine ⟨hpath, fun found m₁ henter => ?_, fun m hm e n hn => ?_⟩
  · exact count_cons_le (count_entered hroot.count hway henter) hpath
  · have hcall := count_le_of_way hroot.count hway e
    have hmoment := hm.count_le e
    have hcount : m.count e = n := by rw [Machine.count, hn]; rfl
    omega

end Loops

def looping : Graph where
  endings := .ofList [(0, .unconditional)]
  edges := .ofList [(0, [])]
  blocks := .ofList [
    (0, { start := 0, stop := 3, instructions := ["JUMPDEST ", "PUSH1 0x00 ", "JUMP "] })]

def loopingRoot : Call := .first (limited 2) looping

theorem begins_looping : Begins (limited 2) looping {} loopingRoot :=
  begins_unsourced rfl rfl (by decide +kernel)

theorem way_ahead {root c d : Call} {path : List (Int × Int)} {behind : Call → Prop}
    (h : Way ctx entries root path behind c) (hd : ahead? ctx entries c = some d) :
    Way ctx entries root (c.visit.edge :: path) behind d := by
  obtain ⟨v, m, site, rfl, hv⟩ := ahead_some hd
  exact h.go hv

/-- The loop is taken as often as the limit says, and is cut at the next entry. -/
theorem loops_bounded_looping : ∃ c behind,
    Begins (limited 2) looping {} loopingRoot ∧
    Way (limited 2) {} loopingRoot [(0, 0), (0, 0)] behind c ∧
    (([(0, 0), (0, 0)] : List (Int × Int)).count (0, 0) : Int) ≤ (limited 2).settings.loopLimit ∧
    (enter (limited 2) {} c.visit).outcome c.machine = (.ok none, c.machine.counted (0, 0)) := by
  have htwice : ((ahead? (limited 2) {} loopingRoot).bind fun c => (ahead? (limited 2) {} c).map
      fun d => (c.visit.edge, d.visit.edge, d.machine.count (0, 0))) =
      some ((0, 0), (0, 0), 2) := by
    decide +kernel
  obtain ⟨c, hc, hmap⟩ := Option.bind_eq_some_iff.1 htwice
  obtain ⟨d, hd, hboth⟩ := Option.map_eq_some_iff.1 hmap
  obtain ⟨hfirst, hrest⟩ := Prod.mk.inj hboth
  obtain ⟨hedge, hcount⟩ := Prod.mk.inj hrest
  have hway := way_ahead (way_ahead Way.start hc) hd
  rw [hfirst] at hway
  refine ⟨d, _, begins_looping, hway, (loops_bounded begins_looping hway).1 _ List.mem_cons_self,
    ?_⟩
  have hblock : d.visit.block = 0 := congrArg Prod.snd hedge
  have hlimit : admitted (limited 2) d.visit d.visit.function d.machine = none := by
    rw [admitted, hedge, hcount]
    rfl
  rw [@enter_named (limited 2) {} d.visit d.visit.function (by omega) fun _ => rfl, hlimit, hedge]

/-! ### The depth limit -/

def sideCalls (ctx : Context) (parent : Path) (c : Condition) (target : Except Fault Int)
    (below : Int → Machine → List Call) (m : Machine) : List Call :=
  match (approach ctx parent c target).outcome m with
  | (.ok (some next), m') => below next m'
  | _ => []

def calls (ctx : Context) (entries : Table Int String) : Nat → Visit → Machine → List Call
  | 0, v, m => [⟨0, v, m⟩]
  | remaining + 1, v, m =>
    ⟨remaining + 1, v, m⟩ ::
      match (visit ctx entries false v).outcome m with
      | (.ok (_, .go next), m₁) => calls ctx entries remaining next m₁
      | (.ok (site, .fork c b), m₁) =>
        let below (next : Int) (m' : Machine) := calls ctx entries remaining (sideOf v site next) m'
        sideCalls ctx m₁.path c (.ok b.targetAddress) below m₁ ++
          match (branch ctx m₁.path c (.ok b.targetAddress) fun next =>
              explore ctx entries remaining (sideOf v site next)).outcome m₁ with
          | (.ok (), m₂) => sideCalls ctx m₁.path (.symbolic c.not) b.getFallsTo below m₂
          | _ => []
      | _ => []

theorem mem_sideCalls {parent : Path} {c : Condition} {target : Except Fault Int}
    {below : Int → Machine → List Call} {m : Machine} {d : Call} :
    d ∈ sideCalls ctx parent c target below m ↔ ∃ next m',
      (approach ctx parent c target).outcome m = (.ok (some next), m') ∧ d ∈ below next m' := by
  unfold sideCalls
  split
  next next m' h =>
    exact ⟨fun hd => ⟨next, m', h, hd⟩, fun ⟨_, _, h', hd⟩ => by
      rw [h] at h'
      cases h'
      exact hd⟩
  next h =>
    exact ⟨fun hd => absurd hd List.not_mem_nil, fun ⟨next, m', h', _⟩ => absurd h' (h next m')⟩

theorem mem_calls {remaining : Nat} {v : Visit} {m : Machine} {d : Call} :
    d ∈ calls ctx entries remaining v m ↔
      Relation.ReflTransGen (Next ctx entries) ⟨remaining, v, m⟩ d := by
  induction remaining generalizing v m with
  | zero =>
    rw [calls, List.mem_singleton, Relation.ReflTransGen.cases_head_iff]
    constructor
    · exact fun h => .inl h.symm
    · rintro (h | ⟨c, hc, -⟩)
      · exact h.symm
      · cases hc
  | succ remaining ih =>
    rw [calls, List.mem_cons, Relation.ReflTransGen.cases_head_iff, eq_comm]
    refine or_congr Iff.rfl ⟨fun h => ?_, fun ⟨c, hc, hd⟩ => ?_⟩
    · split at h
      next hv =>
        exact ⟨_, .go hv, ih.1 h⟩
      next hv =>
        rcases List.mem_append.1 h with h | h
        · obtain ⟨next, m₂, ht, hd⟩ := mem_sideCalls.1 h
          exact ⟨_, .target hv ht, ih.1 hd⟩
        · split at h
          next ht =>
            obtain ⟨next, m₃, hf, hd⟩ := mem_sideCalls.1 h
            exact ⟨_, .fall hv ht hf, ih.1 hd⟩
          · exact absurd h List.not_mem_nil
      · exact absurd h List.not_mem_nil
    · cases hc with
      | go hv =>
        rw [hv]
        exact ih.2 hd
      | target hv ht =>
        rw [hv]
        exact List.mem_append_left _ (mem_sideCalls.2 ⟨_, _, ht, ih.2 hd⟩)
      | fall hv ht hf =>
        rw [hv]
        dsimp only
        rw [ht]
        exact List.mem_append_right _ (mem_sideCalls.2 ⟨_, _, hf, ih.2 hd⟩)

theorem length_calls (remaining : Nat) (v : Visit) (m : Machine) :
    (calls ctx entries remaining v m).length ≤ 2 ^ (remaining + 1) - 1 := by
  induction remaining generalizing v m with
  | zero => exact Nat.le_refl 1
  | succ remaining ih =>
    have hpow : 2 ^ (remaining + 1 + 1) = 2 ^ (remaining + 1) + 2 ^ (remaining + 1) := by
      rw [Nat.pow_succ, Nat.mul_two]
    have hpos : 0 < 2 ^ (remaining + 1) := Nat.two_pow_pos _
    rw [calls, List.length_cons]
    split
    next next m₁ _ =>
      have := ih next m₁
      omega
    next site c b m₁ _ =>
      have hside (c : Condition) (target : Except Fault Int) (m' : Machine) :
          (sideCalls ctx m₁.path c target
            (fun next m' => calls ctx entries remaining (sideOf v site next) m') m').length ≤
            2 ^ (remaining + 1) - 1 := by
        unfold sideCalls
        split
        · exact ih _ _
        · exact Nat.zero_le _
      have htarget := hside c (.ok b.targetAddress) m₁
      rw [List.length_append]
      split
      next m₂ _ =>
        have hfall := hside (.symbolic c.not) b.getFallsTo m₂
        omega
      · rw [List.length_nil]
        omega
    · rw [List.length_nil]
      omega

theorem length_way {root c : Call} {path : List (Int × Int)} {behind : Call → Prop}
    (h : Way ctx entries root path behind c) : path.length + c.remaining = root.remaining := by
  induction h with
  | start => exact Nat.zero_add _
  | go _ _ ih | target _ _ _ ih | fall _ _ _ _ ih =>
    rw [← ih, List.length_cons]
    dsimp only
    omega

/-! ### Call by call -/

section

variable {γ : Type} {Q : Machine → γ} {f : γ → Call → γ}
  (hside : ∀ (m : Machine) s p, Q { m.withSolver s with path := p } = Q m)

include hside

theorem foldl_side {parent : Path} {c : Condition} {target : Except Fault Int}
    {continue_ : Int → Exec Unit} {below : Int → Machine → List Call} {m : Machine}
    (h : ∀ next m', Q ((continue_ next).outcome m').2 = (below next m').foldl f (Q m')) :
    Q ((branch ctx parent c target continue_).outcome m).2 =
      (sideCalls ctx parent c target below m).foldl f (Q m) := by
  obtain ⟨s, p, hend, -⟩ := @branch_end ctx parent c target continue_ m
  obtain ⟨s', p', happroach⟩ := @approach_end ctx parent c target m
  have hkept : Q ((approach ctx parent c target).outcome m).2 = Q m := by
    rw [happroach]
    exact hside m s' p'
  rw [hend, hside, sideEnd, sideCalls]
  generalize (approach ctx parent c target).outcome m = o at hkept ⊢
  obtain ⟨e | _ | next, m'⟩ := o
  · exact hkept
  · exact hkept
  · dsimp only at hkept ⊢
    rw [h, hkept]

/-- Let something depend neither on the solver, nor on the path, nor on the counts of edges. If `f`
is what becomes of it in the block of a call, then an exploration makes it what its calls do in
turn. -/
theorem foldl_calls
    (hedges : ∀ (m : Machine) counts,
      Q { m with shared := { m.shared with visitedEdges := counts } } = Q m)
    (hvisit : ∀ remaining v m, Q ((visit ctx entries (remaining == 0) v).outcome m).2 =
      f (Q m) ⟨remaining, v, m⟩)
    (remaining : Nat) (v : Visit) (m : Machine) :
    Q (Call.ending ctx entries ⟨remaining, v, m⟩) =
    (calls ctx entries remaining v m).foldl f (Q m) := by
  induction remaining generalizing v m with
  | zero =>
    have hleft : Q ((visit ctx entries true v).outcome m).2 = f (Q m) ⟨0, v, m⟩ := hvisit 0 v m
    rw [Call.ending, explore, outcome_bind, calls, List.foldl_cons, List.foldl_nil, ← hleft]
    generalize (visit ctx entries true v).outcome m = o
    obtain ⟨e | r, m₁⟩ := o <;> rfl
  | succ remaining ih =>
    have hleft : Q ((visit ctx entries false v).outcome m).2 = f (Q m) ⟨remaining + 1, v, m⟩ :=
      hvisit (remaining + 1) v m
    rw [calls, List.foldl_cons, ← hleft, Call.ending]
    rcases ho : (visit ctx entries false v).outcome m with ⟨e | ⟨site, _ | next | ⟨c, b⟩⟩, m₁⟩
    · rw [explore, outcome_bind, ho]
      rfl
    · rw [explore, outcome_bind, ho]
      rfl
    · rw [explore, outcome_bind, ho]
      exact ih next m₁
    · have hbranch (c : Condition) (target : Except Fault Int) (m' : Machine) :
          Q ((branch ctx m₁.path c target (side ctx entries remaining v site)).outcome m').2 =
          (sideCalls ctx m₁.path c target
            (fun next m' => calls ctx entries remaining (sideOf v site next) m') m').foldl f
            (Q m') :=
        foldl_side hside fun next m' => ih (sideOf v site next) m'
      have htarget := hbranch c (.ok b.targetAddress) m₁
      rw [explore_fork ho, outcome_bind, outcome_bind]
      dsimp only
      rw [List.foldl_append, ← htarget]
      rcases (branch ctx m₁.path c (.ok b.targetAddress)
        (side ctx entries remaining v site)).outcome m₁ with ⟨e | u, m₂⟩
      · rfl
      · have hfall := hbranch (.symbolic c.not) b.getFallsTo m₂
        dsimp only
        rw [← hfall]
        rcases (branch ctx m₁.path (.symbolic c.not) b.getFallsTo
          (side ctx entries remaining v site)).outcome m₂ with ⟨e | u, m₃⟩
        · rfl
        · exact hedges m₃ _

end

/-! ### What is executed -/

def begun (ctx : Context) (site : Site) : List String → Machine → Nat
  | [], _ => 0
  | text :: rest, m =>
    1 + match (traced ctx site text).outcome m with
      | (.ok (), m₁) => begun ctx site rest m₁
      | _ => 0

def Call.begun (ctx : Context) (entries : Table Int String) (c : Call) : Nat :=
  match (enter ctx entries c.visit).outcome c.machine with
  | (.ok (some (site, texts)), m₁) => Exec.begun ctx site texts m₁
  | _ => 0

theorem executed_runAll (site : Site) (texts : List String) (m : Machine) :
    ((runAll ctx site texts).outcome m).2.shared.executed =
      m.shared.executed + begun ctx site texts m := by
  induction texts generalizing m with
  | nil => rfl
  | cons text rest ih =>
    have hfirst := (@ledger_traced ctx site text m).2.1
    rw [runAll, outcome_bind, begun]
    generalize (traced ctx site text).outcome m = o at hfirst ⊢
    obtain ⟨e | u, m₁⟩ := o
    · exact hfirst
    · dsimp only at hfirst ⊢
      rw [ih, hfirst, Nat.add_assoc]

theorem executed_record (m : Machine) :
    (record.outcome m).2.shared.executed = m.shared.executed := by
  rw [record, outcome_bind_getPath, outcome_modifyShared]
  dsimp only
  split <;> rfl

theorem ledger_visit (last : Bool) (v : Visit) (m : Machine) :
    ((visit ctx entries last v).outcome m).2.ledger =
      match (enter ctx entries v).outcome m with
      | (.ok (some (site, texts)), m₁) =>
        match (runAll ctx site texts).outcome m₁ with
        | (.ok (), m₂) => (record.outcome m₂).2.ledger
        | (.error _, m₂) => m₂.ledger
      | _ => m.ledger := by
  have henter := @steady_enter ctx entries v m
  rw [visit, outcome_bind]
  generalize (enter ctx entries v).outcome m = o at henter ⊢
  obtain ⟨e | _ | ⟨site, texts⟩, m₁⟩ := o
  · exact henter
  · exact henter
  · dsimp only
    rw [outcome_bind]
    generalize (runAll ctx site texts).outcome m₁ = o
    obtain ⟨e | u, m₂⟩ := o
    · rfl
    · dsimp only
      rw [outcome_bind]
      generalize record.outcome m₂ = o
      obtain ⟨e | u, m₃⟩ := o
      · rfl
      · exact ((steady_onward v.previous site last).bind fun onward => fixes_pure (site, onward)) m₃

theorem executed_visit (last : Bool) (remaining : Nat) (v : Visit) (m : Machine) :
    ((visit ctx entries last v).outcome m).2.shared.executed =
      m.shared.executed + Call.begun ctx entries ⟨remaining, v, m⟩ := by
  have hvisit := congrArg Ledger.executed (@ledger_visit ctx entries last v m)
  have henter := congrArg Ledger.executed (@steady_enter ctx entries v m)
  refine hvisit.trans ?_
  rw [Call.begun]
  generalize (enter ctx entries v).outcome m = o at henter ⊢
  obtain ⟨e | _ | ⟨site, texts⟩, m₁⟩ := o
  · rfl
  · rfl
  · have hrun := @executed_runAll ctx site texts m₁
    replace henter : m₁.shared.executed = m.shared.executed := henter
    dsimp only
    rw [← henter, ← hrun]
    generalize (runAll ctx site texts).outcome m₁ = o
    obtain ⟨e | u, m₂⟩ := o
    · rfl
    · exact executed_record m₂

theorem executed_explore (remaining : Nat) (v : Visit) (m : Machine) :
    ((explore ctx entries remaining v).outcome m).2.shared.executed =
      m.shared.executed + ((calls ctx entries remaining v m).map (Call.begun ctx entries)).sum := by
  have hfold : (Call.ending ctx entries ⟨remaining, v, m⟩).shared.executed =
      (calls ctx entries remaining v m).foldl (fun n c => n + c.begun ctx entries)
      m.shared.executed :=
    foldl_calls (Q := fun m => m.shared.executed) (fun _ _ _ => rfl) (fun _ _ => rfl)
      (fun remaining v m => executed_visit _ remaining v m) remaining v m
  have hsum (cs : List Call) (n : Nat) : cs.foldl (fun n c => n + c.begun ctx entries) n =
      n + (cs.map (Call.begun ctx entries)).sum := by
    induction cs generalizing n with
    | nil => rfl
    | cons c cs ih => rw [List.foldl_cons, ih, List.map_cons, List.sum_cons, Nat.add_assoc]
  exact hfold.trans (hsum _ _)

/-- An exploration of any graph from any state comes to an end, whatever the limits of loops and gas
are. The depth that is left decreases from call to call, so no more calls are open at once than the
depth limit and one; there are no more calls than nodes of a binary tree of that height; and every
instruction that is executed is executed by one of them. -/
theorem exploration_finite (ctx : Context) (entries : Table Int String) (v : Visit) (m : Machine) :
    WellFounded (fun d c => Next ctx entries c d) ∧
    (∀ path behind c,
      Way ctx entries ⟨ctx.settings.depthLimit.toNat, v, m⟩ path behind c →
        path.length + 1 ≤ ctx.settings.depthLimit.toNat + 1) ∧
    ∃ made : List Call, made.length ≤ 2 ^ (ctx.settings.depthLimit.toNat + 1) - 1 ∧
      (∀ c, c ∈ made ↔
        Relation.ReflTransGen (Next ctx entries) ⟨ctx.settings.depthLimit.toNat, v, m⟩ c) ∧
      ((exploreFrom ctx entries 0 v).outcome m).2.shared.executed =
        m.shared.executed + (made.map (Call.begun ctx entries)).sum := by
  refine ⟨?_, fun path behind c h => ?_, calls ctx entries ctx.settings.depthLimit.toNat v m,
    length_calls _ v m, fun c => mem_calls, ?_⟩
  · refine Subrelation.wf (fun {d c} h => ?_) (measure Call.remaining).wf
    have := h.remaining
    exact Nat.lt_of_lt_of_eq (Nat.lt_succ_self _) this.symm
  · have := length_way h
    dsimp only at this
    omega
  · rw [exploreFrom_eq, Int.sub_zero]
    exact executed_explore _ v m

end EvmAudit.Exec
