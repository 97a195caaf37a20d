import EvmAudit.Proofs.Audit.Reports
import EvmAudit.Proofs.Explore.Origins

/-! Transactions whose order matters. Recorded transfers are compared as texts, so that two rows
differ exactly if they are not the same list. Among distinct rows the detector therefore reports the
first two that move money, whatever they move. -/

namespace EvmAudit

def Context.Affirms (ctx : Context) : Prop :=
  ∀ f : Formula, (∀ env, f.eval env = true) → (ctx.decide [f]).isSat = true

theorem Context.Exact.affirms {ctx : Context} (h : ctx.Exact) : ctx.Affirms := by
  intro f hf
  have hsat : Satisfiable [f] := ⟨fun _ => 0, by simp [allHold, hf]⟩
  cases hd : ctx.decide [f] with
  | sat values => rfl
  | unsat => exact absurd hsat (h.unsat hd)
  | unknown => exact absurd hd (h.decided [f])

namespace Audit

variable {ctx : Context}
variable {p : Progress} {storages : List (Table Key Value)} {race : Option (Nat × Nat)}
  {places : List (List Int)}

/-! ### Lists of transfers -/

theorem sameTransfer_text (s t : String) {as bs : List Value} (h : as.length = bs.length) :
    sameTransfer (.text s :: as) (.text t :: bs) =
      if s = t then sameTransfer as bs else .ok false := by
  rw [sameTransfer, if_neg (by simpa using h)]
  change (if (s == t) = true then sameTransfer as bs else .ok false) = _
  simp only [beq_iff_eq]

theorem sameTransfer_values (x y : Flow) :
    sameTransfer (transferValues x) (transferValues y) = .ok (decide (x = y)) := by
  obtain ⟨source, destination, amount⟩ := x
  obtain ⟨source', destination', amount'⟩ := y
  have hparts : sameTransfer [.text source, .text destination, .text amount]
      [.text source', .text destination', .text amount'] =
      if source = source' then if destination = destination' then if amount = amount' then .ok true
        else .ok false else .ok false else .ok false := by
    rw [sameTransfer_text, sameTransfer_text, sameTransfer_text, sameTransfer] <;> rfl
  rw [transferValues, transferValues, hparts]
  simp only [Flow.mk.injEq]
  split_ifs <;> simp_all

def differ (x y : Flow) : Formula :=
  .or (.or (.not (.literal (x.source == y.source)))
    (.not (.literal (x.destination == y.destination)))) (.not (.literal (x.amount == y.amount)))

theorem differFormula_values (x y : Flow) :
    differFormula (transferValues x) (transferValues y) = .ok (differ x y) := rfl

theorem eval_differ {x y : Flow} (h : x ≠ y) (env : Assignment) : (differ x y).eval env = true := by
  obtain ⟨source, destination, amount⟩ := x
  obtain ⟨source', destination', amount'⟩ := y
  rw [ne_eq, Flow.mk.injEq] at h
  simp only [differ, Formula.eval, Bool.or_eq_true, Bool.not_eq_true', beq_eq_false_iff_ne]
  tauto

theorem flowsDiffer_eq (h : ctx.Affirms) (f g : List Flow) :
    flowsDiffer ctx.decide (f.map transferValues) (g.map transferValues) =
      .ok (decide (f ≠ g)) := by
  induction f generalizing g with
  | nil => cases g <;> rfl
  | cons x f ih =>
    cases g with
    | nil => rfl
    | cons y g =>
      rw [List.map_cons, List.map_cons, flowsDiffer, List.length_map, List.length_map]
      split
      next hlen =>
        have hne : x :: f ≠ y :: g := fun heq => hlen (congrArg List.length (List.cons.inj heq).2)
        rw [decide_eq_true hne]
        rfl
      · rw [sameTransfer_values]
        by_cases hxy : x = y
        · subst hxy
          rw [decide_eq_true rfl]
          change flowsDiffer ctx.decide (f.map transferValues) (g.map transferValues) = _
          rw [ih]
          simp
        · have hne : x :: f ≠ y :: g := fun heq => hxy (List.cons.inj heq).1
          have hsat : (ctx.decide [differ x y]).isSat = true := h _ (eval_differ hxy)
          rw [decide_eq_false hxy, decide_eq_true hne]
          dsimp only [bind, Except.bind]
          rw [if_neg Bool.false_ne_true, differFormula_values]
          exact if_pos hsat

/-! ### The search -/

def firstTwo : List (List Flow × Nat) → Option (Nat × Nat)
  | (_, i) :: (_, j) :: _ => some (i, j)
  | _ => none

theorem against_cons (h : ctx.Affirms) {f g : List Flow} (hfg : f ≠ g) (i j : Nat)
    (rest : List (List Flow × Nat)) :
    findRace.against ctx f i ((g, j) :: rest) = .ok (some (i, j)) := by
  rw [findRace.against, flowsDiffer_eq h, decide_eq_true hfg]
  rfl

theorem from_eq (h : ctx.Affirms) {fs : List (List Flow × Nat)} (hn : (fs.map Prod.fst).Nodup) :
    findRace.from_ ctx fs = .ok (firstTwo fs) := by
  match fs, hn with
  | [], _ => rfl
  | [_], _ => rfl
  | (f, i) :: (g, j) :: rest, hn =>
    have hfg : f ≠ g := by
      rintro rfl
      simp at hn
    rw [findRace.from_, against_cons h hfg]
    rfl

theorem map_movers (rows : List (List Flow)) :
    (movers rows).map Prod.fst = rows.filter fun f => f.length ≠ 1 := by
  have hfst : rows = rows.zipIdx.map Prod.fst := (List.zipIdx_map_fst 0 rows).symm
  conv_rhs => rw [hfst, List.filter_map]
  rfl

theorem findRace_eq (h : ctx.Affirms) (hn : rows.Nodup) :
    findRace ctx rows = .ok (firstTwo (movers rows)) := by
  have hmovers : ((movers rows).map Prod.fst).Nodup := by
    rw [map_movers]
    exact hn.filter _
  exact from_eq h hmovers

/-! ### The first two rows that move money -/

def Moves (rows : List (List Flow)) (k : Nat) : Prop := ∃ f, rows[k]? = some f ∧ 1 < f.length

/-- Both rows move money, and they come first among all pairs of rows that do. -/
structure FirstPair (rows : List (List Flow)) (i j : Nat) : Prop where
  lt : i < j
  left : Moves rows i
  right : Moves rows j
  least : ∀ i' j', i' < j' → Moves rows i' → Moves rows j' → i < i' ∨ i = i' ∧ j ≤ j'

theorem FirstPair.unique {i j i' j' : Nat} (h : FirstPair rows i j) (h' : FirstPair rows i' j') :
    i = i' ∧ j = j' := by
  have hle := h.least i' j' h'.lt h'.left h'.right
  have hge := h'.least i j h.lt h.left h.right
  omega

variable {rows : List (List Flow)} (hrows : ∀ f ∈ rows, f ≠ [])

include hrows

theorem moves_iff {k : Nat} : Moves rows k ↔ ∃ f, (f, k) ∈ movers rows := by
  refine exists_congr fun f => ?_
  rw [movers, List.mem_filter, List.mem_zipIdx_iff_getElem?]
  refine and_congr_right fun hf => ?_
  have hpos := List.length_pos_iff.2 (hrows f (List.mem_of_getElem? hf))
  simp only [ne_eq, decide_eq_true_eq]
  omega

theorem firstTwo_movers {i j : Nat} : firstTwo (movers rows) = some (i, j) ↔
    FirstPair rows i j := by
  have hsorted : (movers rows).Pairwise fun a b => a.2 < b.2 := by
    refine List.Pairwise.filter _ (List.pairwise_map.1 ?_)
    rw [List.zipIdx_map_snd]
    exact List.pairwise_lt_range'
  have hmoves : ∀ k, Moves rows k ↔ ∃ f, (f, k) ∈ movers rows := fun k => moves_iff hrows
  generalize movers rows = ms at hsorted hmoves
  -- of one row at most there is no pair
  have hfew (h : ∀ a ∈ ms, ∀ b ∈ ms, a = b) : ¬ FirstPair rows i j := by
    intro hp
    obtain ⟨f, hf⟩ := (hmoves i).1 hp.left
    obtain ⟨g, hg⟩ := (hmoves j).1 hp.right
    have := hp.lt
    have := congrArg Prod.snd (h _ hf _ hg)
    dsimp only at this
    omega
  match ms, hsorted, hmoves, hfew with
  | [], _, _, hfew => exact ⟨nofun, fun h => absurd h (hfew (by simp))⟩
  | [_], _, _, hfew => exact ⟨nofun, fun h => absurd h (hfew (by simp))⟩
  | (f, i₀) :: (g, j₀) :: rest, hsorted, hmoves, _ =>
    obtain ⟨hi₀, hj₀⟩ := List.pairwise_cons.1 hsorted
    have hfirst {k : Nat} (hk : Moves rows k) : k = i₀ ∨ j₀ ≤ k := by
      obtain ⟨h, hk⟩ := (hmoves k).1 hk
      rcases List.mem_cons.1 hk with hk | hk
      · exact .inl (Prod.mk.inj hk).2
      · rcases List.mem_cons.1 hk with hk | hk
        · exact .inr (Nat.le_of_eq (Prod.mk.inj hk).2.symm)
        · exact .inr (Nat.le_of_lt ((List.pairwise_cons.1 hj₀).1 _ hk))
    have hlt : i₀ < j₀ := hi₀ _ List.mem_cons_self
    have hpair : FirstPair rows i₀ j₀ := by
      refine ⟨hlt, (hmoves i₀).2 ⟨f, List.mem_cons_self⟩,
        (hmoves j₀).2 ⟨g, List.mem_cons_of_mem _ List.mem_cons_self⟩, fun i' j' hij hi' hj' => ?_⟩
      have := hfirst hi'
      have := hfirst hj'
      omega
    constructor
    · intro h
      cases h
      exact hpair
    · intro h
      obtain ⟨rfl, rfl⟩ := h.unique hpair
      rfl

theorem firstTwo_isSome : (firstTwo (movers rows)).isSome ↔
    2 ≤ rows.countP fun f => 1 < f.length := by
  have hcount : (rows.countP fun f => 1 < f.length) = (movers rows).length := by
    rw [← List.length_map Prod.fst, map_movers, ← List.countP_eq_length_filter]
    refine List.countP_congr fun f hf => ?_
    have hpos := List.length_pos_iff.2 (hrows f hf)
    simp only [ne_eq, decide_eq_true_eq]
    omega
  rw [hcount]
  match movers rows with
  | [] => decide
  | [_] => exact iff_of_false nofun (by simp)
  | _ :: _ :: _ => exact iff_of_true rfl (by simp)

omit hrows

/-! ### The detector -/

def sift (ctx : Context) (s : Shared) : Option (Nat × Nat) → Except Fault Unit
  | none => .ok ()
  | some (i, j) =>
    if on ctx.settings.checkConcurrencyFp then do
      if ← cannotFollow ctx s i j then
        let _ ← cannotFollow ctx s j i
    else .ok ()

theorem perform_detectConcurrency (hstorages : storagesLeft p.machine.shared = .ok storages)
    (hrace : findRace ctx p.machine.shared.flows = .ok race)
    (hplaces : racePlaces p.machine.shared race = .ok places) :
    perform (detectConcurrency ctx) p = perform (do
      let f ← ofExcept
        (sift ctx p.machine.shared race >>= fun _ => Finding.concurrency p.source places)
      modifyFindings ({ · with concurrency := some f })
      enter "money_concurrency" f
      say ("\t  Transaction-Ordering Dependence (TOD): " ++ truthText f.vulnerable)) p := by
  rw [detectConcurrency, perform_bind, perform_shared]
  dsimp only
  rw [perform_bind, perform_ofExcept, hstorages]
  dsimp only
  rw [perform_bind, perform_ofExcept, hrace]
  dsimp only
  rw [perform_bind, perform_ofExcept, hplaces]
  dsimp only
  rcases race with _ | ⟨i, j⟩
  · rfl
  · dsimp only [sift]
    split
    · cases cannotFollow ctx p.machine.shared i j with
      | error e => rfl
      | ok follows =>
        cases follows with
        | false => rfl
        | true => cases cannotFollow ctx p.machine.shared j i <;> rfl
    · rfl

/-- The detector reports whether a race was found. It fails where one of the additional questions
does, or where a source map has no text for a place. -/
structure Concludes (ctx : Context) (p : Progress) (race : Option (Nat × Nat))
    (places : List (List Int)) : Prop where
  vulnerable : ∀ f, Finding.concurrency p.source places = .ok f → f.vulnerable = race.isSome
  settles : Settles (detectConcurrency ctx) p "money_concurrency" Findings.concurrency
    (sift ctx p.machine.shared race >>= fun _ => Finding.concurrency p.source places)

theorem Concludes.reports (h : Concludes ctx p race places) (hsource : p.source = none)
    (hoff : on ctx.settings.checkConcurrencyFp = false) :
    ∃ f, f.vulnerable = race.isSome ∧
    Reports (detectConcurrency ctx) p "money_concurrency" Findings.concurrency f := by
  have hsift : sift ctx p.machine.shared race = .ok () := by
    cases race with
    | none => rfl
    | some race => exact if_neg (by simp [hoff])
  obtain ⟨hvulnerable, hsettles⟩ := h
  rw [hsift, hsource] at hsettles
  rw [hsource] at hvulnerable
  exact ⟨_, hvulnerable _ rfl, hsettles⟩

theorem isEmpty_racePlaces {s : Shared} (h : racePlaces s race = .ok places) :
    (!places.isEmpty) = race.isSome := by
  cases race with
  | none =>
    cases h
    rfl
  | some race =>
    obtain ⟨first, -, h⟩ := bind_eq_ok.1 h
    obtain ⟨second, -, h⟩ := bind_eq_ok.1 h
    cases h
    rfl

theorem concludes (hstorages : storagesLeft p.machine.shared = .ok storages)
    (hrace : findRace ctx p.machine.shared.flows = .ok race)
    (hplaces : racePlaces p.machine.shared race = .ok places) : Concludes ctx p race places where
  vulnerable := fun _ hf => (shown_concurrency hf).1.trans (isEmpty_racePlaces hplaces)
  settles := by
    refine settles_entered (perform_detectConcurrency hstorages hrace hplaces) rfl (fun f hf => ?_)
      (fun _ _ => rfl) (fun _ => remarks_say _)
    obtain ⟨_, -, hf⟩ := bind_eq_ok.1 hf
    exact (shown_concurrency hf).2

theorem concludes_of_rows (hsolver : ctx.Affirms) {es : List Entry}
    (htables : p.machine.shared.tables = .ofEntries es) (hdistinct : (es.map Entry.flows).Nodup) :
    ∃ race places, race = firstTwo (movers (es.map Entry.flows)) ∧
    findRace ctx p.machine.shared.flows = .ok race ∧
      racePlaces p.machine.shared race = .ok places ∧
      (∀ i j, race = some (i, j) → ∃ a b, es[i]? = some a ∧ es[j]? = some b ∧
        places = [a.transferPcs, b.transferPcs]) ∧ Concludes ctx p race places := by
  have hanswered : Answered ctx p.machine.shared es := answered_of_tables htables
  have hcolumn : p.machine.shared.flows = es.map Entry.flows := congrArg Tables.flows htables
  have hrace : findRace ctx p.machine.shared.flows =
      .ok (firstTwo (movers (es.map Entry.flows))) := by
    rw [hcolumn]
    exact findRace_eq hsolver hdistinct
  rcases hfirst : firstTwo (movers (es.map Entry.flows)) with _ | ⟨i, j⟩ <;> rw [hfirst] at hrace
  · exact ⟨none, [], rfl, hrace, rfl, nofun, concludes hanswered.storages hrace rfl⟩
  · obtain ⟨a, b, ha, hb, hplaces, -⟩ := hanswered.races i j hrace
    refine ⟨_, _, rfl, hrace, hplaces, fun i' j' hij => ?_,
      concludes hanswered.storages hrace hplaces⟩
    cases hij
    exact ⟨a, b, ha, hb, rfl⟩

/-- What the detector decides on distinct rows. Two rows differ exactly if they are not the same,
and a race is reported exactly if at least two of them have more than their first transfer. Its
places are those of the first two such rows. -/
theorem races_reported (hsolver : ctx.Affirms) {p : Progress} {es : List Entry}
    (htables : p.machine.shared.tables = .ofEntries es) (hdistinct : (es.map Entry.flows).Nodup)
    (hflows : ∀ e ∈ es, e.flows ≠ []) :
    (∀ f g : List Flow,
      flowsDiffer ctx.decide (f.map transferValues) (g.map transferValues) = .ok (decide (f ≠ g))) ∧
    ∃ race places, findRace ctx p.machine.shared.flows = .ok race ∧
      racePlaces p.machine.shared race = .ok places ∧
      (race.isSome ↔ 2 ≤ es.countP fun e => 1 < e.flows.length) ∧
      (∀ i j, race = some (i, j) ↔ FirstPair (es.map Entry.flows) i j) ∧
      (∀ i j, race = some (i, j) → ∃ a b, es[i]? = some a ∧ es[j]? = some b ∧
        places = [a.transferPcs, b.transferPcs]) ∧
      Concludes ctx p race places := by
  have hrows : ∀ f ∈ es.map Entry.flows, f ≠ [] := List.forall_mem_map.2 hflows
  have hcount := firstTwo_isSome hrows
  rw [List.countP_map] at hcount
  obtain ⟨race, places, rfl, hrace, hplaces, hpair, hconcludes⟩ :=
    concludes_of_rows hsolver htables hdistinct
  exact ⟨flowsDiffer_eq hsolver, _, places, hrace, hplaces, hcount,
    fun i j => firstTwo_movers hrows, hpair, hconcludes⟩

def transfersOnly (flows : List Flow) (transferPcs : List Int) : Entry where
  flows := { source := "Is", destination := "Ia", amount := "Iv" } :: flows
  conditions := []
  storage := {}
  transferPcs := transferPcs
  conditionPcs := {}

def rivals : List Entry :=
  let toCaller : Flow := { source := "Ia", destination := "Is", amount := "1" }
  let toOwner : Flow := { source := "Ia", destination := "Ia_store-0", amount := "1" }
  [transfersOnly [] [], transfersOnly [toCaller] [7], transfersOnly [toOwner] [9],
    transfersOnly [toCaller, toOwner] [7, 9]]

def rivalsRecorded : Progress where
  machine := { shared := {
    flows := rivals.map Entry.flows
    conditions := rivals.map Entry.conditions
    storages := rivals.map Entry.storage
    problems := {
      transfers := rivals.map Entry.transferPcs
      conditionPcs := rivals.map Entry.conditionPcs } } }

theorem races_reported_rivals :
    rivalsRecorded.machine.shared.tables = .ofEntries rivals ∧ (rivals.map Entry.flows).Nodup ∧
    (∀ e ∈ rivals, e.flows ≠ []) ∧ (Exec.exactly 50).Affirms ∧
    racePlaces rivalsRecorded.machine.shared (some (1, 2)) = .ok [[7], [9]] ∧
    ∃ f, f.vulnerable = true ∧ Reports (detectConcurrency (Exec.exactly 50)) rivalsRecorded
      "money_concurrency" Findings.concurrency f := by
  have hdistinct : (rivals.map Entry.flows).Nodup := by decide
  have hflows : ∀ e ∈ rivals, e.flows ≠ [] := by decide
  have hfirst : FirstPair (rivals.map Entry.flows) 1 2 :=
    (firstTwo_movers (List.forall_mem_map.2 hflows)).1 (by decide)
  obtain ⟨-, race, places, -, hplaces, -, hpair, hrows, hends⟩ :=
    races_reported (p := rivalsRecorded) (Exec.exact_exactly 50).affirms rfl hdistinct hflows
  obtain rfl : race = some (1, 2) := (hpair 1 2).2 hfirst
  obtain ⟨a, b, ha, hb, rfl⟩ := hrows 1 2 rfl
  cases ha
  cases hb
  exact ⟨rfl, hdistinct, hflows, (Exec.exact_exactly 50).affirms, hplaces, hends.reports rfl rfl⟩

end Audit

end EvmAudit
