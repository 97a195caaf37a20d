import EvmAudit.Proofs.Audit.Races
import EvmAudit.Proofs.Explore.Completions

/-! Races without a second path. Transfers are recorded block by block, so a path is compared with
its own beginnings, and an exploration that never branches is reported as soon as two of its blocks
move money. -/

namespace EvmAudit

open Listing

namespace Exec

variable {ctx : Context} {entries : Table Int String}
variable {c root : Call} {g : Graph}

/-! ### Explorations that never branch -/

def Single (ctx : Context) (entries : Table Int String) (root : Call) : Prop :=
  ∀ c d d', Relation.ReflTransGen (Next ctx entries) root c → Next ctx entries c d →
    Next ctx entries c d' → d = d'

theorem Single.comparable {a b : Call} (h : Single ctx entries root)
    (ha : Reaches ctx entries root a) (hb : Reaches ctx entries root b) :
    Reaches ctx entries a b ∨ Reaches ctx entries b a := by
  induction hb with
  | refl => exact .inr ha
  | @tail c d hc hnext ih =>
    rcases ih with hac | hca
    · exact .inl (hac.tail hnext)
    · rcases hca.cases_head with rfl | ⟨d', hnext', hda⟩
      · exact .inl (.single hnext)
      · obtain rfl : d = d' := h c d d' hc hnext hnext'
        exact .inr hda

theorem single_of_no_jumpIf {code : Code} (hroot : Begins ctx code.linked entries root)
    (hcode : ∀ l ∈ code.lines, (Instruction.ofText l.text).operation ≠ .jumpIf) :
    Single ctx entries root := by
  intro c d d' hreach hd hd'
  have hgraph := (placed_of_reach hroot hreach).graph
  have hfork {remaining : Nat} {v : Visit} {m m₁ : Machine} {site : Site} {cond : Condition}
      {b : Block} (hc : c = ⟨remaining, v, m⟩) :
      (visit ctx entries false v).outcome m ≠ (.ok (site, .fork cond b), m₁) := by
    subst hc
    intro hv
    obtain ⟨text, mj, hruns, hop, -, -⟩ := jumpIf_of_fork hgraph hv
    obtain ⟨b, before, l, after, hb, hspan, rfl, -⟩ := line_of_runs hgraph hruns
    have hline : l ∈ code.lines := (Code.span_lines hb hspan).1.subset (by simp)
    exact hcode l hline hop
  cases hd with
  | go hv => exact (hd'.inv hv).symm
  | target hv ht => exact absurd hv (hfork rfl)
  | fall hv ht hf => exact absurd hv (hfork rfl)

/-! ### Blocks that make transfers -/

theorem spends_of_reach {d : Call} {m : Machine} (hm : Completes ctx entries d m)
    (h : Reaches ctx entries c d) (hflows : m.path.analysis.flows ≠ c.machine.path.analysis.flows) :
    ∃ e, Reaches ctx entries c e ∧ Reaches ctx entries e d ∧
      Spends ctx entries e := by
  induction h using Relation.ReflTransGen.head_induction_on with
  | refl =>
    obtain ⟨fs, hadded, hspends⟩ := flows_completes hm
    refine ⟨d, .refl, .refl, hspends.1 fun hnone => hflows ?_⟩
    rw [hadded, hnone, List.append_nil]
  | @head c c' hnext hreach ih =>
    obtain ⟨mc, places, hmc, -⟩ := hnext.completes
    obtain ⟨fs, hadded, hspends⟩ := flows_completes hmc
    by_cases hnone : fs = []
    · have hsame : c'.machine.path.analysis.flows = c.machine.path.analysis.flows := by
        rw [hnext.flows hmc, hadded, hnone, List.append_nil]
      obtain ⟨e, hce, hed, he⟩ := ih (by rwa [hsame])
      exact ⟨e, hce.head hnext, hed, he⟩
    · exact ⟨c, .refl, hreach.head hnext, hspends.1 hnone⟩

theorem Filed.prefix_flows {e : Entry} (h : Filed ctx entries c e) :
    c.machine.path.analysis.flows <+: e.flows := by
  obtain ⟨d, m, hreach, hm, rfl⟩ := h
  obtain ⟨fs, hadded, -⟩ := flows_completes hm
  change c.machine.path.analysis.flows <+: m.path.analysis.flows
  rw [hadded]
  exact (flows_prefix_of_reach hreach).trans (List.prefix_append _ _)

theorem Begins.flows_length (h : Begins ctx g entries root) :
    root.machine.path.analysis.flows.length = 1 := by
  obtain ⟨conditions, -, hledger⟩ := h.ledger
  have hflows : root.machine.path.analysis.flows = _ := congrArg Ledger.flows hledger
  rw [hflows]
  rfl

def SpendsTwice (ctx : Context) (entries : Table Int String) (root : Call) : Prop :=
  ∃ c d, Relation.ReflTransGen (Next ctx entries) root c ∧
    Relation.TransGen (Next ctx entries) c d ∧ Spends ctx entries c ∧ Spends ctx entries d

def Rival (es : List Entry) : Prop :=
  ∃ a ∈ es, ∃ b ∈ es, 1 < a.flows.length ∧ 1 < b.flows.length ∧ a.flows ≠ b.flows

theorem SpendsTwice.rival (hroot : Begins ctx g entries root)
    (h : SpendsTwice ctx entries root) : Rival (completions ctx entries root) := by
  obtain ⟨c, d, hc, hcd, hspends, hspends'⟩ := h
  have ⟨m, hm, _⟩ := hspends
  have ⟨m', hm', _⟩ := hspends'
  have hlt := (spends_iff_lt hm).1 hspends
  have hlt' := (spends_iff_lt hm').1 hspends'
  have hfirst := (flows_prefix_of_reach hc).length_le
  rw [hroot.flows_length] at hfirst
  have hbetween : m.path.analysis.flows.length ≤ d.machine.path.analysis.flows.length := by
    obtain ⟨c', hnext, hc'd⟩ := Relation.TransGen.head'_iff.1 hcd
    rw [← hnext.flows hm]
    exact (flows_prefix_of_reach hc'd).length_le
  refine ⟨m.path.entry, mem_completions.2 ⟨c, m, hc, hm, rfl⟩, m'.path.entry,
    mem_completions.2 ⟨d, m', hc.trans hcd.to_reflTransGen, hm', rfl⟩, ?_, ?_, fun hsame => ?_⟩
  · change 1 < m.path.analysis.flows.length
    omega
  · change 1 < m'.path.analysis.flows.length
    omega
  · have hlength : m.path.analysis.flows.length = m'.path.analysis.flows.length :=
      congrArg List.length hsame
    omega

theorem Single.spendsTwice (hroot : Begins ctx g entries root) (hsingle : Single ctx entries root)
    (h : Rival (completions ctx entries root)) : SpendsTwice ctx entries root := by
  obtain ⟨ea, hea, eb, heb, hlong, hlong', hdiffer⟩ := h
  obtain ⟨a, ma, ha, hma, rfl⟩ := mem_completions.1 hea
  obtain ⟨b, mb, hb, hmb, rfl⟩ := mem_completions.1 heb
  have hordered {a b : Call} {ma mb : Machine} (ha : Reaches ctx entries root a)
      (hma : Completes ctx entries a ma) (hmb : Completes ctx entries b mb)
      (hlong : 1 < ma.path.analysis.flows.length)
      (hdiffer : mb.path.analysis.flows ≠ ma.path.analysis.flows)
      (hab : Reaches ctx entries a b) : SpendsTwice ctx entries root := by
    have hmoved : ma.path.analysis.flows ≠ root.machine.path.analysis.flows := by
      intro hsame
      rw [hsame, hroot.flows_length] at hlong
      omega
    obtain ⟨c, hrc, hca, hc⟩ := spends_of_reach hma ha hmoved
    rcases hab.cases_head with rfl | ⟨a', hnext, ha'b⟩
    · exact absurd (by rw [hma.unique hmb]) hdiffer
    · obtain ⟨d, ha'd, -, hd⟩ := spends_of_reach hmb ha'b (by rwa [hnext.flows hma])
      have hcd : Relation.TransGen (Next ctx entries) c d :=
        (Relation.TransGen.tail' hca hnext).trans_left ha'd
      exact ⟨c, d, hrc, hcd, hc, hd⟩
  rcases hsingle.comparable ha hb with hab | hba
  · exact hordered ha hma hmb hlong (fun hsame => hdiffer hsame.symm) hab
  · exact hordered hb hmb hma hlong' hdiffer hba

end Exec

namespace Audit

open Exec

theorem two_le_countP {es : List Entry} (hdistinct : (es.map Entry.flows).Nodup) :
    (2 ≤ es.countP fun e => 1 < e.flows.length) ↔ Rival es := by
  have hcount : (es.countP fun e => 1 < e.flows.length) =
      ((es.map Entry.flows).filter fun f => 1 < f.length).toFinset.card := by
    rw [List.toFinset_card_of_nodup (hdistinct.filter _), ← List.countP_eq_length_filter,
      List.countP_map]
    rfl
  rw [hcount, Nat.succ_le_iff, Finset.one_lt_card]
  simp only [List.mem_toFinset, List.mem_filter, List.mem_map, decide_eq_true_eq]
  constructor
  · rintro ⟨_, ⟨⟨a, ha, rfl⟩, hlong⟩, _, ⟨⟨b, hb, rfl⟩, hlong'⟩, hdiffer⟩
    exact ⟨a, ha, b, hb, hlong, hlong', hdiffer⟩
  · rintro ⟨a, ha, b, hb, hlong, hlong', hdiffer⟩
    exact ⟨_, ⟨⟨a, ha, rfl⟩, hlong⟩, _, ⟨⟨b, hb, rfl⟩, hlong'⟩, hdiffer⟩

/-- An exploration with a single path is reported exactly if two blocks of the path make transfers,
one after the other. -/
theorem race_of_single_path {ctx ctx' : Context} {entries : Table Int String} {g : Graph}
    {root : Call} {p : Progress} (hsolver : ctx'.Affirms) (hroot : Begins ctx g entries root)
    (hsingle : Single ctx entries root)
    (hp : p.machine.shared.tables = (root.ending ctx entries).shared.tables) :
    ∃ race places, findRace ctx' p.machine.shared.flows = .ok race ∧
      racePlaces p.machine.shared race = .ok places ∧
      (race.isSome ↔ SpendsTwice ctx entries root) ∧ Concludes ctx' p race places := by
  obtain ⟨es, htables, hdistinct, hfirst, hfiled⟩ := hroot.rows
  have hrows : ∀ f ∈ es.map Entry.flows, f ≠ [] := by
    refine List.forall_mem_map.2 fun e he hnone => ?_
    have hprefix := (mem_completions.1 ((hfirst e).1 he).mem).prefix_flows.length_le
    rw [hroot.flows_length, hnone] at hprefix
    cases hprefix
  obtain ⟨race, places, rfl, hrace, hplaces, -, hconcludes⟩ :=
    concludes_of_rows hsolver (hp.trans htables) hdistinct
  refine ⟨_, places, hrace, hplaces, ?_, hconcludes⟩
  have hcount := firstTwo_isSome hrows
  rw [List.countP_map] at hcount
  refine hcount.trans ((two_le_countP hdistinct).trans ?_)
  constructor
  · rintro ⟨a, ha, b, hb, hlong⟩
    exact hsingle.spendsTwice hroot ⟨a, ((hfirst a).1 ha).mem, b, ((hfirst b).1 hb).mem, hlong⟩
  · intro hspends
    obtain ⟨a, ha, b, hb, hlong, hlong', hdiffer⟩ := hspends.rival hroot
    obtain ⟨a', ha', hsame⟩ := List.mem_map.1 (hfiled a ha)
    obtain ⟨b', hb', hsame'⟩ := List.mem_map.1 (hfiled b hb)
    exact ⟨a', ha', b', hb', by rwa [hsame], by rwa [hsame'], by rwa [hsame, hsame']⟩

/-! ### A call and what follows it -/

def payAndLeave : Code := .ofDrafts
  [⟨0, "PUSH1", some "00"⟩, ⟨2, "PUSH1", some "00"⟩, ⟨4, "PUSH1", some "00"⟩,
    ⟨6, "PUSH1", some "00"⟩, ⟨8, "PUSH1", some "01"⟩, ⟨10, "CALLER", none⟩,
    ⟨11, "PUSH1", some "00"⟩, ⟨13, "CALL", none⟩, ⟨14, "JUMPDEST", none⟩, ⟨15, "CALLER", none⟩,
    ⟨16, "SUICIDE", none⟩]

theorem affirms_payAndLeave : affirming.Affirms := fun _ _ => rfl

def payAndLeaveRoot : Call := .first affirming payAndLeave.assembled

theorem begins_payAndLeave : Begins affirming payAndLeave.linked {} payAndLeaveRoot :=
  begins_unsourced payAndLeave.linked_sorted rfl (by decide +kernel)

theorem single_payAndLeave : Single affirming {} payAndLeaveRoot :=
  single_of_no_jumpIf begins_payAndLeave (by decide +kernel)

def payAndLeaveEnd : Machine := payAndLeaveRoot.ending affirming {}

theorem race_payAndLeave :
    (findRace affirming payAndLeaveEnd.shared.flows).toOption = some (some (0, 1)) := by
  decide +kernel

/-- The first block pays the caller, and the second one moves what is left. -/
theorem race_of_single_path_payAndLeave :
    affirming.Affirms ∧ Single affirming {} payAndLeaveRoot ∧
    SpendsTwice affirming {} payAndLeaveRoot ∧
    ∃ f, f.vulnerable = true ∧ Reports (detectConcurrency affirming)
      { machine := payAndLeaveEnd } "money_concurrency" Findings.concurrency f := by
  have hend : payAndLeaveEnd.shared.tables =
      (payAndLeaveRoot.ending affirming {}).shared.tables := by
    unfold payAndLeaveEnd
    exact Eq.refl _
  have hfound := race_payAndLeave
  -- Only the kernel runs the exploration; from here on its end is any state with these tables.
  generalize payAndLeaveEnd = m at hend hfound ⊢
  obtain ⟨race, places, hrace, -, hspends, hconcludes⟩ :=
    race_of_single_path (p := { machine := m })
    affirms_payAndLeave begins_payAndLeave single_payAndLeave hend
  rw [hrace] at hfound
  cases hfound
  exact ⟨affirms_payAndLeave, single_payAndLeave, hspends.1 rfl, hconcludes.reports rfl rfl⟩

theorem payAndLeave_reported :
    (∀ l ∈ payAndLeave.lines, (Instruction.ofText l.text).operation ≠ .jumpIf) ∧
    Single affirming {} payAndLeaveRoot ∧
    ∃ f, f.vulnerable = true ∧ Reports (detectConcurrency affirming) { machine :=
      ((exploreAll affirming).outcome { shared := { graph := payAndLeave.linked } }).2 }
      "money_concurrency" Findings.concurrency f := by
  refine ⟨by decide +kernel, single_payAndLeave, ?_⟩
  have hexplored : ((exploreAll affirming).outcome
      { shared := { graph := payAndLeave.linked } }).2 = payAndLeaveEnd := by
    unfold payAndLeaveEnd
    exact begins_payAndLeave.ending_eq
  obtain ⟨es, htables, hdistinct, -⟩ := begins_payAndLeave.rows
  have hend : payAndLeaveEnd.shared.tables = .ofEntries es := by
    unfold payAndLeaveEnd
    exact htables
  have hfound := race_payAndLeave
  rw [hexplored]
  generalize payAndLeaveEnd = m at hend hfound ⊢
  obtain ⟨race, places, -, hrace, -, -, hconcludes⟩ :=
    concludes_of_rows (p := { machine := m }) affirms_payAndLeave hend hdistinct
  rw [hrace] at hfound
  cases hfound
  exact hconcludes.reports rfl rfl

end Audit

end EvmAudit
