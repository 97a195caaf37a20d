import EvmAudit.Proofs.Audit.Reports
import EvmAudit.Proofs.Explore.Completions

/-! Dependence on the time. The conditions of a path reach the detector only in a row of the tables,
and of the paths with the same transfers only the first one has a row. -/

namespace EvmAudit

open Listing

def Entry.TimedAt (print : Printer) (e : Entry) (r : Int) : Prop :=
  ∃ i f, e.conditions[i]? = some (.symbolic f) ∧
    Text.contains Audit.timestampName (print.formula f) = true ∧ e.conditionPcs.get? i = some r

namespace Audit

theorem mem_timeNotes {print : Printer} {e : Entry} {r : Int} :
    r ∈ e.conditions.zipIdx.filterMap (timeNote print e.conditionPcs) ↔ e.TimedAt print r := by
  simp only [List.mem_filterMap, Prod.exists, List.mem_zipIdx_iff_getElem?]
  constructor
  · rintro ⟨c, i, hi, hnote⟩
    cases c with
    | settled b => cases hnote
    | symbolic f =>
      rw [timeNote] at hnote
      split at hnote
      next htime =>
        exact ⟨i, f, hi, htime, hnote⟩
      · cases hnote
  · rintro ⟨i, f, hi, htime, hplace⟩
    exact ⟨.symbolic f, i, hi, by rw [timeNote, if_pos htime, hplace]⟩

theorem settles_detectTimeDependency (job : Job) {p : Progress} {pcs : List Int}
    (hpcs : timePlaces job.ctx.print p.machine.shared = .ok pcs) :
    Settles (detectTimeDependency job) p "time_dependency" Findings.timeDependency
      (Finding.timeDependency p.source pcs) := by
  let paths : Audit Unit :=
    if on job.ctx.settings.printPaths then do
      say "ALL PATH CONDITIONS"
      sayPaths job.ctx.print p.machine.shared.conditions.zipIdx
    else pure ()
  let rest (source : Option SourceMap) : Audit Unit := do
    let f ← ofExcept (Finding.timeDependency source pcs)
    modifyFindings ({ · with timeDependency := some f })
    enter "time_dependency" f
    say ("\t  Timestamp Dependency: \t\t " ++ truthText f.vulnerable)
    if on job.ctx.settings.reportMode then
      writeFile (stem job.name ++ ".report") (if pcs.isEmpty then "no\n" else "yes\n")
  have hall : perform (detectTimeDependency job) p = perform (do paths; rest (← get).source) p := by
    rw [detectTimeDependency, perform_bind, perform_shared]
    dsimp only [paths, rest]
    rw [hpcs]
    split <;> rfl
  have hpaths : Remarks paths := ((remarks_say _).bind (remarks_sayPaths _ _)).ite _
  obtain ⟨p', hp', hsource, -⟩ := hpaths p
  have hrest : perform (detectTimeDependency job) p = perform (rest p.source) p' := by
    rw [hall, perform_bind, hp', ← hsource]
    rfl
  exact settles_entered hrest hsource (fun f hf => (shown_atPcs hf).2) (fun _ _ => rfl)
    fun f => (remarks_say _).bind ((remarks_writeFile _ _).ite _)

/-- The detector finds the places of the conditions that mention the time, but of all blocks that
are executed to their ends with the same transfers on their paths, only those of the first one. -/
theorem time_dependencies_reported {ctx : Context} {entries : Table Int String} {g : Graph}
    {root : Exec.Call} (job : Job) {p : Progress} (hroot : Exec.Begins ctx g entries root)
    (hp : p.machine.shared.tables = (root.ending ctx entries).shared.tables) :
    ∃ pcs, timePlaces job.ctx.print p.machine.shared = .ok pcs ∧
      (∀ r, r ∈ pcs ↔ ∃ e, FirstOf (Exec.completions ctx entries root) e ∧
        e.TimedAt job.ctx.print r) ∧
      (∀ f, Finding.timeDependency p.source pcs = .ok f →
        (f.vulnerable = true ↔ ∃ r ∈ pcs, Visible p.source r)) ∧
      Settles (detectTimeDependency job) p "time_dependency" Findings.timeDependency
        (Finding.timeDependency p.source pcs) := by
  obtain ⟨es, htables, -, hfirst, -⟩ := hroot.rows
  have hanswered : Answered job.ctx p.machine.shared es := answered_of_tables (hp.trans htables)
  refine ⟨_, hanswered.times, fun r => ?_, fun f hf => (shown_atPcs hf).1,
    settles_detectTimeDependency job hanswered.times⟩
  simp only [List.mem_flatten, List.mem_map, exists_exists_and_eq_and, mem_timeNotes, hfirst]

/-! ### Two conditions before one transfer -/

open Exec

def gate (late : Bool) : String := if late then "TIMESTAMP" else "CALLVALUE"

def twoGates (late : Bool) : Code := .ofDrafts
  [⟨0, gate late, none⟩, ⟨1, "PUSH1", some "09"⟩, ⟨3, "JUMPI", none⟩, ⟨4, "TIMESTAMP", none⟩,
    ⟨5, "PUSH1", some "09"⟩, ⟨7, "JUMPI", none⟩, ⟨8, "STOP", none⟩, ⟨9, "JUMPDEST", none⟩,
    ⟨10, "CALLER", none⟩, ⟨11, "SUICIDE", none⟩]
  (by cases late <;> decide) rfl (by cases late <;> decide)

def twoGatesRoot (late : Bool) : Call := .first affirming (twoGates late).assembled

theorem begins_twoGates (late : Bool) :
    Begins affirming (twoGates late).linked {} (twoGatesRoot late) :=
  begins_unsourced (twoGates late).linked_sorted rfl (by cases late <;> decide +kernel)

def twoGatesEnd (late : Bool) : Machine := (twoGatesRoot late).ending affirming {}

def twoGatesJob : Job where
  ctx := affirming
  name := "gates.evm.disasm"
  listing := ""

theorem times_twoGates (late : Bool) :
    (timePlaces {} (twoGatesEnd late).shared).toOption = some (if late then [3] else []) := by
  cases late <;> decide +kernel

theorem tables_twoGates (late : Bool) : (twoGatesEnd late).shared.tables =
    ((twoGatesRoot late).ending affirming {}).shared.tables := by
  unfold twoGatesEnd
  exact Eq.refl _

theorem time_dependencies_reported_twoGates :
    (∃ e, FirstOf (completions affirming {} (twoGatesRoot true)) e ∧ e.TimedAt {} 3) ∧
    ∃ f, f.vulnerable = true ∧ Reports (detectTimeDependency twoGatesJob)
      { machine := twoGatesEnd true } "time_dependency" Findings.timeDependency f := by
  have hend := tables_twoGates true
  have hfound := times_twoGates true
  generalize twoGatesEnd true = m at hend hfound ⊢
  obtain ⟨pcs, hpcs, hmem, hvulnerable, hsettles⟩ := time_dependencies_reported twoGatesJob
    (p := { machine := m }) (begins_twoGates true) hend
  replace hfound : (timePlaces affirming.print m.shared).toOption = some [3] := hfound
  rw [show timePlaces affirming.print m.shared = _ from hpcs] at hfound
  cases hfound
  exact ⟨(hmem 3).1 List.mem_cons_self, _, rfl, hsettles⟩

def Call.movesLate (c : Call) (r : Int) : Bool :=
  (c.entry? affirming {}).any fun e =>
    c.machine.path.analysis.flows.length < e.flows.length &&
      (e.conditions.zipIdx.filterMap (timeNote {} e.conditionPcs)).contains r

theorem late_twoGates :
    (calls affirming {} (twoGatesRoot false).remaining (twoGatesRoot false).visit
    (twoGatesRoot false).machine).any (Call.movesLate · 7) = true := by
  decide +kernel

/-- If the first jump is on the payment, a path moves the balance because of the time, and nothing
is reported. -/
theorem twoGates_unreported :
    (∃ c m, Relation.ReflTransGen (Next affirming {}) (twoGatesRoot false) c ∧
      Spends affirming {} c ∧ Completes affirming {} c m ∧ m.path.entry.TimedAt {} 7) ∧
    ∃ f, f.vulnerable = false ∧ Reports (detectTimeDependency twoGatesJob)
      { machine := ((exploreAll affirming).outcome
        { shared := { graph := (twoGates false).linked } }).2 }
      "time_dependency" Findings.timeDependency f := by
  constructor
  · obtain ⟨c, hc, hlate⟩ := List.any_eq_true.1 late_twoGates
    unfold Call.movesLate at hlate
    cases hentry : c.entry? affirming {} with
    | none =>
      rw [hentry] at hlate
      cases hlate
    | some e =>
      rw [hentry, Option.any_some, Bool.and_eq_true, decide_eq_true_eq, List.contains_iff_mem,
        mem_timeNotes] at hlate
      obtain ⟨m, hcompletes, rfl⟩ := entry?_eq_some.1 hentry
      exact ⟨c, m, mem_calls.1 hc, (spends_iff_lt hcompletes).2 hlate.1, hcompletes, hlate.2⟩
  · have hexplored : ((exploreAll affirming).outcome
        { shared := { graph := (twoGates false).linked } }).2 = twoGatesEnd false := by
      unfold twoGatesEnd
      exact (begins_twoGates false).ending_eq
    have hfound := times_twoGates false
    rw [hexplored]
    generalize twoGatesEnd false = m at hfound ⊢
    cases hpcs : timePlaces {} m.shared with
    | error e =>
      rw [hpcs] at hfound
      cases hfound
    | ok pcs =>
      rw [hpcs] at hfound
      cases hfound
      exact ⟨_, rfl, settles_detectTimeDependency twoGatesJob (p := { machine := m }) hpcs⟩

end Audit

end EvmAudit
