import EvmAudit.Proofs.Audit.Built

/-! The verdict of a run. It is what the counted results say; wrapped numbers never count, and
contracts that can be destroyed count only where assertions are checked. -/

namespace EvmAudit.Audit

variable {verdict withSource : Bool}

def uncounted (settings : Settings) : List String :=
  ["integer_underflow", "integer_overflow"] ++
    if on settings.checkAssertions then [] else ["parity_multisig_bug_2"]

/-! ### What the detectors leave together -/

variable {job : Job} {p p' : Progress} {rs : Table String Document} {fs : Findings} {sourced : Bool}

theorem of_reported (h : reported p' = reported p) :
    p'.results = p.results ∧ p'.findings = p.findings ∧ p'.source.isSome = p.source.isSome := by
  simp only [reported, Prod.mk.injEq] at h
  exact h.2

/-- What is known of the progress: its results, its findings and whether it has a source map. -/
def Bears (p : Progress) (rs : Table String Document) (fs : Findings) (sourced : Bool) : Prop :=
  p.results = rs ∧ p.findings = fs ∧ p.source.isSome = sourced

theorem Enters.followed {x rest : Audit Unit} {name : String}
    {change : Finding → Findings → Findings} (hx : Enters x name change)
    (hp : Bears p rs fs sourced) (h : perform (do x; rest) p = (.ok (), p')) :
    ∃ (j : Judgement) (p₁ : Progress), perform rest p₁ = (.ok (), p') ∧
      Bears p₁ (rs.insert name j.result) (change j.finding fs) sourced := by
  obtain ⟨rfl, rfl, rfl⟩ := hp
  obtain ⟨_, p₁, hfirst, h⟩ := perform_bind_eq_ok.1 h
  obtain ⟨j, hfindings, hresults⟩ := hx.enters hfirst
  have hspares := hx.spares p
  rw [hfirst] at hspares
  exact ⟨j, p₁, h, hresults, hfindings, congrArg (fun k => k.2.isSome) hspares⟩

theorem sayWarnings_ok (hp : Bears p rs fs sourced)
    (h : perform (if withSource then sayWarnings job.ctx else pure () : Audit Unit) p =
      (.ok (), p')) : Bears p' rs fs sourced := by
  obtain ⟨rfl, rfl, rfl⟩ := hp
  have hspares : Spares reported (if withSource then sayWarnings job.ctx else pure ()) :=
    spares_ite (spares_sayWarnings job.ctx) (spares_pure ())
  have hkept := hspares p
  rw [h] at hkept
  exact of_reported hkept

/-- What is left if assertions are checked after this, with a source map, or not at all. -/
def CheckedAfter (job : Job) (withSource : Bool) (fs : Findings) (rs : Table String Document)
    (p : Progress) : Prop :=
  (on job.ctx.settings.checkAssertions = false ∧ p.findings = fs ∧ p.results = rs) ∨
    (on job.ctx.settings.checkAssertions = true ∧ withSource = true ∧ ∃ a : Judgement,
      p.findings = { fs with assertion := some a.finding } ∧
      p.results = rs.insert "assertion_failure" a.result)

theorem lastDetectors_ok (hp : Bears p rs fs sourced)
    (h : perform (lastDetectors job withSource) p = (.ok (), p')) : p'.source.isSome = sourced ∧
    ∃ r : Judgement,
      CheckedAfter job withSource { fs with reentrancy := some r.finding }
      (rs.insert "reentrancy" r.result) p' := by
  obtain ⟨r, p₁, h, hp₁⟩ := enters_detectReentrancy.followed hp h
  dsimp only at h
  by_cases hcheck : on job.ctx.settings.checkAssertions = true
  · rw [if_pos hcheck] at h
    by_cases hmap : withSource = true
    · rw [if_pos hmap] at h
      obtain ⟨a, p₂, h, hp₂⟩ := enters_detectAssertion.followed hp₁ h
      obtain ⟨hresults, hfindings, hsource⟩ := sayWarnings_ok hp₂ h
      exact ⟨hsource, r, .inr ⟨hcheck, hmap, a, hfindings, hresults⟩⟩
    · rw [if_neg hmap] at h
      obtain ⟨_, p₂, hthrow, -⟩ := perform_bind_eq_ok.1 h
      cases hthrow
  · rw [if_neg hcheck] at h
    obtain ⟨hresults, hfindings, hsource⟩ := sayWarnings_ok hp₁ h
    exact ⟨hsource, r, .inl ⟨Bool.eq_false_iff.2 hcheck, hfindings, hresults⟩⟩

/-- The findings of the four detectors that need no source. -/
def judged (fs : Findings) (c m t r : Judgement) : Findings :=
  { fs with
    callstack := some c.finding, concurrency := some m.finding
    timeDependency := some t.finding, reentrancy := some r.finding }

def withResults (rs : Table String Document) (c m t r : Judgement) : Table String Document :=
  (((rs.insert "callstack" c.result).insert "money_concurrency" m.result).insert
    "time_dependency" t.result).insert "reentrancy" r.result

theorem plainDetectors_ok (hp : Bears p rs fs sourced)
    (h : perform (plainDetectors job withSource) p = (.ok (), p')) :
    p'.source.isSome = sourced ∧ ∃ c m t r : Judgement,
      CheckedAfter job withSource (judged fs c m t r) (withResults rs c m t r) p' := by
  obtain ⟨c, p₁, h, hp₁⟩ := enters_detectCallstack.followed hp h
  obtain ⟨m, p₂, h, hp₂⟩ := (enters_detectConcurrency job.ctx).followed hp₁ h
  obtain ⟨t, p₃, h, hp₃⟩ := (enters_detectTimeDependency job).followed hp₂ h
  split at h
  · obtain ⟨_, p₄, hthrow, -⟩ := perform_bind_eq_ok.1 h
    cases hthrow
  · obtain ⟨hmap, r, hlast⟩ := lastDetectors_ok hp₃ h
    exact ⟨hmap, c, m, t, r, hlast⟩

theorem detectors_ok (h : perform (detectors job withSource) p = (.ok (), p'))
    (hp : Bears p rs fs sourced) : p'.source.isSome = sourced ∧ ∃ c m t r : Judgement,
      (withSource = false ∧
        CheckedAfter job false (judged fs c m t r) (withResults rs c m t r) p') ∨
      (withSource = true ∧ ∃ u o d : Judgement, CheckedAfter job true
        (judged { fs with
          underflow := some u.finding, overflow := some o.finding
          destructible := some d.finding } c m t r)
        (withResults (((rs.insert "integer_underflow" u.result).insert "integer_overflow"
          o.result).insert "parity_multisig_bug_2" d.result) c m t r) p') := by
  cases withSource with
  | false =>
    obtain ⟨hsource, c, m, t, r, hchecked⟩ := plainDetectors_ok hp h
    exact ⟨hsource, c, m, t, r, .inl ⟨rfl, hchecked⟩⟩
  | true =>
    obtain ⟨u, p₁, h, hp₁⟩ := enters_detectUnderflow.followed hp h
    obtain ⟨o, p₂, h, hp₂⟩ := enters_detectOverflow.followed hp₁ h
    obtain ⟨d, p₃, h, hp₃⟩ := (enters_detectDestructible job).followed hp₂ h
    obtain ⟨hmap, c, m, t, r, hchecked⟩ := plainDetectors_ok hp₃ h
    exact ⟨hmap, c, m, t, r, .inr ⟨rfl, u, o, d, hchecked⟩⟩

/-! ### The verdict -/

theorem perform_mapM_found (fs : List Finding) (p : Progress) :
    perform ((fs.map some).mapM found) p = (.ok fs, p) := by
  induction fs with
  | nil => rfl
  | cons f fs ih =>
    rw [List.map_cons, List.mapM_cons, found, perform_bind, perform_pure]
    dsimp only
    rw [perform_bind, ih]
    rfl

theorem perform_anyFound {ctx : Context} {fs : Findings} {c m t r : Finding} {more : List Finding}
    (hfindings : p.findings = fs) (hcallstack : fs.callstack = some c)
    (hconcurrency : fs.concurrency = some m) (htime : fs.timeDependency = some t)
    (hreentrancy : fs.reentrancy = some r)
    (hmore : (if p.source.isSome && on ctx.settings.checkAssertions then
      [fs.assertion, fs.destructible] else []) = more.map some) :
    (perform (anyFound ctx) p).1 = .ok (([c, m, t, r] ++ more).any Finding.vulnerable) := by
  have hfirst := perform_mapM_found [c, m, t, r] p
  have hrest := perform_mapM_found more p
  rw [anyFound, perform_bind, perform_get]
  dsimp only
  rw [hfindings, hcallstack, hconcurrency, htime, hreentrancy,
    show [some c, some m, some t, some r] = [c, m, t, r].map some from rfl, perform_bind, hfirst]
  dsimp only
  by_cases hasked : (p.source.isSome && on ctx.settings.checkAssertions) = true
  · rw [if_pos hasked] at hmore ⊢
    rw [hmore, perform_bind, hrest]
    rfl
  · rw [if_neg hasked] at hmore ⊢
    rw [List.map_eq_nil_iff.1 hmore.symm]
    rfl

theorem anyFound_of_none {ctx : Context} (h : p.findings.callstack = none) :
    (perform (anyFound ctx) p).1 = .error .unboundName := by
  rw [anyFound, perform_bind, perform_get]
  dsimp only
  rw [h, List.mapM_cons, found]
  rfl

theorem findings_sayNothing (settings : Settings) :
    Spares Progress.findings (sayNothing settings) := by
  have hsay (text : String) : Spares Progress.findings (say text) :=
    fun p => (of_kept (spares_say text p)).2
  have hcoverage : Spares Progress.findings (modify fun p => { p with coverage := "0/0" }) :=
    spares_modify fun _ => rfl
  exact (hsay _).bind fun _ => (hsay _).bind fun _ => (hsay _).bind fun _ => (hsay _).bind fun _ =>
    (hsay _).bind fun _ => spares_ite ((hsay _).bind fun _ => hcoverage) hcoverage

theorem report_ok (hfindings : p.findings = {})
    (h : perform (report job) p = (.ok (some verdict), p')) : ∃ p₁, perform (detectAll job) p =
      (.ok (), p₁) ∧ (perform (anyFound job.ctx) p₁).1 = .ok verdict ∧ p'.results = p₁.results := by
  obtain ⟨s, _, hshared, h⟩ := perform_bind_eq_ok.1 h
  obtain ⟨-, rfl⟩ := Prod.mk.inj hshared
  have hrest {p₁ : Progress} (h : perform (do
      let found ← anyFound job.ctx
      finish job
      return some found : Audit (Option Bool)) p₁ = (.ok (some verdict), p')) :
      (perform (anyFound job.ctx) p₁).1 = .ok verdict ∧ p'.results = p₁.results := by
    obtain ⟨found, p₂, hfound, h⟩ := perform_bind_eq_ok.1 h
    obtain ⟨_, p₃, hfinish, h⟩ := perform_bind_eq_ok.1 h
    cases h
    have hasked := @spares_anyFound _ reported job.ctx p₁
    have hfinished := spares_finish job p₂
    rw [hfound] at hasked
    rw [hfinish] at hfinished
    exact ⟨by rw [hfound], (of_reported hfinished).1.trans (of_reported hasked).1⟩
  dsimp only at h
  split at h
  · obtain ⟨_, p₁, hnothing, h⟩ := perform_bind_eq_ok.1 h
    -- without instructions no detector has run, and there is no finding to look at
    have hkept := findings_sayNothing job.ctx.settings p
    rw [hnothing] at hkept
    have hnone :=
      @anyFound_of_none p₁ job.ctx (by rw [show p₁.findings = {} from hkept.trans hfindings])
    cases hnone.symm.trans (hrest h).1
  · obtain ⟨_, p₁, hdetect, h⟩ := perform_bind_eq_ok.1 h
    exact ⟨p₁, hdetect, hrest h⟩

theorem entries_unsourced (c m t r : Judgement) :
    (withResults (emptyResults false) c m t r).entries =
    [("integer_underflow", .array []), ("integer_overflow", .array []), ("callstack", c.result),
      ("money_concurrency", m.result), ("time_dependency", t.result),
        ("reentrancy", r.result)] := by
  rfl

theorem entries_sourced (u o d : Document) (c m t r : Judgement) :
    (withResults ((((emptyResults true).insert "integer_underflow" u).insert "integer_overflow"
      o).insert "parity_multisig_bug_2" d) c m t r).entries =
      [("integer_underflow", u), ("integer_overflow", o), ("callstack", c.result),
        ("money_concurrency", m.result), ("time_dependency", t.result), ("reentrancy", r.result),
        ("assertion_failure", .array []), ("parity_multisig_bug_2", d)] := by
  rfl

theorem counted_of_detectAll (hfindings : p.findings = {})
    (hresults : p.results = emptyResults p.source.isSome)
    (hdetect : perform (detectAll job) p = (.ok (), p'))
    (hverdict : (perform (anyFound job.ctx) p').1 = .ok verdict) :
    (verdict = true ↔ ∃ e ∈ p'.results.entries, flagged e.2 = true ∧
      e.1 ∉ uncounted job.ctx.settings) ∧
      (p.source.isSome = false → ∀ e ∈ p'.results.entries, e.1 ∈ uncounted job.ctx.settings →
        flagged e.2 = false) := by
  obtain ⟨machine, hdetectors⟩ := perform_detectAll job p
  rw [hdetectors] at hdetect
  obtain ⟨hsource, c, m, t, r, ⟨hmap, hchecked⟩ | ⟨hmap, u, o, d, hchecked⟩⟩ :=
      detectors_ok hdetect ⟨hresults, hfindings, rfl⟩ <;> rw [hmap] at hchecked
  · obtain ⟨hcheck, hfindings', hresults'⟩ | ⟨-, hmap', -⟩ := hchecked
    · have hany :=
        @perform_anyFound p' job.ctx _ _ _ _ _ [] hfindings' rfl rfl rfl rfl (by simp [hcheck])
      cases hverdict.symm.trans hany
      rw [hresults', entries_unsourced]
      simp [uncounted, hcheck]
    · cases hmap'
  · obtain ⟨hcheck, hfindings', hresults'⟩ | ⟨hcheck, -, a, hfindings', hresults'⟩ := hchecked
    · have hany :=
        @perform_anyFound p' job.ctx _ _ _ _ _ [] hfindings' rfl rfl rfl rfl (by simp [hcheck])
      cases hverdict.symm.trans hany
      rw [hresults', entries_sourced]
      simp [uncounted, hcheck, hmap]
    · have hany :=
        @perform_anyFound p' job.ctx _ _ _ _ _ [a.finding, d.finding] hfindings' rfl rfl rfl rfl
        (by simp [judged, hcheck, hsource, hmap])
      cases hverdict.symm.trans hany
      rw [hresults', Table.insert, entries_sourced]
      simp [Table.put, uncounted, hcheck, hmap]

/-- Of the results that are flagged, those with a counted name make the verdict. Without a source
map these are all; in general the verdict misses a flagged result if none that is flagged is
counted. -/
theorem found_iff_counted {verdict : Bool}
    (h : perform (run job) job.start = (.ok (some verdict), p)) :
    (verdict = true ↔ ∃ e ∈ p.results.entries, flagged e.2 = true ∧
      e.1 ∉ uncounted job.ctx.settings) ∧
      (job.ctx.source = none → (verdict = true ↔ ∃ e ∈ p.results.entries, flagged e.2 = true)) ∧
      ((verdict = true ↔ ∃ e ∈ p.results.entries, flagged e.2 = true) ↔
        (verdict = true ∨ ∀ e ∈ p.results.entries, e.1 ∈ uncounted job.ctx.settings →
          flagged e.2 = false)) := by
  rcases run_cases job job.start with ⟨-, hnone⟩ | ⟨log, p₁, -, hreported, hrun⟩
  · exact absurd (congrArg Prod.fst h) (hnone verdict)
  · obtain ⟨hresults₁, hfindings₁, hsource₁⟩ := of_reported hreported
    rw [hrun] at h
    obtain ⟨p₂, hdetect, hverdict, hresults⟩ := report_ok hfindings₁ h
    obtain ⟨hcounted, hunsourced⟩ :=
      counted_of_detectAll hfindings₁ (by rw [hresults₁, hsource₁]; rfl) hdetect hverdict
    rw [← hresults] at hcounted hunsourced
    have hall (hnothing : ∀ e ∈ p.results.entries, e.1 ∈ uncounted job.ctx.settings →
        flagged e.2 = false) : verdict = true ↔ ∃ e ∈ p.results.entries, flagged e.2 = true := by
      rw [hcounted]
      refine exists_congr fun e => and_congr_right fun he => ?_
      exact and_iff_left_of_imp fun hflagged hmem => by simp [hnothing e he hmem] at hflagged
    refine ⟨hcounted, fun hsource => hall (hunsourced ?_), ?_, ?_⟩
    · rw [hsource₁]
      exact congrArg Option.isSome hsource
    · intro hiff
      cases verdict with
      | true => exact .inl rfl
      | false =>
        refine .inr fun e he _ => Bool.eq_false_iff.2 fun hflagged => ?_
        exact Bool.false_ne_true (hiff.2 ⟨e, he, hflagged⟩)
    · rintro (htrue | hnothing)
      · obtain ⟨e, he, hflagged, -⟩ := hcounted.1 htrue
        exact ⟨fun _ => ⟨e, he, hflagged⟩, fun _ => htrue⟩
      · exact hall hnothing

open Listing

def valueLessSender : List Printed := Printed.listed
  [(0, .known "CALLER" none), (1, .known "CALLVALUE" none), (2, .known "SUB" none),
   (3, .known "STOP" none)]

def valueLessSenderCode : Code := .ofPrinted valueLessSender rfl (by decide +kernel)

def valueLessSenderItems : List (Option SourceItem) :=
  ["CALLER", "CALLVALUE", "SUB", "STOP"].map fun name =>
    some (.ofDocument (.object [("begin", .int 13), ("end", .int 29), ("name", .text name)]))

def valueLessSenderMap : SourceMap where
  contract := "a.sol:C"
  root := ""
  text := .ofContent "contract C \x7b function f() \x7b \x7d \x7d\n"
  positions := valueLessSenderItems
  varNames := []
  callNames := []
  callees := []
  parameters := {}
  signatures := {}

def valueLessSenderJob : Job where
  ctx := { source := some valueLessSenderMap, decide := fun _ => .sat [] }
  name := "a.sol:C.evm.disasm"
  listing := disassembly "33340300" valueLessSender

def valueLessSenderBuild : Build where
  text := some (plainText "33340300" valueLessSender)
  graph := valueLessSenderCode.assembled
  items := (outline (some valueLessSenderItems) (valueLessSenderCode.lines.map Line.row)).1.items
  log := (outline (some valueLessSenderItems) (valueLessSenderCode.lines.map Line.row)).2.1

theorem hexadecimal_valueLessSender : ∀ c ∈ "33340300".toList, isHexadecimal c = true :=
  List.all_eq_true.1 (by decide +kernel)

theorem run_valueLessSender : perform (run valueLessSenderJob) valueLessSenderJob.start =
    perform (runBuilt valueLessSenderJob valueLessSenderBuild) valueLessSenderJob.start := by
  have hbuild : Build.ofListing (some valueLessSenderItems)
      (disassembly "33340300" valueLessSender) = valueLessSenderBuild := by
    rw [Code.ofListing_eq (c := valueLessSenderCode)
      (format_disassembly hexadecimal_valueLessSender valueLessSender)
      (lines_plainText hexadecimal_valueLessSender valueLessSender) (by decide +kernel),
      valueLessSenderCode.linked_sorted]
    rfl
  rw [perform_run rfl, ← hbuild]
  rfl

def missed (o : Except Fault (Option Bool) × Progress) : Bool :=
  o.1.toOption == some (some false) && !o.2.machine.shared.graph.instructions.isEmpty &&
    o.2.results.entries.any fun e => flagged e.2

theorem ended_valueLessSender : ∃ p, perform (run valueLessSenderJob) valueLessSenderJob.start =
    (.ok (some false), p) ∧ p.machine.shared.graph.instructions.isEmpty = false ∧
      ∃ e ∈ p.results.entries, flagged e.2 = true := by
  have hmissed :
      missed (perform (runBuilt valueLessSenderJob valueLessSenderBuild) valueLessSenderJob.start) =
      true := by
    decide +kernel
  rw [run_valueLessSender]
  generalize perform (runBuilt valueLessSenderJob valueLessSenderBuild) valueLessSenderJob.start =
    o at hmissed ⊢
  obtain ⟨e | found, p⟩ := o
  · cases hmissed
  · simp only [missed, Bool.and_eq_true, beq_iff_eq, Bool.not_eq_true', List.any_eq_true] at hmissed
    exact ⟨p, by rw [Option.some.inj hmissed.1.1], hmissed.1.2, hmissed.2⟩

theorem found_iff_counted_valueLessSender :
    ∃ p, perform (run valueLessSenderJob) valueLessSenderJob.start =
    (.ok (some false), p) ∧ (∃ e ∈ p.results.entries, flagged e.2 = true) ∧
      ∀ e ∈ p.results.entries, flagged e.2 = true →
      e.1 ∈ uncounted valueLessSenderJob.ctx.settings := by
  obtain ⟨p, hrun, -, hflagged⟩ := ended_valueLessSender
  obtain ⟨hcounted, -⟩ := found_iff_counted hrun
  refine ⟨p, hrun, hflagged, fun e he hflagged => ?_⟩
  by_contra hcount
  exact Bool.false_ne_true (hcounted.2 ⟨e, he, hflagged, hcount⟩)

/-- A warning is given, and the verdict is that nothing was found. -/
theorem underflow_uncounted : ∃ p, perform (run valueLessSenderJob) valueLessSenderJob.start =
    (.ok (some false), p) ∧ p.machine.shared.graph.instructions.isEmpty = false ∧
      ¬ (false = true ↔ ∃ e ∈ p.results.entries, flagged e.2 = true) := by
  obtain ⟨p, hrun, hsome, hflagged⟩ := ended_valueLessSender
  exact ⟨p, hrun, hsome, fun hiff => Bool.false_ne_true (hiff.2 hflagged)⟩

end EvmAudit.Audit
