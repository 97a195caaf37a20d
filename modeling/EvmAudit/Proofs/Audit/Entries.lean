import EvmAudit.Audit.Run
import EvmAudit.Proofs.Audit.Reports
import EvmAudit.Proofs.Machine.Outcome

/-! What the steps of an audit leave as it is, and what a detector that succeeds enters: its
finding, and under its name a result that says whether something was found. -/

namespace EvmAudit.Audit

variable {α β γ : Type}
variable {pcs rs : List Int} {x : Audit α} {f : Finding} {texts : List String} {m : SourceMap}
  {title : Option String} {source : Option SourceMap} {change : Finding → Findings → Findings}

/-! ### What is left as it is -/

def Spares (q : Progress → γ) (x : Audit α) : Prop := ∀ p, q (perform x p).2 = q p

variable {q : Progress → γ}

theorem perform_pure (a : α) (p : Progress) : perform (pure a) p = (.ok a, p) := rfl

theorem perform_get (p : Progress) : perform get p = (.ok p, p) := rfl

theorem perform_bind_eq_ok {f : α → Audit β} {p p' : Progress} {b : β} :
    perform (x >>= f) p = (.ok b, p') ↔ ∃ a p₁, perform x p = (.ok a, p₁) ∧
    perform (f a) p₁ = (.ok b, p') := by
  rw [perform_bind]
  rcases perform x p with ⟨e | a, p₁⟩
  · simp
  · simp

theorem perform_tryCatch (x : Audit α) (f : Fault → Audit α) (p : Progress) :
    perform (tryCatch x f) p =
      match perform x p with
      | (.ok a, p') => (.ok a, p')
      | (.error e, p') => perform (f e) p' := by
  change (ExceptT.tryCatch x f).run.run p = _
  simp only [perform, ExceptT.tryCatch, ExceptT.run_mk, StateT.run_bind]
  change (StateT.run (ExceptT.run x) p >>= _) = _
  rcases h : StateT.run (ExceptT.run x) p with ⟨_ | _, _⟩ <;> rfl

theorem spares_pure (a : α) : Spares q (pure a : Audit α) := fun _ => rfl

theorem spares_throw (e : Fault) : Spares q (throw e : Audit α) := fun _ => rfl

theorem spares_ofExcept (x : Except Fault α) : Spares q (ofExcept x) := fun _ => rfl

theorem spares_get : Spares q (get : Audit Progress) := fun _ => rfl

theorem spares_shared : Spares q shared := fun _ => rfl

theorem spares_modify {f : Progress → Progress} (h : ∀ p, q (f p) = q p) :
    Spares q (modify f : Audit Unit) := h

theorem spares_exec (h : ∀ p machine, q { p with machine } = q p) (x : Exec α) :
    Spares q (exec x) :=
  fun p => h p _

theorem spares_rest {f : α → Audit β} (hf : ∀ a, Spares q (f a)) (x : Audit α) (p : Progress) :
    q (perform (x >>= f) p).2 = q (perform x p).2 := by
  rw [perform_bind]
  generalize perform x p = o
  obtain ⟨e | a, p₁⟩ := o
  · rfl
  · exact hf a p₁

theorem Spares.bind {f : α → Audit β} (hx : Spares q x) (hf : ∀ a, Spares q (f a)) :
    Spares q (x >>= f) := fun p => (spares_rest hf x p).trans (hx p)

theorem spares_ite {c : Prop} [Decidable c] {y : Audit α} (hx : Spares q x) (hy : Spares q y) :
    Spares q (if c then x else y) := by
  split
  · exact hx
  · exact hy

theorem Spares.tryCatch {f : Fault → Audit α} (hx : Spares q x) (hf : ∀ e, Spares q (f e)) :
    Spares q (tryCatch x f) := by
  intro p
  have hfirst := hx p
  rw [perform_tryCatch]
  generalize perform x p = o at hfirst ⊢
  obtain ⟨e | a, p₁⟩ := o
  · exact (hf e p₁).trans hfirst
  · exact hfirst

def reported (p : Progress) : String × Table String Document × Findings × Bool :=
  (p.coverage, p.results, p.findings, p.source.isSome)

def kept (p : Progress) : (String × Table String Document × Findings × Bool) × Option SourceMap :=
  (reported p, p.source)

theorem Spares.reports (h : Spares kept x) : Spares reported x :=
  fun p => congrArg Prod.fst (h p)

theorem spares_say (text : String) : Spares kept (say text) := spares_exec (fun _ _ => rfl) _

theorem spares_writeFile (name content : String) : Spares kept (writeFile name content) :=
  spares_modify fun _ => rfl

theorem spares_prepare (job : Job) : Spares reported (prepare job) :=
  spares_ite ((spares_throw _).bind fun _ => spares_ite (spares_writeFile _ _).reports
    (spares_pure ())) (spares_ite (spares_writeFile _ _).reports (spares_pure ()))

theorem spares_build (items : Option (List (Option SourceItem))) :
    Spares reported (build items) := by
  refine spares_get.bind fun p => (spares_modify fun p => ?_).bind fun _ =>
    (spares_exec (fun _ _ => rfl) _).bind fun _ => ?_
  · cases hsource : p.source with
    | none => simp [reported, hsource]
    | some m => simp [reported, hsource]
  · split
    · exact spares_throw _
    · exact spares_pure ()

theorem spares_explore (job : Job) : Spares reported (explore job) :=
  (spares_prepare job).bind fun _ => spares_get.bind fun _ => (spares_build _).bind fun _ =>
    spares_get.bind fun _ => spares_exec (fun _ _ => rfl) _

theorem spares_exploreInTime (job : Job) {late : Audit Unit} (h : Spares reported late) :
    Spares reported (exploreInTime job late) := by
  refine (spares_explore job).tryCatch fun cause => ?_
  split
  · exact (spares_exec (fun _ _ => rfl) _).bind fun _ => h
  · exact spares_throw _

theorem spares_finish (job : Job) : Spares reported (finish job) :=
  (spares_say _).reports.bind fun _ => spares_ite
    (spares_get.bind fun _ => (spares_writeFile _ _).reports.bind fun _ => (spares_say _).reports)
    (spares_pure ())

theorem spares_found (f : Option Finding) : Spares q (found f) := by
  cases f with
  | none => exact spares_throw _
  | some f => exact spares_pure f

theorem spares_mapM {f : α → Audit β} (hf : ∀ a, Spares q (f a)) (xs : List α) :
    Spares q (xs.mapM f) := by
  induction xs with
  | nil => exact spares_pure []
  | cons x xs ih =>
    rw [List.mapM_cons]
    exact (hf x).bind fun _ => ih.bind fun _ => spares_pure _

theorem spares_anyFound (ctx : Context) : Spares q (anyFound ctx) :=
  spares_get.bind fun _ => (spares_mapM spares_found _).bind fun _ =>
    spares_ite ((spares_mapM spares_found _).bind fun _ => spares_pure _)
      ((spares_pure []).bind fun _ => spares_pure _)

theorem spares_sayFindings (fs : List Finding) : Spares reported (sayFindings fs) := by
  induction fs with
  | nil => exact spares_pure ()
  | cons f fs ih =>
    exact (spares_ofExcept _).bind fun _ => spares_ite ((spares_say _).reports.bind fun _ => ih) ih

theorem spares_sayWarnings (ctx : Context) : Spares reported (sayWarnings ctx) := by
  have hall (fs gs : List Finding) : Spares reported (do
      let more ← pure gs
      sayFindings (fs ++ more)) := (spares_pure gs).bind fun _ => spares_sayFindings _
  exact spares_get.bind fun _ => (spares_mapM spares_found _).bind fun first =>
    spares_ite ((spares_found _).bind fun d =>
      spares_ite ((spares_found _).bind fun _ => hall first _) (hall first [d])) (hall first [])

/-! ### Results that say what was found -/

def flagged : Document → Bool
  | .bool b => b
  | .array items => !items.isEmpty
  | _ => false

@[simp] theorem flagged_nothing : flagged (.array []) = false := rfl

def Told (f : Finding) : Prop := ∀ d, f.document = .ok d → flagged d = f.vulnerable

theorem told_warnings {vulnerable : Bool} (pcs : List Int) (h : vulnerable = !texts.isEmpty) :
    Told ⟨vulnerable, .warnings texts, pcs⟩ := by
  rintro d ⟨⟩
  rw [h, flagged, List.isEmpty_map]

theorem told_warningsAt (pcs : List Int) (h : Finding.warningsAt m title rs = .ok texts)
    (hrs : ∀ r ∈ rs, Finding.HasText m r) : Told ⟨!rs.isEmpty, .warnings texts, pcs⟩ := by
  rw [Finding.warningsAt_of_hasText hrs] at h
  exact told_warnings pcs (by rw [Finding.isEmpty_mapM h])

theorem told_atPcs (h : Finding.atPcs source title pcs = .ok f) : Told f := by
  cases source with
  | none =>
    cases h
    rintro d ⟨⟩
  | some m =>
    obtain ⟨rs, hrs, h⟩ := bind_eq_ok.1 h
    obtain ⟨texts, htexts, h⟩ := bind_eq_ok.1 h
    cases h
    exact told_warningsAt _ htexts fun r hr => ((Finding.firstOfEach hrs).first r hr).1

theorem told_callstack {affected : Table Int Bool}
    (h : Finding.callstack source pcs affected = .ok f) : Told f := by
  cases source with
  | none =>
    cases h
    rintro d ⟨⟩
  | some m =>
    obtain ⟨rs, hrs, h⟩ := bind_eq_ok.1 h
    obtain ⟨texts, htexts, h⟩ := bind_eq_ok.1 h
    cases h
    exact told_warningsAt _ htexts fun r hr =>
      ((Finding.firstOfEach hrs).first r (List.mem_of_mem_filter hr)).1

theorem told_concurrency {flows : List (List Int)} (h : Finding.concurrency source flows = .ok f) :
    Told f := by
  cases source with
  | none =>
    cases h
    rintro d ⟨⟩
  | some m =>
    obtain ⟨texts, htexts, h⟩ := bind_eq_ok.1 h
    cases h
    rintro d ⟨⟩
    rw [flagged, List.isEmpty_map, Finding.isEmpty_mapM htexts]

theorem told_failures {title : String} {fs : List Failure}
    (h : Finding.failures source title fs = .ok f) : Told f := by
  cases source with
  | none =>
    cases fs with
    | nil =>
      cases h
      exact told_warnings _ rfl
    | cons failure fs => cases h
  | some m =>
    obtain ⟨distinct, -, h⟩ := bind_eq_ok.1 h
    obtain ⟨texts, htexts, h⟩ := bind_eq_ok.1 h
    cases h
    exact told_warnings _ (by rw [Finding.isEmpty_mapM htexts])

theorem told_destructibleCallees {listing? : String → Option String}
    (h : Finding.destructibleCallees m listing? = .ok f) : Told f := by
  obtain ⟨callees, -, h⟩ := bind_eq_ok.1 h
  obtain ⟨texts, htexts, h⟩ := bind_eq_ok.1 h
  cases h
  exact told_warnings _ (by rw [Finding.isEmpty_mapM htexts])

/-! ### What detectors enter -/

structure Judgement where
  finding : Finding
  result : Document
  agrees : flagged result = finding.vulnerable

attribute [simp] Judgement.agrees

/-- The detector leaves the share and the source map as they are. If it succeeds, its finding has a
place among the findings, and what is said of it stands under its name among the results. -/
structure Enters (x : Audit Unit) (name : String) (change : Finding → Findings → Findings) :
    Prop where
  spares : Spares (fun p => (p.coverage, p.source)) x
  enters {p p' : Progress} (h : perform x p = (.ok (), p')) : ∃ j : Judgement,
    p'.findings = change j.finding p.findings ∧ p'.results = p.results.insert name j.result

structure Shows (put : Finding → Audit Unit) (name : String) : Prop where
  spares (f : Finding) : Spares (fun p => (p.coverage, p.source, p.findings)) (put f)
  shows {f : Finding} {p p' : Progress} (hf : Told f) (h : perform (put f) p = (.ok (), p')) :
    ∃ d, flagged d = f.vulnerable ∧ p'.results = p.results.insert name d

theorem of_kept {p p' : Progress} (h : kept p' = kept p) :
    p'.results = p.results ∧ p'.findings = p.findings := by
  simp only [kept, reported, Prod.mk.injEq] at h
  exact ⟨h.1.2.1, h.1.2.2.1⟩

theorem Spares.share (h : Spares kept x) : Spares (fun p => (p.coverage, p.source)) x :=
  fun p => congrArg (fun k => (k.1.1, k.2)) (h p)

theorem enters_answer {name : String} {change : Finding → Findings → Findings}
    {answer : Except Fault Finding} {put remark : Finding → Audit Unit}
    (htold : ∀ f, answer = .ok f → Told f) (hput : Shows put name)
    (hremark : ∀ f, Spares kept (remark f)) : Enters (do
      let f ← ofExcept answer
      modifyFindings (change f)
      put f
      remark f) name change where
  spares := by
    refine (spares_ofExcept answer).bind fun f => Spares.bind (spares_modify fun _ => rfl) fun _ =>
      Spares.bind (fun p => ?_) fun _ => (hremark f).share
    exact congrArg (fun k => (k.1, k.2.1)) (hput.spares f p)
  enters {p p'} h := by
    obtain ⟨f, p₁, hf, hrest⟩ := perform_bind_eq_ok.1 h
    obtain ⟨hanswer, rfl⟩ := Prod.mk.inj hf
    obtain ⟨_, p₂, hchange, hput₁⟩ := perform_bind_eq_ok.1 hrest
    obtain ⟨_, p₃, hentered, hlast⟩ := perform_bind_eq_ok.1 hput₁
    have hfindings₂ : p₂ = { p with findings := change f p.findings } :=
      (Prod.mk.inj hchange).2.symm
    have hsaid := hremark f p₃
    have hspared := hput.spares f p₂
    rw [hlast] at hsaid
    rw [hentered] at hspared
    obtain ⟨hresults, hfindings⟩ := of_kept hsaid
    obtain ⟨d, hd, hshown⟩ := hput.shows (htold f hanswer) hentered
    refine ⟨⟨f, d, hd⟩, ?_, ?_⟩
    · rw [hfindings, (Prod.mk.inj (Prod.mk.inj hspared).2).2, hfindings₂]
    · rw [hresults, hshown, hfindings₂]

theorem Enters.after {name : String} {change : Finding → Findings → Findings} {x : Audit α}
    {f : α → Audit Unit} (hx : Spares kept x) (hf : ∀ a, Enters (f a) name change) :
    Enters (x >>= f) name change where
  spares := hx.share.bind fun a => (hf a).spares
  enters {p p'} h := by
    obtain ⟨a, p₁, ha, h⟩ := perform_bind_eq_ok.1 h
    have hkept := hx p
    rw [ha] at hkept
    obtain ⟨hresults, hfindings⟩ := of_kept hkept
    obtain ⟨j, hplace, hresult⟩ := (hf a).enters h
    exact ⟨j, hfindings ▸ hplace, hresults ▸ hresult⟩

theorem enters_ite {name : String} {c : Prop} [Decidable c] {x y : Audit Unit}
    (hx : Enters x name change) (hy : Enters y name change) :
    Enters (if c then x else y) name change := by
  split
  · exact hx
  · exact hy

theorem shows_document (name : String) :
    Shows (fun f => do setResult name (← ofExcept f.document)) name where
  spares f := (spares_ofExcept _).bind fun _ => spares_modify fun _ => rfl
  shows {f p p'} hf h := by
    obtain ⟨d, p₁, hd, h⟩ := perform_bind_eq_ok.1 h
    obtain ⟨hd, hp₁⟩ := Prod.mk.inj hd
    cases h
    exact ⟨d, hf d hd, by rw [← hp₁]⟩

theorem enters_document {name : String} {answer : Except Fault Finding}
    {remark : Finding → Audit Unit} (htold : ∀ f, answer = .ok f → Told f)
    (hremark : ∀ f, Spares kept (remark f)) : Enters (do
      let f ← ofExcept answer
      modifyFindings (change f)
      setResult name (← ofExcept f.document)
      remark f) name change := by
  have hall := @enters_answer name change answer _ remark htold (shows_document name) hremark
  simp only [bind_assoc] at hall
  exact hall

theorem shows_enter (name : String) : Shows (enter name) name where
  spares f := spares_get.bind fun _ =>
    spares_ite ((shows_document name).spares f) (spares_modify fun _ => rfl)
  shows {f p p'} hf h := by
    obtain ⟨_, p₁, hp₁, h⟩ := perform_bind_eq_ok.1 h
    cases hp₁
    split at h
    · exact (shows_document name).shows hf h
    · cases h
      exact ⟨.bool f.vulnerable, rfl, rfl⟩

theorem enters_detectUnderflow :
    Enters detectUnderflow "integer_underflow" fun f fs => { fs with underflow := some f } :=
  .after spares_shared fun _ => .after spares_get fun _ =>
    enters_answer (fun _ => told_failures) (shows_enter _) fun _ => spares_say _

theorem enters_detectOverflow :
    Enters detectOverflow "integer_overflow" fun f fs => { fs with overflow := some f } :=
  .after spares_shared fun _ => .after spares_get fun _ =>
    enters_answer (fun _ => told_failures) (shows_enter _) fun _ => spares_say _

theorem enters_detectDestructible (job : Job) :
    Enters (detectDestructible job) "parity_multisig_bug_2" fun f fs =>
      { fs with destructible := some f } := by
  refine .after spares_get fun p => ?_
  cases p.source with
  | none => exact ⟨spares_throw _, fun h => (by cases h)⟩
  | some m => exact enters_document (fun _ => told_destructibleCallees) fun _ => spares_say _

theorem enters_detectCallstack :
    Enters detectCallstack "callstack" fun f fs => { fs with callstack := some f } :=
  .after spares_get fun _ => .after (spares_ofExcept _) fun _ =>
    enters_answer (fun _ => told_callstack) (shows_enter _) fun _ => spares_say _

theorem enters_detectConcurrency (ctx : Context) :
    Enters (detectConcurrency ctx) "money_concurrency" fun f fs =>
      { fs with concurrency := some f } := by
  refine .after spares_shared fun s => .after (spares_ofExcept _) fun _ =>
    .after (spares_ofExcept _) fun race => .after (spares_ofExcept _) fun flows => ?_
  have hrest : Enters (do
      let p ← get
      let f ← ofExcept (Finding.concurrency p.source flows)
      modifyFindings ({ · with concurrency := some f })
      enter "money_concurrency" f
      say ("\t  Transaction-Ordering Dependence (TOD): " ++ truthText f.vulnerable))
      "money_concurrency"
      fun f fs => { fs with concurrency := some f } :=
    .after spares_get fun _ => enters_answer (fun _ => told_concurrency) (shows_enter _) fun _ =>
    spares_say _
  cases race with
  | none => exact hrest
  | some race =>
    exact enters_ite (.after (spares_ofExcept _) fun alarm =>
      enters_ite (.after (spares_ofExcept _) fun _ => hrest) hrest) hrest

theorem spares_sayPaths (p : Printer) (paths : List (List Condition × Nat)) :
    Spares kept (sayPaths p paths) := by
  induction paths with
  | nil => exact spares_pure ()
  | cons path rest ih => exact (spares_say _).bind fun _ => ih

theorem enters_detectTimeDependency (job : Job) :
    Enters (detectTimeDependency job) "time_dependency" fun f fs =>
      { fs with timeDependency := some f } := by
  refine .after spares_shared fun s => ?_
  have hrest : Enters (do
      let pcs ← ofExcept (timePlaces job.ctx.print s)
      let p ← get
      let f ← ofExcept (Finding.timeDependency p.source pcs)
      modifyFindings ({ · with timeDependency := some f })
      enter "time_dependency" f
      say ("\t  Timestamp Dependency: \t\t " ++ truthText f.vulnerable)
      if on job.ctx.settings.reportMode then
        writeFile (stem job.name ++ ".report") (if pcs.isEmpty then "no\n" else "yes\n"))
        "time_dependency"
      fun f fs => { fs with timeDependency := some f } :=
    .after (spares_ofExcept _) fun _ => .after spares_get fun _ =>
      enters_answer (fun _ => told_atPcs) (shows_enter _) fun _ =>
        (spares_say _).bind fun _ => spares_ite (spares_writeFile _ _) (spares_pure ())
  exact enters_ite (.after (spares_say _) fun _ => .after (spares_sayPaths _ _) fun _ => hrest)
    hrest

theorem enters_detectReentrancy :
    Enters detectReentrancy "reentrancy" fun f fs => { fs with reentrancy := some f } :=
  .after spares_get fun _ => .after spares_shared fun _ =>
    enters_answer (fun _ => told_atPcs) (shows_enter _) fun _ => spares_say _

theorem enters_detectAssertion :
    Enters detectAssertion "assertion_failure" fun f fs => { fs with assertion := some f } :=
  .after spares_shared fun _ => .after spares_get fun _ =>
    enters_document (fun _ => told_failures) fun _ => spares_say _

/-! ### The order of the detectors -/

def lastDetectors (job : Job) (withSource : Bool) : Audit Unit := do
  detectReentrancy
  if on job.ctx.settings.checkAssertions then
    if withSource then detectAssertion else throw .assertionsNeedSourceMap
  if withSource then sayWarnings job.ctx

def plainDetectors (job : Job) (withSource : Bool) : Audit Unit := do
  detectCallstack
  detectConcurrency job.ctx
  detectTimeDependency job
  if on job.ctx.settings.reportMode then throw .unboundName
  lastDetectors job withSource

def detectors (job : Job) (withSource : Bool) : Audit Unit := do
  if withSource then
    detectUnderflow
    detectOverflow
    detectDestructible job
  plainDetectors job withSource

theorem perform_detectAll (job : Job) (p : Progress) :
    ∃ machine, perform (detectAll job) p = perform (detectors job p.source.isSome) { p with
      machine
      coverage := coverageText p.machine.shared.visitedPcs.length
        p.machine.shared.graph.instructions.size } :=
  ⟨_, rfl⟩

def report (job : Job) : Audit (Option Bool) := do
  if (← shared).graph.instructions.isEmpty then sayNothing job.ctx.settings else detectAll job
  let found ← anyFound job.ctx
  finish job
  return some found

theorem run_eq (job : Job) : run job = (if job.ctx.settings.unitTest ≠ 0 then do
    runTest job
    return none
  else do
    say "\t============ Results ==========="
    exploreInTime job (pure ())
    report job) := rfl

theorem run_cases (job : Job) (p : Progress) :
    (reported (perform (run job) p).2 = reported p ∧ ∀ found,
      (perform (run job) p).1 ≠ .ok (some found)) ∨ ∃ log p', perform (exploreInTime job (pure ()))
          { p with machine := { p.machine with shared := { p.machine.shared with log } } } =
            (.ok (), p') ∧
        reported p' = reported p ∧ perform (run job) p = perform (report job) p' := by
  rw [run_eq]
  split
  · have hspares : Spares reported (do runTest job; return none : Audit (Option Bool)) :=
      (spares_exploreInTime job (spares_throw _)).bind fun _ => spares_pure none
    refine .inl ⟨hspares p, fun found h => ?_⟩
    rw [perform_bind] at h
    split at h <;> cases h
  · let log : List LogLine := ⟨.info, "\t============ Results ==========="⟩ :: p.machine.shared.log
    let p₁ : Progress :=
      { p with machine := { p.machine with shared := { p.machine.shared with log } } }
    have hsay : perform (say "\t============ Results ===========") p = (.ok (), p₁) := rfl
    have hspares := spares_exploreInTime job (spares_pure ()) p₁
    rw [perform_bind, hsay]
    dsimp only
    rw [perform_bind]
    rcases hexplore : perform (exploreInTime job (pure ())) p₁ with ⟨e | u, p₂⟩ <;>
      rw [hexplore] at hspares
    · exact .inl ⟨hspares, fun found h => by cases h⟩
    · exact .inr ⟨log, p₂, hexplore, hspares, rfl⟩

end EvmAudit.Audit
