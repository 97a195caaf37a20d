import EvmAudit.Audit.Detect
import EvmAudit.Proofs.Finding

/-! What a detector leaves: its finding, and under its name what the results say of it. -/

namespace EvmAudit.Audit

variable {α β : Type}
variable {name : String} {f : Finding} {x : Audit Unit} {place : Findings → Option Finding}
  {source : Option SourceMap}

theorem perform_bind (x : Audit α) (f : α → Audit β) (p : Progress) :
    perform (x >>= f) p =
      match perform x p with
      | (.ok a, p') => perform (f a) p'
      | (.error e, p') => (.error e, p') := by
  simp only [perform, ExceptT.run_bind, StateT.run_bind]
  rcases h : StateT.run (ExceptT.run x) p with ⟨_ | _, _⟩ <;> rfl

theorem perform_ofExcept (x : Except Fault α) (p : Progress) : perform (ofExcept x) p = (x, p) :=
  rfl

theorem perform_shared (p : Progress) : perform shared p = (.ok p.machine.shared, p) := rfl

def shown (source : Option SourceMap) (f : Finding) : Except Fault Document :=
  if source.isSome then f.document else .ok (.bool f.vulnerable)

theorem perform_enter {p : Progress} {d : Document} (h : shown p.source f = .ok d) :
    perform (enter name f) p = (.ok (), { p with results := p.results.insert name d }) := by
  unfold shown at h
  change perform (if p.source.isSome then do setResult name (← ofExcept f.document)
    else setResult name (.bool f.vulnerable)) p = _
  split at h
  next hs =>
    rw [if_pos hs, h]
    rfl
  next hs =>
    cases h
    rw [if_neg hs]
    rfl

/-- The detector ends with this finding. It has its place among the findings, and is shown under its
name among the results. -/
structure Reports (x : Audit Unit) (p : Progress) (name : String)
    (place : Findings → Option Finding) (f : Finding) : Prop where
  ends : (perform x p).1 = .ok ()
  finding : place (perform x p).2.findings = some f
  result : ∃ d, shown p.source f = .ok d ∧ (perform x p).2.results.get? name = some d

def Remarks (x : Audit Unit) : Prop := ∀ p, ∃ p', perform x p = (.ok (), p') ∧
  p'.source = p.source ∧ p'.findings = p.findings ∧ p'.results = p.results

theorem remarks_pure : Remarks (pure ()) := fun p => ⟨p, rfl, rfl, rfl, rfl⟩

theorem remarks_say (text : String) : Remarks (say text) := fun _ => ⟨_, rfl, rfl, rfl, rfl⟩

theorem remarks_writeFile (name content : String) : Remarks (writeFile name content) :=
  fun _ => ⟨_, rfl, rfl, rfl, rfl⟩

theorem Remarks.bind {y : Audit Unit} (hx : Remarks x) (hy : Remarks y) :
    Remarks (x >>= fun _ => y) := by
  intro p
  obtain ⟨p₁, h₁, hsource₁, hfindings₁, hresults₁⟩ := hx p
  obtain ⟨p₂, h₂, hsource₂, hfindings₂, hresults₂⟩ := hy p₁
  refine ⟨p₂, ?_, hsource₂.trans hsource₁, hfindings₂.trans hfindings₁, hresults₂.trans hresults₁⟩
  rw [perform_bind, h₁]
  exact h₂

theorem Remarks.ite (c : Prop) [Decidable c] (hx : Remarks x) :
    Remarks (if c then x else pure ()) := by
  split
  · exact hx
  · exact remarks_pure

theorem remarks_sayPaths (p : Printer) (paths : List (List Condition × Nat)) :
    Remarks (sayPaths p paths) := by
  induction paths with
  | nil => exact remarks_pure
  | cons path rest ih => exact (remarks_say _).bind ih

theorem reports_entered {p : Progress} {d : Document} {change : Findings → Findings}
    {remark : Audit Unit} (hd : shown p.source f = .ok d)
    (hchange : ∀ fs, place (change fs) = some f) (hremark : Remarks remark) :
    Reports (do modifyFindings change; enter name f; remark) p name place f := by
  let p₁ : Progress := { p with findings := change p.findings }
  obtain ⟨p₂, h₂, -, hfindings, hresults⟩ := hremark { p₁ with results := p₁.results.insert name d }
  have hall : perform (do modifyFindings change; enter name f; remark) p = (.ok (), p₂) := by
    rw [perform_bind]
    change perform (do enter name f; remark) p₁ = _
    rw [perform_bind, perform_enter (show shown p₁.source f = .ok d from hd)]
    exact h₂
  refine ⟨?_, ?_, d, hd, ?_⟩
  · rw [hall]
  · rw [hall, hfindings]
    exact hchange p.findings
  · rw [hall, hresults]
    exact Table.get?_insert_self _ _ _

/-- The detector reports the finding if there is an answer, and else fails with the same fault. -/
def Settles (x : Audit Unit) (p : Progress) (name : String) (place : Findings → Option Finding)
    (answer : Except Fault Finding) : Prop :=
  match answer with
  | .ok f => Reports x p name place f
  | .error e => (perform x p).1 = .error e

theorem settles_entered {p p' : Progress} {answer : Except Fault Finding}
    {change : Finding → Findings → Findings} {remark : Finding → Audit Unit}
    (hx : perform x p = perform (do
      let f ← ofExcept answer
      modifyFindings (change f)
      enter name f
      remark f) p') (hsource : p'.source = p.source)
    (hshown : ∀ f, answer = .ok f → ∃ d, shown p.source f = .ok d)
    (hchange : ∀ f fs, place (change f fs) = some f) (hremark : ∀ f, Remarks (remark f)) :
    Settles x p name place answer := by
  rw [perform_bind, perform_ofExcept] at hx
  cases answer with
  | error e => exact congrArg Prod.fst hx
  | ok f =>
    obtain ⟨d, hd⟩ := hshown f rfl
    have hreports : Reports _ p' name place f :=
      reports_entered (by rwa [hsource]) (hchange f) (hremark f)
    exact ⟨hx ▸ hreports.ends, hx ▸ hreports.finding, hx ▸ hsource ▸ hreports.result⟩

/-! ### Findings -/

theorem shown_concurrency {places : List (List Int)}
    (h : Finding.concurrency source places = .ok f) : f.vulnerable = !places.isEmpty ∧
    ∃ d, shown source f = .ok d := by
  cases source with
  | none =>
    cases h
    exact ⟨rfl, _, rfl⟩
  | some m =>
    obtain ⟨texts, -, htexts⟩ := bind_eq_ok.1 h
    cases htexts
    exact ⟨rfl, _, rfl⟩

def Visible (source : Option SourceMap) (r : Int) : Prop :=
  ∀ m ∈ source, ∃ text, m.sourceCode r = .ok text ∧ text ≠ ""

theorem visible_some {m : SourceMap} {r : Int} : Visible (some m) r ↔ Finding.HasText m r := by
  simp [Visible, Finding.HasText]

theorem distinctPlaces_ne_nil {m : SourceMap} {pcs rs : List Int}
    (h : Finding.distinctPlaces m pcs = .ok rs) : rs ≠ [] ↔ ∃ r ∈ pcs, Visible (some m) r := by
  have hfirst := Finding.firstOfEach h
  constructor
  · intro hne
    obtain ⟨r, hr⟩ := List.exists_mem_of_ne_nil rs hne
    exact ⟨r, hfirst.sublist.subset hr, visible_some.2 (hfirst.first r hr).1⟩
  · rintro ⟨r, hr, hvisible⟩
    obtain ⟨p, hp, -⟩ := hfirst.covers r hr (visible_some.1 hvisible)
    exact List.ne_nil_of_mem hp

theorem shown_atPcs {title : Option String} {pcs : List Int}
    (h : Finding.atPcs source title pcs = .ok f) :
    (f.vulnerable = true ↔ ∃ r ∈ pcs, Visible source r) ∧ ∃ d, shown source f = .ok d := by
  cases source with
  | none =>
    cases h
    refine ⟨?_, _, rfl⟩
    rw [Bool.not_eq_true', List.isEmpty_eq_false_iff_exists_mem]
    simp [Visible]
  | some m =>
    obtain ⟨rs, hrs, h⟩ := bind_eq_ok.1 h
    obtain ⟨texts, -, h⟩ := bind_eq_ok.1 h
    cases h
    refine ⟨?_, _, rfl⟩
    rw [← distinctPlaces_ne_nil hrs]
    simp

end EvmAudit.Audit
