import EvmAudit.Proofs.Audit.Entries
import EvmAudit.Proofs.Graph.Written

/-! Runs on a listing that has been read. A run depends on the text of its listing only through the
graph that is built from it. -/

namespace EvmAudit.Audit

def take (b : Build) : Audit Unit := do
  modify fun p =>
    { p with
      listing := b.text.getD p.listing
      source := p.source.map fun m =>
        { m with items := b.items.entries.foldl (fun t (k, v) => t.insert k v) m.items } }
  exec (Exec.modifyShared fun s => { s with graph := b.graph, log := b.log.reverse ++ s.log })
  if let some cause := b.cause then throw cause

def exploreBuilt (job : Job) (b : Build) : Audit Unit := do
  prepare job
  take b
  let p ← get
  exec (Exec.exploreAll
    { job.ctx with
      source := p.source
      tracksSize := job.ctx.tracksSize || mentionsSize job.listing })

theorem perform_build (items : Option (List (Option SourceItem))) (p : Progress) :
    perform (build items) p = perform (take (Build.ofListing items p.listing)) p := rfl

theorem prepare_cases (job : Job) (p : Progress) :
    perform (prepare job) p = (.error .unsupportedOperand, p) ∨
      ∃ written, perform (prepare job) p = (.ok (), { p with written }) := by
  unfold prepare
  dsimp only
  by_cases hpublic : on job.ctx.settings.useGlobalBlockchain = true
  · rw [if_pos hpublic]
    exact .inl rfl
  · rw [if_neg hpublic]
    split
    · exact .inr ⟨_, rfl⟩
    · exact .inr ⟨_, rfl⟩

theorem perform_explore (job : Job) (p : Progress) :
    perform (explore job) p = perform
      (exploreBuilt job (Build.ofListing (p.source.map SourceMap.positions) p.listing)) p := by
  rw [explore, exploreBuilt, perform_bind, perform_bind]
  rcases prepare_cases job p with h | ⟨written, h⟩ <;> rw [h]
  dsimp only
  rw [perform_bind, perform_get]
  dsimp only
  rw [perform_bind, perform_build, perform_bind]

def inTime (x : Audit Unit) : Audit Unit :=
  tryCatch x fun cause => do
    match cause with
    | .deadline => exec (Exec.modifyShared fun s => { s with timedOut := true })
    | cause => throw cause

theorem exploreInTime_eq (job : Job) : exploreInTime job (pure ()) = inTime (explore job) := rfl

def runBuilt (job : Job) (b : Build) : Audit (Option Bool) := do
  say "\t============ Results ==========="
  inTime (exploreBuilt job b)
  report job

theorem perform_run {job : Job} (htest : job.ctx.settings.unitTest = 0) :
    perform (run job) job.start =
    perform (runBuilt job (Build.ofListing (job.ctx.source.map SourceMap.positions) job.listing))
      job.start := by
  rw [run_eq, if_neg (not_not_intro htest), runBuilt, perform_bind, perform_bind]
  rcases hsay : perform (say "\t============ Results ===========") job.start with ⟨e | u, p⟩
  · rfl
  · cases hsay
    dsimp only
    rw [exploreInTime_eq, perform_bind, perform_bind, inTime, inTime, perform_tryCatch,
      perform_tryCatch, perform_explore]
    rfl

end EvmAudit.Audit
