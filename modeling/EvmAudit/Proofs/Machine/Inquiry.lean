import EvmAudit.Proofs.Machine.Scopes
import EvmAudit.Proofs.Term.Meaning

/-! What an inquiry comes to: an answer that depends on the assertions only, and the scopes it
leaves open when it fails. -/

namespace EvmAudit

def Satisfiable (fs : List Formula) : Prop := ∃ env, allHold env fs = true

theorem allHold_append {env : Assignment} {fs gs : List Formula} :
    allHold env (fs ++ gs) = (allHold env fs && allHold env gs) := by
  simp [allHold]

/-- What the solver finds is right, though it may find nothing, and simplified terms mean the
same. -/
structure Context.Sound (ctx : Context) : Prop where
  sat {fs : List Formula} {values : List (String × Word)} : ctx.decide fs = .sat values →
    Satisfiable fs
  unsat {fs : List Formula} : ctx.decide fs = .unsat → ¬ Satisfiable fs
  simplify : ctx.simplify.Sound

/-- The solver never gives up either. -/
structure Context.Exact (ctx : Context) : Prop extends ctx.Sound where
  decided (fs : List Formula) : ctx.decide fs ≠ .unknown

theorem Context.Sound.isUnsat {ctx : Context} (h : ctx.Sound) {fs : List Formula}
    (hfs : ctx.decide fs ≠ .unknown) : (ctx.decide fs).isUnsat = false ↔ Satisfiable fs := by
  cases hd : ctx.decide fs with
  | sat values => simpa [Verdict.isUnsat] using h.sat hd
  | unsat => simpa [Verdict.isUnsat] using h.unsat hd
  | unknown => exact absurd hd hfs

theorem Context.Exact.isUnsat {ctx : Context} (h : ctx.Exact) (fs : List Formula) :
    (ctx.decide fs).isUnsat = false ↔ Satisfiable fs :=
  h.toSound.isUnsat (h.decided fs)

namespace Exec

open Classical in
noncomputable def exactly (depthLimit : Int) : Context where
  settings := { depthLimit }
  decide fs := if Satisfiable fs then .sat [] else .unsat

theorem exact_exactly (depthLimit : Int) : (exactly depthLimit).Exact := by
  refine ⟨⟨fun {fs _} h => ?_, fun {fs} h => ?_, Simplifier.sound_default⟩, fun fs => ?_⟩ <;>
    by_cases hfs : Satisfiable fs <;> simp_all [exactly]

end Exec

def Machine.withSolver (m : Machine) (s : Solver) : Machine :=
  { m with shared := { m.shared with solver := s } }

@[simp] theorem Machine.solver_withSolver (m : Machine) (s : Solver) :
    (m.withSolver s).shared.solver = s := rfl

@[simp] theorem Machine.withSolver_withSolver (m : Machine) (s t : Solver) :
    (m.withSolver s).withSolver t = m.withSolver t := rfl

namespace Inquiry

variable {α : Type}

def close : Except Fault α × Nat → Except Fault α × Nat
  | (.ok a, n) => (.ok a, n)
  | (.error e, n) => (.error e, n + 1)

/-- The answer under some assertions, and how many scopes are left open. -/
def eval (decide : List Formula → Verdict) : List Formula → Inquiry α → Except Fault α × Nat
  | _, .answer result => (result, 0)
  | known, .ask question refuted possible =>
    match question with
    | .error e => (.error e, 1)
    | .ok f =>
      match decide (known ++ [f]) with
      | .unknown => (.error (.undecided "timeout"), 0)
      | .unsat => close (eval decide (known ++ [f]) refuted)
      | .sat _ => close (eval decide (known ++ [f]) possible)
  | known, .andThen first f =>
    match eval decide known first with
    | (.ok a, n) => (f a, n)
    | (.error e, n) => (.error e, n)

def left (ctx : Context) (i : Inquiry α) (s : Shared) : Nat :=
  (i.eval ctx.decide s.solver.assertions).2

theorem close_ok {r : Except Fault α × Nat} (h : ∀ a, r.1 = .ok a → r.2 = 0) :
    ∀ a, (close r).1 = .ok a → (close r).2 = 0 := by
  obtain ⟨_ | a, n⟩ := r
  · intro a ha
    cases ha
  · exact h

def Opens (m : Machine) (o : Except Fault α × Machine) (r : Except Fault α × Nat) : Prop :=
  ∃ inner s, inner.length = r.2 ∧ s.frames = inner ++ m.shared.solver.frames ∧
    o = (r.1, m.withSolver s)

end Inquiry

namespace Exec

variable {α : Type} (ctx : Context)
variable {m : Machine}

@[simp] theorem outcome_pushScope (m : Machine) :
    outcome pushScope m = (.ok (), m.withSolver m.shared.solver.push) := rfl

@[simp] theorem outcome_assert (f : Formula) (m : Machine) :
    outcome (assert f) m = (.ok (), m.withSolver (m.shared.solver.add f)) := rfl

theorem outcome_popScope {s : Solver} (h : m.shared.solver.pop? = some s) :
    outcome popScope m = (.ok (), m.withSolver s) := by
  rw [popScope, outcome_bind_getShared]
  simp only [h]
  rfl

theorem outcome_verdict (m : Machine) :
    outcome (verdict ctx) m =
      (.ok (ctx.decide m.shared.solver.assertions), m.withSolver { m.shared.solver with
        hasModel := (ctx.decide m.shared.solver.assertions).isSat }) := rfl

theorem outcome_isUnsat_unsat (h : ctx.decide m.shared.solver.assertions = .unsat) :
    ∃ s, s.frames = m.shared.solver.frames ∧
    outcome (isUnsat ctx) m = (.ok true, m.withSolver s) := by
  refine ⟨{ m.shared.solver with hasModel := false }, rfl, ?_⟩
  rw [isUnsat, outcome_bind, outcome_verdict, h]
  rfl

theorem outcome_isUnsat_sat {values : List (String × Word)}
    (h : ctx.decide m.shared.solver.assertions = .sat values) : ∃ s, s.frames =
      m.shared.solver.frames ∧ outcome (isUnsat ctx) m = (.ok false, m.withSolver s) := by
  refine ⟨{ m.shared.solver with hasModel := true }, rfl, ?_⟩
  rw [isUnsat, outcome_bind, outcome_verdict, h]
  rfl

theorem outcome_isUnsat_unknown {first second : List Formula} {outer : List (List Formula)}
    (h : ctx.decide m.shared.solver.assertions = .unknown)
    (hm : m.shared.solver.frames = first :: second :: outer) : ∃ s, s.frames = second :: outer ∧
    outcome (isUnsat ctx) m = (.error (.undecided "timeout"), m.withSolver s) := by
  obtain ⟨s, hs, hframes⟩ :=
    Solver.pop?_of_frames (s := { m.shared.solver with hasModel := false }) hm
  refine ⟨s, hframes, ?_⟩
  rw [isUnsat, outcome_bind, outcome_verdict, h]
  simp only [Verdict.isSat]
  change outcome (do popScope; throw (.undecided "timeout")) (m.withSolver _) = _
  rw [outcome_bind, outcome_popScope (m := m.withSolver _) hs]
  rfl

theorem opens_close {m₁ : Machine} {f : Formula} {x : Exec α} {r : Except Fault α × Nat}
    (hm : ∃ s, m₁ = m.withSolver s ∧ s.frames = [f] :: m.shared.solver.frames)
    (hx : Inquiry.Opens m₁ (x.outcome m₁) r) (hr : ∀ a, r.1 = .ok a → r.2 = 0) :
    Inquiry.Opens m ((do let v ← x; popScope; return v).outcome m₁) (Inquiry.close r) := by
  obtain ⟨s₁, rfl, hs₁⟩ := hm
  obtain ⟨inner, s, hlen, hs, hx⟩ := hx
  replace hs : s.frames = inner ++ [f] :: m.shared.solver.frames := hs.trans (by rw [← hs₁]; rfl)
  obtain ⟨_ | a, n⟩ := r
  · refine ⟨inner ++ [[f]], s, by simpa [Inquiry.close] using hlen, by simpa using hs, ?_⟩
    rw [outcome_bind, hx]
    rfl
  · obtain rfl : n = 0 := hr a rfl
    obtain rfl := List.length_eq_zero_iff.1 hlen
    obtain ⟨first, outer, hm⟩ := Solver.exists_frames m.shared.solver
    rw [List.nil_append, hm] at hs
    obtain ⟨t, ht, hframes⟩ := Solver.pop?_of_frames hs
    refine ⟨[], t, rfl, hframes.trans hm.symm, ?_⟩
    rw [outcome_bind, hx]
    simp only [Machine.withSolver_withSolver]
    rw [outcome_bind, outcome_popScope (m := m.withSolver s) ht]
    rfl

end Exec

namespace Inquiry

variable {α : Type} (ctx : Context)

theorem eval_ok (decide : List Formula → Verdict) (known : List Formula) (i : Inquiry α) :
    ∀ a, (i.eval decide known).1 = .ok a → (i.eval decide known).2 = 0 := by
  induction i generalizing known with
  | answer result => exact fun _ _ => rfl
  | ask question refuted possible ihr ihp =>
    cases question with
    | error e =>
      intro a ha
      cases ha
    | ok f =>
      rw [eval]
      cases decide (known ++ [f]) with
      | unknown =>
        intro a ha
        cases ha
      | unsat => exact close_ok (ihr _)
      | sat values => exact close_ok (ihp _)
  | andThen first f ih =>
    intro a ha
    rw [eval] at ha ⊢
    specialize ih known
    generalize eval decide known first = r at ha ih ⊢
    obtain ⟨_ | b, n⟩ := r
    · cases ha
    · exact ih b rfl

theorem opens_inquire (i : Inquiry α) (m : Machine) :
    Opens m ((Exec.inquire ctx i).outcome m) (i.eval ctx.decide m.shared.solver.assertions) := by
  induction i generalizing m with
  | answer result => exact ⟨[], m.shared.solver, rfl, rfl, rfl⟩
  | ask question refuted possible ihr ihp =>
    rw [Exec.inquire, Exec.outcome_bind, Exec.outcome_pushScope]
    cases question with
    | error e => exact ⟨[[]], m.shared.solver.push, rfl, rfl, rfl⟩
    | ok f =>
      obtain ⟨first, outer, hm⟩ := Solver.exists_frames m.shared.solver
      have hadd : (m.shared.solver.push.add f).frames = [f] :: m.shared.solver.frames :=
        Solver.frames_add f (Solver.frames_push _)
      have hknown : (m.shared.solver.push.add f).assertions = m.shared.solver.assertions ++
          [f] := by
        rw [Solver.assertions_add, Solver.assertions_push]
      have hadd' := hadd
      rw [hm] at hadd'
      simp only [Exec.outcome_bind, Exec.outcome_ofExcept, Exec.outcome_assert,
        Machine.solver_withSolver, Machine.withSolver_withSolver]
      rw [eval]
      cases hd : ctx.decide (m.shared.solver.assertions ++ [f]) with
      | unknown =>
        obtain ⟨s, hs, ho⟩ := Exec.outcome_isUnsat_unknown ctx
          (m := m.withSolver (m.shared.solver.push.add f)) (by rw [← hd, ← hknown]; rfl) hadd'
        rw [ho]
        exact ⟨[], s, rfl, hs.trans hm.symm, rfl⟩
      | unsat =>
        obtain ⟨s, hs, ho⟩ := Exec.outcome_isUnsat_unsat ctx
          (m := m.withSolver (m.shared.solver.push.add f)) (by rw [← hd, ← hknown]; rfl)
        rw [ho]
        have hs' : s.assertions = m.shared.solver.assertions ++ [f] :=
          (Solver.assertions_congr hs).trans hknown
        have := ihr (m.withSolver s)
        rw [Machine.solver_withSolver, hs'] at this
        exact Exec.opens_close ⟨s, rfl, hs.trans hadd⟩ this (eval_ok _ _ _)
      | sat values =>
        obtain ⟨s, hs, ho⟩ := Exec.outcome_isUnsat_sat ctx
          (m := m.withSolver (m.shared.solver.push.add f)) (by rw [← hd, ← hknown]; rfl)
        rw [ho]
        have hs' : s.assertions = m.shared.solver.assertions ++ [f] :=
          (Solver.assertions_congr hs).trans hknown
        have := ihp (m.withSolver s)
        rw [Machine.solver_withSolver, hs'] at this
        exact Exec.opens_close ⟨s, rfl, hs.trans hadd⟩ this (eval_ok _ _ _)
  | andThen first f ih =>
    obtain ⟨inner, s, hlen, hs, ho⟩ := ih m
    rw [Exec.inquire, Exec.outcome_bind, ho, eval]
    generalize eval ctx.decide m.shared.solver.assertions first = r at hlen ⊢
    obtain ⟨_ | a, n⟩ := r
    · exact ⟨inner, s, hlen, hs, rfl⟩
    · exact ⟨inner, s, hlen, hs, rfl⟩

end Inquiry

end EvmAudit
