import EvmAudit.Proofs.Explore.Moments

/-! What lasts in an exploration. What instructions keep, and what nothing else that happens between
them changes, holds from any moment on until the exploration is over. -/

namespace EvmAudit.Exec

variable {ctx : Context} {entries : Table Int String} {root : Call} {P : Machine → Prop}

/-- What holds of a state is kept by every instruction that is executed below a call, by the record
at the end of every block, and by all that happens between blocks. -/
structure Maintains (ctx : Context) (entries : Table Int String) (root : Call)
    (P : Machine → Prop) : Prop where
  traced {c : Call} {site : Site} {text : String} {m : Machine}
    (hreach : Relation.ReflTransGen (Next ctx entries) root c)
    (hruns : Runs ctx entries c.visit c.machine site text m) (hm : P m) :
    P ((traced ctx site text).outcome m).2
  record {c : Call} {m : Machine} (hreach : Relation.ReflTransGen (Next ctx entries) root c)
    (hcompletes : Completes ctx entries c m) (hm : P m) : P (record.outcome m).2
  entered {m : Machine} (v : Visit) (hm : P m) : P ((enter ctx entries v).outcome m).2
  onward {m : Machine} (previous : Int) (site : Site) (last : Bool) (hm : P m) :
    P ((onward ctx previous site last).outcome m).2
  withPath (m : Machine) (s : Solver) (p : Path) (hm : P m) : P { m.withSolver s with path := p }
  withEdges (m : Machine) (counts : Table (Int × Int) Int) (hm : P m) :
    P { m with shared := { m.shared with visitedEdges := counts } }

abbrev travel : List Part := [.stack, .pc, .words, .bytes, .calls, .overflowPcs, .fees, .analysis,
  .hashes, .balance, .storage, .activeWords, .transaction, .conditions, .vars, .solver, .edges,
  .records]

theorem maintains_of_alike (traced : ∀ {c site text m}, Reaches ctx entries root c →
      Runs ctx entries c.visit c.machine site text m → P m → P ((traced ctx site text).outcome m).2)
    (record : ∀ {m}, P m → P (record.outcome m).2)
    (alike : ∀ {m m' : Machine}, m.AlikeBut travel m' → P m → P m') :
    Maintains ctx entries root P where
  traced := traced
  record _ _ hm := record hm
  entered v hm := alike ((touches_enter entries v _).mono (by decide)) hm
  onward previous site last hm := alike ((touches_onward previous site last _).mono (by decide)) hm
  withPath m s p hm :=
    alike (fun part hpart => by cases part <;> first | rfl | exact absurd (by decide) hpart) hm
  withEdges m counts hm :=
    alike (fun part hpart => by cases part <;> first | rfl | exact absurd (by decide) hpart) hm

namespace Maintains

variable {m : Machine} {c d : Call} {site : Site} {text : String} {cond : Condition}
variable (h : Maintains ctx entries root P)

include h

theorem approached (parent : Path) (cond : Condition) (target : Except Fault Int) (hm : P m) :
    P ((approach ctx parent cond target).outcome m).2 := by
  obtain ⟨s, p, happroach⟩ := @approach_end ctx parent cond target m
  rw [happroach]
  exact h.withPath m s p hm

theorem closed {parent : Path} {target : Except Fault Int} (continue_ : Int → Exec Unit)
    {m' : Machine} {next : Int}
    (ho : (approach ctx parent cond target).outcome m = (.ok (some next), m'))
    (hm : P ((continue_ next).outcome m').2) :
    P ((branch ctx parent cond target continue_).outcome m).2 := by
  obtain ⟨s, p, hend, -⟩ := @branch_end ctx parent cond target continue_ m
  rw [hend, sideEnd, ho]
  exact h.withPath _ s p hm

section

variable (hreach : Reaches ctx entries root c)
include hreach

theorem runs (hc : P c.machine) (hruns : Runs ctx entries c.visit c.machine site text m) : P m := by
  obtain ⟨texts, m₁, henter, hran⟩ := hruns
  have hentered := h.entered c.visit hc
  rw [henter] at hentered
  exact (forall_ran (fun text m' hran => h.traced hreach ⟨texts, m₁, henter, hran⟩) hentered).1
    text m hran

theorem left_of_runAll {m₁ : Machine} {texts : List String}
    (henter : (enter ctx entries c.visit).outcome c.machine = (.ok (some (site, texts)), m₁))
    (hrun : P ((runAll ctx site texts).outcome m₁).2) (last : Bool) :
    P ((visit ctx entries last c.visit).outcome c.machine).2 := by
  rw [visit, outcome_bind, henter]
  dsimp only
  rw [outcome_bind]
  rcases ho : (runAll ctx site texts).outcome m₁ with ⟨e | u, m₂⟩ <;> rw [ho] at hrun
  · exact hrun
  · have hrecorded := h.record hreach ⟨site, texts, m₁, henter, ho⟩ hrun
    obtain ⟨m₃, hm₃, -⟩ := outcome_record m₂
    rw [hm₃] at hrecorded
    have honward := h.onward c.visit.previous site last hrecorded
    dsimp only
    rw [outcome_bind, hm₃]
    dsimp only
    rw [outcome_bind]
    generalize (Exec.onward ctx c.visit.previous site last).outcome m₃ = o at honward ⊢
    obtain ⟨e | u, m₄⟩ := o <;> exact honward

theorem visit (hc : P c.machine) (last : Bool) :
    P ((visit ctx entries last c.visit).outcome c.machine).2 := by
  have hentered := h.entered c.visit hc
  rcases henter : (enter ctx entries c.visit).outcome c.machine with ⟨e | _ | ⟨site, texts⟩, m₁⟩ <;>
    rw [henter] at hentered
  · rwa [Exec.visit, outcome_bind, henter]
  · rwa [Exec.visit, outcome_bind, henter]
  · exact h.left_of_runAll hreach henter
      (forall_ran (fun text m' hran => h.traced hreach ⟨texts, m₁, henter, hran⟩) hentered).2 last

theorem left_of_runs (hruns : Runs ctx entries c.visit c.machine site text m)
    (hm : P ((Exec.traced ctx site text).outcome m).2) (last : Bool) :
    P ((Exec.visit ctx entries last c.visit).outcome c.machine).2 := by
  obtain ⟨texts, m₁, henter, hran⟩ := hruns
  exact h.left_of_runAll hreach henter
    (runAll_of_ran (fun text m' hran => h.traced hreach ⟨texts, m₁, henter, hran⟩) hran hm) last

end

section

variable {remaining : Nat} {v : Visit} {m₁ m₂ : Machine} {b : Block}
  (hreach : Reaches ctx entries root ⟨remaining + 1, v, m⟩)
  (ih : ∀ d, Next ctx entries ⟨remaining + 1, v, m⟩ d → Reaches ctx entries root d →
    P d.machine → P (d.ending ctx entries))
  (hv : (Exec.visit ctx entries false v).outcome m = (.ok (site, .fork cond b), m₁))

include hreach ih hv

theorem target (hleft : P m₁) :
    P ((branch ctx m₁.path cond (.ok b.targetAddress) (side ctx entries remaining v site)).outcome
      m₁).2 :=
  branch_invariant h.withPath hleft fun _ _ ht hm' =>
  ih _ (.target hv ht) (hreach.tail (.target hv ht)) hm'

theorem fall
    (ht : (branch ctx m₁.path cond (.ok b.targetAddress)
      (side ctx entries remaining v site)).outcome m₁ = (.ok (), m₂)) (hreturned : P m₂) :
    P ((branch ctx m₁.path (.symbolic cond.not) b.getFallsTo
      (side ctx entries remaining v site)).outcome m₂).2 :=
  branch_invariant h.withPath hreturned fun _ _ hf hm' =>
    ih _ (.fall hv ht hf) (hreach.tail (.fall hv ht hf)) hm'

end

theorem ending_of_left (c : Call) :
    Reaches ctx entries root c →
      P ((Exec.visit ctx entries (c.remaining == 0) c.visit).outcome c.machine).2 →
      P (c.ending ctx entries) := by
  refine ending_induction (Q := fun c m' => Reaches ctx entries root c →
    P ((Exec.visit ctx entries (c.remaining == 0) c.visit).outcome c.machine).2 → P m')
    (fun remaining v m _ hleft => hleft) ?go ?target ?fall ?edges c
  case go =>
    intro remaining v next m m₁ site hv hnext hreach hleft
    change P ((Exec.visit ctx entries false v).outcome m).2 at hleft
    rw [hv] at hleft
    exact hnext (hreach.tail (.go hv)) (h.visit (hreach.tail (.go hv)) hleft _)
  case target =>
    intro remaining v m m₁ m₂ site c b e hv ht ih hreach hleft
    change P ((Exec.visit ctx entries false v).outcome m).2 at hleft
    rw [hv] at hleft
    have hreturned :=
      h.target hreach (fun d hnext hd hm => ih d hnext hd (h.visit hd hm _)) hv hleft
    rwa [ht] at hreturned
  case fall =>
    intro remaining v m m₁ m₂ site c b hv ht ih hreach hleft
    have hbelow (d : Call) (hnext : Next ctx entries ⟨remaining + 1, v, m⟩ d)
        (hd : Reaches ctx entries root d) (hm : P d.machine) : P (d.ending ctx entries) :=
      ih d hnext hd (h.visit hd hm _)
    change P ((Exec.visit ctx entries false v).outcome m).2 at hleft
    rw [hv] at hleft
    have hreturned := h.target hreach hbelow hv hleft
    rw [ht] at hreturned
    exact h.fall hreach hbelow hv ht hreturned
  case edges =>
    intro c m counts hm hreach hleft
    exact h.withEdges m counts (hm hreach hleft)

theorem ending (c : Call) (hreach : Reaches ctx entries root c) (hc : P c.machine) :
    P (c.ending ctx entries) :=
  h.ending_of_left c hreach (h.visit hreach hc _)

theorem moment (hreach : Reaches ctx entries root c) (hc : P c.machine)
    (hm : Moment ctx entries c m) : P m := by
  have hending (d : Call) : _ := fun (_ : Next ctx entries c d) => h.ending d
  have hleft (last : Bool) := h.visit hreach hc last
  cases hm with
  | called => exact hc
  | entered => exact h.entered _ hc
  | before hruns => exact h.runs hreach hc hruns
  | after hruns => exact h.traced hreach hruns (h.runs hreach hc hruns)
  | left => exact hleft _
  | turned hv => exact h.approached _ _ _ (by simpa [hv] using hleft false)
  | returned hv => exact h.target hreach hending hv (by simpa [hv] using hleft false)
  | turnedBehind hv ht =>
    have hreturned := h.target hreach hending hv (by simpa [hv] using hleft false)
    rw [ht] at hreturned
    exact h.approached _ _ _ hreturned
  | returnedBehind hv ht =>
    have hreturned := h.target hreach hending hv (by simpa [hv] using hleft false)
    rw [ht] at hreturned
    exact h.fall hreach hending hv ht hreturned
  | ended => exact h.ending c hreach hc

theorem called (hroot : P root.machine) (hreach : Reaches ctx entries root c) : P c.machine := by
  induction hreach with
  | refl => exact hroot
  | tail hreach hnext ih => exact h.moment hreach ih hnext.moment

theorem holds (hroot : P root.machine) (hreach : Reaches ctx entries root c)
    (hm : Moment ctx entries c m) : P m :=
  h.moment hreach (h.called hroot hreach) hm

theorem next_of_completes (hreach : Reaches ctx entries root c)
    (hcompletes : Completes ctx entries c m) (hm : P m) (hnext : Next ctx entries c d) :
    P d.machine := by
  obtain ⟨site, texts, m₁, henter, hrun⟩ := hcompletes
  have hleft := h.left_of_runAll hreach henter (by rwa [hrun]) false
  cases hnext with
  | go hv => rwa [hv] at hleft
  | @target remaining v m m₁ m₂ site cond b next hv ht =>
    rw [hv] at hleft
    have hturned := h.approached m₁.path cond (.ok b.targetAddress) hleft
    rwa [ht] at hturned
  | @fall remaining v m m₁ m₂ m₃ site cond b next hv ht hf =>
    rw [hv] at hleft
    have hreturned := h.target hreach (fun d _ => h.ending d) hv hleft
    rw [ht] at hreturned
    have hturned := h.approached m₁.path (.symbolic cond.not) b.getFallsTo hreturned
    rwa [hf] at hturned

/-! ### Until an exploration is over -/

theorem ending_of_fallen {remaining : Nat} {v : Visit} {m₁ m₂ : Machine} {b : Block}
    (hv : (Exec.visit ctx entries false v).outcome m = (.ok (site, .fork cond b), m₁))
    (ht : (branch ctx m₁.path cond (.ok b.targetAddress)
      (side ctx entries remaining v site)).outcome m₁ = (.ok (), m₂))
    (hfallen : P ((branch ctx m₁.path (.symbolic cond.not) b.getFallsTo
        (side ctx entries remaining v site)).outcome m₂).2) :
    P (Call.ending ctx entries ⟨remaining + 1, v, m⟩) := by
  rw [Call.ending, explore_fork hv, outcome_bind, outcome_bind, ht]
  dsimp only
  generalize (branch ctx m₁.path (.symbolic cond.not) b.getFallsTo
    (side ctx entries remaining v site)).outcome m₂ = o at hfallen ⊢
  obtain ⟨e | u, m₃⟩ := o
  · exact hfallen
  · exact h.withEdges m₃ _ hfallen

theorem ending_of_next (hreach : Reaches ctx entries root c)
    (hnext : Next ctx entries c d) (hd : P (d.ending ctx entries)) : P (c.ending ctx entries) := by
  cases hnext with
  | go hv => rwa [Call.ending, explore, outcome_bind, hv]
  | @target remaining v m m₁ m₂ site cond b next hv ht =>
    have hreturned := h.closed (side ctx entries remaining v site) ht hd
    rcases hside :
      (branch ctx m₁.path cond (.ok b.targetAddress) (side ctx entries remaining v site)).outcome m₁
      with ⟨e | u, m₃⟩ <;> rw [hside] at hreturned
    · rwa [Call.ending, explore_fork hv, outcome_bind, outcome_bind, hside]
    · exact h.ending_of_fallen hv hside (h.fall hreach (fun d _ => h.ending d) hv hside hreturned)
  | @fall remaining v m m₁ m₂ m₃ site cond b next hv ht hf =>
    exact h.ending_of_fallen hv ht (h.closed (side ctx entries remaining v site) hf hd)

theorem ending_of_reach (hreach : Reaches ctx entries root c)
    (hc : P (c.ending ctx entries)) : P (root.ending ctx entries) := by
  induction hreach with
  | refl => exact hc
  | tail hreach hnext ih => exact ih (h.ending_of_next hreach hnext hc)

theorem ending_of_runs (hreach : Reaches ctx entries root c)
    (hruns : Runs ctx entries c.visit c.machine site text m)
    (hm : P ((Exec.traced ctx site text).outcome m).2) : P (root.ending ctx entries) :=
  h.ending_of_reach hreach (h.ending_of_left c hreach (h.left_of_runs hreach hruns hm _))

end Maintains

end EvmAudit.Exec
