import EvmAudit.Proofs.Explore.Bounds
import EvmAudit.Proofs.Explore.Payments

/-! Calls that are reported because they can be entered again. What is reported at a call is the
last answer on its path. A call without an amount is not asked about, so that it is reported with
the answer to an earlier one. -/

namespace EvmAudit.Exec

variable {ctx : Context} {entries : Table Int String}
variable {back before front ss : List (String × Machine)} {c root : Call} {m m' : Machine}
  {texts : List String}

/-! ### What is asked on a path -/

def asked (s : String × Machine) : Bool := (Instruction.ofText s.1).asks s.2.path

def answer (ctx : Context) (s : String × Machine) : Except Fault Bool :=
  ((checkReentrancy ctx).outcome s.2).1

def lastAsked (ss : List (String × Machine)) : Option (String × Machine) :=
  (ss.filter asked).getLast?

def Answers (ctx : Context) (ss : List (String × Machine)) (bs : List Bool) : Prop :=
  (ss.filter asked).map (answer ctx) = bs.map .ok

theorem Answers.append {ss' : List (String × Machine)} {bs bs' : List Bool} (h : Answers ctx ss bs)
    (h' : Answers ctx ss' bs') : Answers ctx (ss ++ ss') (bs ++ bs') := by
  unfold Answers at h h' ⊢
  rw [List.filter_append, List.map_append, List.map_append, h, h']

theorem Answers.getLast? {bs : List Bool} (h : Answers ctx ss bs) :
    bs.getLast? = some true ↔ ∃ s, lastAsked ss = some s ∧ answer ctx s = .ok true := by
  have hlast : (lastAsked ss).map (answer ctx) = bs.getLast?.map .ok := by
    rw [lastAsked, ← List.getLast?_map, ← List.getLast?_map, h]
  constructor
  · intro htrue
    rw [htrue] at hlast
    exact Option.map_eq_some_iff.1 hlast
  · rintro ⟨s, hs, htrue⟩
    rw [hs, Option.map_some, htrue] at hlast
    obtain ⟨b, hb, heq⟩ := Option.map_eq_some_iff.1 hlast.symm
    cases heq
    exact hb

theorem keeps_answers (given : List Bool) : Keeps ctx fun history p =>
    ∃ bs, p.analysis.reentrancy = given ++ bs ∧ Answers ctx history bs where
  traced {history site text m m'} hbefore h := by
    obtain ⟨bs, hbs, hanswers⟩ := hbefore
    obtain ⟨-, cs, -, hadded, -, hanswer⟩ := dealings_of_traced h
    have hone : Answers ctx [(text, m)] cs := by
      split at hanswer
      next hasks =>
        obtain ⟨b, hb, rfl⟩ := hanswer
        simp [Answers, asked, answer, hasks, hb]
      next hasks =>
        simp [Answers, asked, hasks, hanswer]
    exact ⟨bs ++ cs, by rw [hadded, hbs, List.append_assoc], hanswers.append hone⟩

theorem Trail.answers_steps {text : String} (h : Trail ctx entries root c before)
    (hsteps : c.steps ctx entries = front ++ (text, m) :: back) :
    ∃ bs, m.path.analysis.reentrancy = root.machine.path.analysis.reentrancy ++ bs ∧
    Answers ctx (before ++ front) bs :=
  Reached.keeps (s := (text, m)) ⟨c, before, front, back, h, hsteps, rfl⟩ (keeps_answers _)
    ⟨[], by simp, rfl⟩

/-! ### What is reported -/

theorem alarms_record (m : Machine) :
    (record.outcome m).2.shared.problems.reentrancy = m.shared.problems.reentrancy := by
  rw [record, outcome_bind_getPath, outcome_modifyShared]
  dsimp only
  split <;> rfl

theorem alarms_gather : Gathers ctx (fun m => { r | r ∈ m.shared.problems.reentrancy })
    (fun _ s => { r | Raises ctx s.1 s.2 ∧ s.2.path.world.pc = r }) where
  traced site text m := Set.ext fun _ => mem_alarms_traced
  record m := by simp only [alarms_record]
  alike h := by
    have hproblems := h .problems (by decide)
    exact congrArg (fun p : Problems => { r | r ∈ p.reentrancy }) hproblems

/-- The call is looked at, and the answer to it is that it can be entered again, or to the last
instruction that was asked about if it is not asked about itself. -/
structure Blamed (ctx : Context) (history : List (String × Machine)) (s : String × Machine) :
    Prop where
  call : (Instruction.ofText s.1).operation = .call
  examined : ((examine ctx s.1).outcome s.2).1 = .ok ()
  answered : if asked s then answer ctx s = .ok true
    else ∃ s', lastAsked history = some s' ∧ answer ctx s' = .ok true

theorem raises_iff_blamed {history : List (String × Machine)} {s : String × Machine}
    (h : Answers ctx history s.2.path.analysis.reentrancy) :
    Raises ctx s.1 s.2 ↔ Blamed ctx history s := by
  have hlast : (if asked s then answer ctx s = .ok true
      else s.2.path.analysis.reentrancy.getLast? = some true) ↔
      if asked s then answer ctx s = .ok true
        else ∃ s', lastAsked history = some s' ∧ answer ctx s' = .ok true := by
    rw [h.getLast?]
  exact ⟨fun hr => ⟨hr.call, hr.examined, hlast.1 hr.last⟩,
    fun hr => ⟨hr.call, hr.examined, hlast.2 hr.answered⟩⟩

/-- A place is reported exactly if a call at it is blamed. If the amount of the call is not known to
be zero, the answer is to the call itself, but else to an earlier call on the same path. -/
theorem reentrancy_reported {g : Graph} {root : Call} (hroot : Begins ctx g entries root)
    (r : Int) : r ∈ (root.ending ctx entries).shared.problems.reentrancy ↔
      ∃ c before front s back, Trail ctx entries root c before ∧
        c.steps ctx entries = front ++ s :: back ∧ s.2.path.world.pc = r ∧
        Blamed ctx (before ++ front) s := by
  obtain ⟨conditions, -, hledger⟩ := hroot.ledger
  have hsilent : root.machine.shared.problems.reentrancy = [] := congrArg Ledger.alarms hledger
  have hunasked : root.machine.path.analysis.reentrancy = [] := congrArg Ledger.answers hledger
  have hraises {c : Call} {before front back : List (String × Machine)} {s : String × Machine}
      (htrail : Trail ctx entries root c before)
      (hsteps : c.steps ctx entries = front ++ s :: back) :
      Raises ctx s.1 s.2 ↔ Blamed ctx (before ++ front) s := by
    obtain ⟨bs, hbs, hanswers⟩ := htrail.answers_steps hsteps
    rw [hunasked, List.nil_append] at hbs
    exact raises_iff_blamed (hbs ▸ hanswers)
  refine (alarms_gather.mem_ending root r).trans ?_
  rw [Set.mem_ofPred_eq, hsilent]
  constructor
  · rintro (hnone | ⟨c, hreach, s, hs, hraised, hpc⟩)
    · cases hnone
    · obtain ⟨before, htrail⟩ := reach_iff_trail.1 hreach
      obtain ⟨front, back, hsteps⟩ := List.append_of_mem hs
      exact ⟨c, before, front, s, back, htrail, hsteps, hpc, (hraises htrail hsteps).1 hraised⟩
  · rintro ⟨c, before, front, s, back, htrail, hsteps, hpc, hblamed⟩
    refine .inr ⟨c, reach_iff_trail.2 ⟨before, htrail⟩, s, ?_,
      (hraises htrail hsteps).2 hblamed, hpc⟩
    rw [hsteps]
    exact List.mem_append_right _ List.mem_cons_self

/-! ### A call without an amount -/

open Listing

def payThenPing : Code := .ofDrafts
  [⟨0, "PUSH1", some "00"⟩, ⟨2, "DUP1", none⟩, ⟨3, "DUP1", none⟩, ⟨4, "DUP1", none⟩,
    ⟨5, "PUSH1", some "01"⟩, ⟨7, "CALLER", none⟩, ⟨8, "GAS", none⟩, ⟨9, "CALL", none⟩,
    ⟨10, "PUSH1", some "00"⟩, ⟨12, "DUP1", none⟩, ⟨13, "DUP1", none⟩, ⟨14, "DUP1", none⟩,
    ⟨15, "DUP1", none⟩, ⟨16, "CALLER", none⟩, ⟨17, "PUSH1", some "00"⟩, ⟨19, "CALL", none⟩,
    ⟨20, "STOP", none⟩]

def payThenPingContext : Context where
  decide := fun fs => if fs.contains (.literal false) then .unsat else .sat []

def payThenPingRoot : Call := .first payThenPingContext payThenPing.assembled

theorem begins_payThenPing : Begins payThenPingContext payThenPing.linked {} payThenPingRoot :=
  begins_unsourced payThenPing.linked_sorted rfl (by decide +kernel)

def payThenPingEnd : Machine := payThenPingRoot.ending payThenPingContext {}

theorem alarms_payThenPing : payThenPingEnd.shared.problems.reentrancy = [9, 19] := by
  decide +kernel

theorem reentrancy_reported_payThenPing : 19 ∈ payThenPingEnd.shared.problems.reentrancy ∧
    ∃ c before front s back, Trail payThenPingContext {} payThenPingRoot c before ∧
      c.steps payThenPingContext {} = front ++ s :: back ∧ s.2.path.world.pc = 19 ∧
      Blamed payThenPingContext (before ++ front) s := by
  have hmem : 19 ∈ payThenPingEnd.shared.problems.reentrancy := by
    rw [alarms_payThenPing]
    decide
  refine ⟨hmem, ?_⟩
  unfold payThenPingEnd at hmem
  exact (reentrancy_reported begins_payThenPing 19).1 hmem

theorem answers_payThenPing : ((calls payThenPingContext {} payThenPingRoot.remaining
    payThenPingRoot.visit payThenPingRoot.machine).all fun c =>
      (c.steps payThenPingContext {}).all fun s =>
      s.2.path.world.pc ≠ 19 || (answer payThenPingContext s).toOption ≠ some true) = true := by
  decide +kernel

/-- The second call is reported, but nowhere at its place can a transfer be entered again. -/
theorem payThenPing_misreported :
    19 ∈ ((exploreAll payThenPingContext).outcome
      { shared := { graph := payThenPing.linked } }).2.shared.problems.reentrancy ∧
    ∀ c, Relation.ReflTransGen (Next payThenPingContext {}) payThenPingRoot c →
      ∀ s ∈ c.steps payThenPingContext {}, s.2.path.world.pc = 19 →
        answer payThenPingContext s ≠ .ok true := by
  constructor
  · have halarms := alarms_payThenPing
    unfold payThenPingEnd at halarms
    rw [begins_payThenPing.ending_eq, halarms]
    decide
  · intro c hreach s hs hpc htrue
    have hall :=
      List.all_eq_true.1 (List.all_eq_true.1 answers_payThenPing c (mem_calls.2 hreach)) s hs
    rw [hpc, htrue] at hall
    cases hall

end EvmAudit.Exec
