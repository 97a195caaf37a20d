import EvmAudit.Proofs.Machine.Moves

/-! What is kept about the paths for the detectors. An instruction leaves the tables of all paths as
they are. To its own path it adds transfers, each with its place, and conditions; the places of new
conditions go under the indices of these. -/

namespace EvmAudit

structure Tables where
  flows : List (List Flow)
  conditions : List (List Condition)
  storages : List (Table Key Value)
  transfers : List (List Int)
  conditionPcs : List (Table Nat Int)

def Shared.tables (s : Shared) : Tables where
  flows := s.flows
  conditions := s.conditions
  storages := s.storages
  transfers := s.problems.transfers
  conditionPcs := s.problems.conditionPcs

/-- The tables and what the current path has for them, what was answered about its transfers and
where they were reported, the number of instructions so far, and the branches that have been
found. -/
structure Ledger where
  tables : Tables
  executed : Nat
  flows : List Flow
  transferPcs : List Int
  conditions : List Condition
  conditionPcs : Table Nat Int
  answers : List Bool
  alarms : List Int
  branch? : Int → Option (Option Value)

def Machine.ledger (m : Machine) : Ledger where
  tables := m.shared.tables
  executed := m.shared.executed
  flows := m.path.analysis.flows
  transferPcs := m.path.analysis.transferPcs
  conditions := m.path.conditions
  conditionPcs := m.path.analysis.conditionPcs
  answers := m.path.analysis.reentrancy
  alarms := m.shared.problems.reentrancy
  branch? key := (m.shared.graph.blocks.get? key).map Block.branch

structure Dealings where
  flows : List Flow
  answers : List Bool
  alarms : List Int

def Ledger.dealings (l : Ledger) : Dealings := ⟨l.flows, l.answers, l.alarms⟩

namespace Exec

variable {α β : Type} {ctx : Context} {ps : List Part}

/-! ### Computations that keep the ledger -/

abbrev Steady (x : Exec α) : Prop := Fixes Machine.ledger x

def ledgerParts : List Part := [.analysis, .conditions, .graph, .problems, .records, .executed]

theorem steady_of_touches {x : Exec α} (h : Touches ps x) (hps : ∀ p ∈ ledgerParts, p ∉ ps) :
    Steady x := by
  intro m
  have hkept (p : Part) (hp : p ∈ ledgerParts) : (x.outcome m).2.part p = m.part p :=
    h m p (hps p hp)
  obtain ⟨hflows, hanalysis⟩ := Prod.mk.inj (hkept .analysis (by decide))
  obtain ⟨hrecords, -⟩ := Prod.mk.inj (hkept .records (by decide))
  have hgraph : (x.outcome m).2.shared.graph = m.shared.graph := hkept .graph (by decide)
  have hproblems : (x.outcome m).2.shared.problems = m.shared.problems :=
    hkept .problems (by decide)
  simp only [Prod.mk.injEq] at hanalysis hrecords
  simp only [Machine.ledger, Shared.tables, hflows, hanalysis, hgraph, hproblems, hrecords]
  exact congr(Ledger.mk _ $(hkept .executed (by decide)) _ _ $(hkept .conditions (by decide))
    _ _ _ _)

abbrev unbookedParts : List Part :=
  [.stack, .pc, .words, .bytes, .calls, .overflowPcs, .fees, .hashes, .balance, .storage,
    .activeWords, .vars, .solver, .names, .varNames, .visitedPcs, .affected, .revertible,
    .recipients, .requests, .log]

theorem Within.steady {x : Exec α} (h : Within (Machine.AlikeBut unbookedParts) x) : Steady x :=
  steady_of_touches h (by decide)

theorem steady_charge (instruction : Instruction) : Steady (Gas.charge ctx instruction) :=
  (steady_of_touches (touches_dynamic _) (by decide)).bind fun _ => fun _ => rfl

theorem steady_markVisited : Steady markVisited := by
  refine Fixes.bind (fun _ => rfl) fun at_ m => ?_
  rw [outcome_modifyShared]
  dsimp only
  split <;> rfl

end Exec

/-! ### What instructions add -/

/-- From `a` to `b` transfers and conditions are added to the path. New places of conditions stand
under the indices of new conditions, and there are some only where something is paid. -/
structure Ledger.Accrues (pays : Prop) (a b : Ledger) : Prop where
  tables : b.tables = a.tables
  transfers : ∃ fs ps, fs.length = ps.length ∧ b.flows = a.flows ++ fs ∧
    b.transferPcs = a.transferPcs ++ ps
  conditions : a.conditions <+: b.conditions
  places : ∀ i r, b.conditionPcs.get? i = some r → a.conditionPcs.get? i = some r ∨
    pays ∧ a.conditions.length ≤ i ∧ i < b.conditions.length

namespace Ledger.Accrues

variable {pays : Prop} {a b c : Ledger}

theorem of_kept (htables : b.tables = a.tables) (hflows : b.flows = a.flows)
    (hpcs : b.transferPcs = a.transferPcs) (hconditions : b.conditions = a.conditions)
    (hplaces : b.conditionPcs = a.conditionPcs) : a.Accrues pays b := by
  refine ⟨htables, ⟨[], [], rfl, by simp [hflows], by simp [hpcs]⟩, ?_, fun i r hi => ?_⟩
  · exact ⟨[], by rw [hconditions, List.append_nil]⟩
  · rw [hplaces] at hi
    exact .inl hi

theorem of_eq (h : b = a) : a.Accrues pays b := by
  subst h
  exact of_kept rfl rfl rfl rfl rfl

theorem trans (h : a.Accrues pays b) (h' : b.Accrues pays c) : a.Accrues pays c := by
  obtain ⟨fs, ps, hlength, hflows, hpcs⟩ := h.transfers
  obtain ⟨fs', ps', hlength', hflows', hpcs'⟩ := h'.transfers
  have hab := h.conditions.length_le
  have hbc := h'.conditions.length_le
  refine ⟨h'.tables.trans h.tables, ⟨fs ++ fs', ps ++ ps', ?_, ?_, ?_⟩,
    h.conditions.trans h'.conditions, fun i r hi => ?_⟩
  · rw [List.length_append, List.length_append, hlength, hlength']
  · rw [hflows', hflows, List.append_assoc]
  · rw [hpcs', hpcs, List.append_assoc]
  · rcases h'.places i r hi with hi | ⟨hpays, hlow, hhigh⟩
    · rcases h.places i r hi with hi | ⟨hpays, hlow, hhigh⟩
      · exact .inl hi
      · exact .inr ⟨hpays, hlow, Nat.lt_of_lt_of_le hhigh hbc⟩
    · exact .inr ⟨hpays, Nat.le_trans hab hlow, hhigh⟩

end Ledger.Accrues

def Machine.Booked (pays finds notes : Prop) (m m' : Machine) : Prop :=
  m.ledger.Accrues pays m'.ledger ∧ m'.ledger.executed = m.ledger.executed ∧
    (m'.ledger.branch? = m.ledger.branch? ∨ finds) ∧
    (m'.ledger.dealings = m.ledger.dealings ∨ notes)

namespace Machine.Booked

variable {pays finds notes : Prop} {m m' m'' : Machine}

theorem of_eq (h : m'.ledger = m.ledger) : m.Booked pays finds notes m' :=
  ⟨.of_eq h, congrArg Ledger.executed h, .inl (congrArg Ledger.branch? h),
   .inl (congrArg Ledger.dealings h)⟩

theorem trans (h : m.Booked pays finds notes m') (h' : m'.Booked pays finds notes m'') :
    m.Booked pays finds notes m'' := by
  obtain ⟨hadds, hcount, hbranch, hnoted⟩ := h
  obtain ⟨hadds', hcount', hbranch', hnoted'⟩ := h'
  refine ⟨hadds.trans hadds', hcount'.trans hcount, ?_, ?_⟩
  · rcases hbranch with hbranch | hfinds
    · exact hbranch'.imp (fun h => h.trans hbranch) id
    · exact .inr hfinds
  · rcases hnoted with hnoted | hnotes
    · exact hnoted'.imp (fun h => h.trans hnoted) id
    · exact .inr hnotes

theorem permits (ps : List Part) : Permits (Booked pays finds notes) ps where
  refl _ := .of_eq rfl
  trans := .trans
  replace {p} _ m _ h := by
    cases p with
    | conditions =>
      obtain ⟨c, rfl⟩ := h
      exact ⟨⟨rfl, ⟨[], [], rfl, (List.append_nil _).symm, (List.append_nil _).symm⟩,
        List.prefix_append _ _, fun _ _ => .inl⟩, rfl, .inl rfl, .inl rfl⟩
    | problems =>
      obtain ⟨_, _, _, rfl⟩ := h
      exact .of_eq rfl
    | graph =>
      exact .of_eq (congrArg (fun found => { m.ledger with branch? := found }) (funext h.2))
    | analysis | records | executed => exact h.elim
    | _ => exact .of_eq rfl

instance : Permits (Machine.Booked pays finds notes) allParts := permits allParts

end Machine.Booked

namespace Exec

variable {α β : Type} {ctx : Context} {pays finds notes : Prop}
variable {x : Exec α} {f : α → Exec β}

/-- However the computation ends, it adds to the ledger as instructions may. It does not count as an
instruction itself. It finds no branch and notes nothing about money, unless it is one that does. -/
def Books (pays finds notes : Prop) (x : Exec α) : Prop := ∀ m : Machine,
  m.ledger.Accrues pays (x.outcome m).2.ledger ∧
    (x.outcome m).2.ledger.executed = m.ledger.executed ∧
    ((x.outcome m).2.ledger.branch? = m.ledger.branch? ∨ finds) ∧
    ((x.outcome m).2.ledger.dealings = m.ledger.dealings ∨ notes)

theorem Fixes.books (h : Steady x) : Books pays finds notes x := fun m => Machine.Booked.of_eq (h m)

theorem Books.bind (hx : Books pays finds notes x) (hf : ∀ a, Books pays finds notes (f a)) :
    Books pays finds notes (x >>= f) :=
  Within.bind (R := Machine.Booked pays finds notes) hx hf

theorem books_notePayment (hpays : pays) (c : Condition) :
    Books pays finds notes (notePayment c) := by
  intro m
  refine ⟨⟨rfl, ⟨[], [], rfl, (List.append_nil _).symm, (List.append_nil _).symm⟩,
    List.prefix_append _ _, fun i r hi => ?_⟩, rfl, .inl rfl, .inl rfl⟩
  change (Table.insert _ ((m.path.conditions ++ [c]).length - 1) _).get? i = some r at hi
  rw [Table.get?_insert, List.length_append, List.length_singleton, Nat.add_sub_cancel] at hi
  change _ ∨ pays ∧ m.path.conditions.length ≤ i ∧ i < (m.path.conditions ++ [c]).length
  rw [List.length_append, List.length_singleton]
  split at hi
  · exact .inr ⟨hpays, by omega, by omega⟩
  · exact .inl hi

theorem books_noteTransfer (flow : Flow) : Books pays finds True (noteTransfer flow) := fun m =>
  ⟨⟨rfl, ⟨[flow], [m.path.world.pc], rfl, rfl, rfl⟩, List.prefix_refl _, fun _ _ => .inl⟩, rfl,
   .inl rfl, .inr trivial⟩

theorem books_noteMove (op : Operation) : Books pays finds True (noteMove ctx op) := by
  change Within (Machine.Booked pays finds True) _
  unfold noteMove
  split
  · refine (touches_peek 1).bind fun recipient => (touches_peek 2).bind fun amount =>
      touches_ite (touches_pure ()) ((touches_ofExcept _).bind fun text =>
        touches_checkReentrancy.bind fun answer => Within.bind ?_ fun _ => books_noteTransfer _)
    exact fun _ => ⟨.of_kept rfl rfl rfl rfl rfl, rfl, .inl rfl, .inr trivial⟩
  · exact (touches_peek 0).bind fun recipient => (touches_ofExcept _).bind fun text =>
      books_noteTransfer _
  · exact touches_pure ()

theorem books_noteReentrancy : Within (Machine.Booked pays finds True) noteReentrancy :=
  touches_getPath.bind fun _ => touches_ite
    (touches_pc.bind fun _ => fun _ => ⟨.of_kept rfl rfl rfl rfl rfl, rfl, .inl rfl, .inr trivial⟩)
    (touches_pure ())

theorem books_prepare (instruction : Instruction) :
    Books pays finds True (prepare ctx instruction) := by
  refine touches_ite (R := Machine.Booked pays finds True) (touches_pure ())
    (Within.bind ?_ fun _ => touches_ite books_noteReentrancy (touches_pure ()))
  exact (steady_charge instruction).books.bind fun _ => books_noteMove _

def Pays (op : Operation) : Prop := op = .call ∨ op = .callCode

theorem books_perform (site : Site) (name : String) (op : Operation) :
    Books (Pays op) (op = .jumpIf) notes (perform ctx site name op) :=
  have := @Machine.Booked.permits (Pays op) (op = .jumpIf) notes (footprint op)
  within_perform (R := Machine.Booked (Pays op) (op = .jumpIf) notes) site name op
    (fun _ => ⟨fun _ _ => .of_eq rfl⟩)
    (fun hop _ _ _ => ⟨.of_kept rfl rfl rfl rfl rfl, rfl, .inr hop, .inl rfl⟩) fun hpays =>
    books_notePayment hpays

theorem books_step (site : Site) (instruction : Instruction) :
    Books (Pays instruction.operation) (instruction.operation = .jumpIf) True
      (step ctx site instruction) :=
  steady_markVisited.books.bind fun _ => (books_prepare instruction).bind fun _ =>
  books_perform site _ _

end Exec

end EvmAudit
