import EvmAudit.Proofs.Machine.Footprint
import EvmAudit.Proofs.Table

/-! How far an instruction has come: the items it has taken from the stack and put on it, the bytes
that the program counter has passed, and the places that it has noted for the detectors. -/

namespace EvmAudit

structure Marks where
  stack : List Value
  pc : Int
  calls : List Int
  transferPcs : List Int
  conditionPcs : Table Nat Int
  visitedPcs : List Int
  visitedEdges : Table (Int × Int) Int
  affected : Table Int Bool
  problems : Problems

def Machine.marks (m : Machine) : Marks where
  stack := m.path.stack
  pc := m.path.world.pc
  calls := m.path.calls
  transferPcs := m.path.analysis.transferPcs
  conditionPcs := m.path.analysis.conditionPcs
  visitedPcs := m.shared.visitedPcs
  visitedEdges := m.shared.visitedEdges
  affected := m.shared.affected
  problems := m.shared.problems

/-- Every program counter that `b` notes and `a` does not is `p`; a failed assertion may be noted at
the call that led to it instead. No edge is counted. -/
structure Marks.Notes (p caller : Int) (a b : Marks) : Prop where
  calls : ∀ r ∈ b.calls, r ∈ a.calls ∨ r = p
  transfers : ∀ r ∈ b.transferPcs, r ∈ a.transferPcs ∨ r = p
  conditions : ∀ i r, b.conditionPcs.get? i = some r → a.conditionPcs.get? i = some r ∨ r = p
  visited : ∀ r ∈ b.visitedPcs, r ∈ a.visitedPcs ∨ r = p
  affected : ∀ r, b.affected.contains r = true → (a.affected.contains r = true ∨ r ∈ a.calls) ∨
    r = p
  reentrancy : ∀ r ∈ b.problems.reentrancy, r ∈ a.problems.reentrancy ∨ r = p
  overflows : ∀ r ∈ b.problems.overflows, r ∈ a.problems.overflows ∨ r = p
  underflows : ∀ r ∈ b.problems.underflows, r ∈ a.problems.underflows ∨ r = p
  assertions : ∀ r ∈ b.problems.assertions, (r ∈ a.problems.assertions ∨ r = caller) ∨ r = p
  edges : b.visitedEdges = a.visitedEdges

theorem Marks.Notes.refl (p caller : Int) (a : Marks) : a.Notes p caller a where
  calls _ := .inl
  transfers _ := .inl
  conditions _ _ := .inl
  visited _ := .inl
  affected _ h := .inl (.inl h)
  reentrancy _ := .inl
  overflows _ := .inl
  underflows _ := .inl
  assertions _ h := .inl (.inl h)
  edges := rfl

structure Motion where
  taken : Nat
  put : Nat
  passed : Int

/-- The instruction that began at `p` with the marks `a` has come so far when they are `b`. -/
structure Motion.Reached (s : Motion) (p caller : Int) (a b : Marks) : Prop where
  taken_le : s.taken ≤ a.stack.length
  stack : ∃ top, top.length = s.put ∧ b.stack = top ++ a.stack.drop s.taken
  pc : b.pc = p + s.passed
  notes : a.Notes p caller b

theorem Motion.reached_start (caller : Int) (a : Marks) :
    Motion.Reached ⟨0, 0, 0⟩ a.pc caller a a where
  taken_le := Nat.zero_le _
  stack := ⟨[], rfl, rfl⟩
  pc := (Int.add_zero _).symm
  notes := .refl a.pc caller a

theorem Motion.Reached.deeper {t q : Nat} {d p caller : Int} {a b : Marks}
    (h : Motion.Reached ⟨t, q, d⟩ p caller a b) {k : Nat} (hk : t + k ≤ a.stack.length) :
    Motion.Reached ⟨t + k, q + k, d⟩ p caller a b := by
  obtain ⟨top, hlength, htop⟩ := h.stack
  refine ⟨hk, ⟨top ++ (a.stack.drop t).take k, ?_, ?_⟩, h.pc, h.notes⟩
  · have : k ≤ a.stack.length - t := by omega
    simp [hlength, this]
  · rw [htop, List.append_assoc, ← List.drop_drop, List.take_append_drop]

namespace Exec

variable {α β : Type} {ctx : Context} {ps : List Part} {p caller : Int} {s s' s'' : Motion}
  {t q : Nat} {d : Int}
variable {x : Exec α} {f : α → Exec β} {mark : Table Int Bool → Int → Table Int Bool}

/-! ### Computations that move nothing and note nothing -/

def Quiet (x : Exec α) : Prop := ∀ m : Machine, (x.outcome m).2.marks = m.marks

def markParts : List Part :=
  [.stack, .pc, .calls, .analysis, .visitedPcs, .edges, .affected, .problems]

theorem quiet_of_touches (h : Touches ps x) (hps : ∀ p ∈ markParts, p ∉ ps) : Quiet x := by
  intro m
  have hkept (p : Part) (hp : p ∈ markParts) : (x.outcome m).2.part p = m.part p := h m p (hps p hp)
  obtain ⟨-, hanalysis⟩ := Prod.mk.inj (hkept .analysis (by decide))
  obtain ⟨htransfers, hconditions⟩ := Prod.mk.inj (Prod.mk.inj hanalysis).2
  exact congr(Marks.mk $(hkept .stack (by decide)) $(hkept .pc (by decide))
    $(hkept .calls (by decide)) $htransfers
    $hconditions $(hkept .visitedPcs (by decide)) $(hkept .edges (by decide))
    $(hkept .affected (by decide))
    $(hkept .problems (by decide)))

abbrev unmarkedParts : List Part :=
  [.words, .bytes, .overflowPcs, .fees, .hashes, .balance, .storage, .activeWords, .transaction,
    .conditions, .vars, .graph, .solver, .names, .varNames, .revertible, .records, .executed,
    .recipients, .requests, .log]

theorem Within.quiet (h : Within (Machine.AlikeBut unmarkedParts) x) : Quiet x :=
  quiet_of_touches h (by decide)

theorem quiet_pure (a : α) : Quiet (pure a) := fun _ => rfl

theorem quiet_ofExcept (x : Except Fault α) : Quiet (ofExcept x) := fun _ => rfl

theorem quiet_getPath : Quiet getPath := fun _ => rfl

theorem quiet_getWorld : Quiet getWorld := fun _ => rfl

theorem quiet_pc : Quiet pc := fun _ => rfl

theorem quiet_need (n : Nat) : Quiet (need n) := (touches_need n).quiet

/-! ### Moves -/

/-- An instruction at `p` that has come as far as `s` comes to `s'` by this computation, and notes
its own place only, however the computation ends. -/
def Moves (p caller : Int) (s : Motion) (x : Exec α) (s' : Motion) : Prop :=
  ∀ (a : Marks) (m : Machine), s.Reached p caller a m.marks →
    a.Notes p caller (x.outcome m).2.marks ∧
      ∀ r m', x.outcome m = (.ok r, m') → s'.Reached p caller a m'.marks

theorem Quiet.moves (hx : Quiet x) : Moves p caller s x s := by
  intro a m h
  refine ⟨(hx m).symm ▸ h.notes, fun r m' ho => ?_⟩
  have hm := hx m
  rw [ho] at hm
  exact hm.symm ▸ h

theorem Moves.bind (hx : Moves p caller s x s')
    (hf : ∀ a, Moves p caller s' (f a) s'') : Moves p caller s (x >>= f) s'' := by
  intro a m h
  obtain ⟨hnotes, hok⟩ := hx a m h
  rw [outcome_bind]
  generalize x.outcome m = o at hnotes hok ⊢
  obtain ⟨_ | r, m'⟩ := o
  · exact ⟨hnotes, by simp⟩
  · exact hf r a m' (hok r m' rfl)

theorem Moves.notes_bind (hx : Moves p caller s x s') {a : Marks} {m : Machine}
    (h : s.Reached p caller a m.marks)
    (hf : ∀ r m', s'.Reached p caller a m'.marks → a.Notes p caller ((f r).outcome m').2.marks) :
    a.Notes p caller ((x >>= f).outcome m).2.marks := by
  obtain ⟨hnotes, hok⟩ := hx a m h
  rw [outcome_bind]
  generalize x.outcome m = o at hnotes hok ⊢
  obtain ⟨_ | r, m'⟩ := o
  · exact hnotes
  · exact hf r m' (hok r m' rfl)

theorem Quiet.then (hx : Quiet x) (hf : ∀ a, Moves p caller s (f a) s') :
    Moves p caller s (x >>= f) s' :=
  hx.moves.bind hf

theorem moves_throw (e : Fault) : Moves p caller s (throw e : Exec α) s' :=
  fun _ _ h => ⟨h.notes, by simp⟩

theorem moves_ite {c : Prop} [Decidable c] {y : Exec α} (hx : Moves p caller s x s')
    (hy : Moves p caller s y s') : Moves p caller s (if c then x else y) s' := by
  split
  · exact hx
  · exact hy

theorem moves_of_outcome {x : Exec Unit} {f : Machine → Machine}
    (hx : ∀ m, x.outcome m = (.ok (), f m))
    (h : ∀ a m, s.Reached p caller a m.marks → s'.Reached p caller a (f m).marks) :
    Moves p caller s x s' := by
  intro a m hs
  rw [hx]
  refine ⟨(h a m hs).notes, fun _ m' ho => ?_⟩
  cases ho
  exact h a m hs

theorem moves_pc {f : Int → Exec α} (hf : Moves p caller s (f (p + s.passed)) s') :
    Moves p caller s (pc >>= f) s' := by
  intro a m h
  rw [← h.pc] at hf
  exact hf a m h

theorem moves_advance (n : Int) : Moves p caller ⟨t, q, d⟩ (advance n) ⟨t, q, d + n⟩ :=
  moves_of_outcome (outcome_advance n) fun _ _ h =>
    ⟨h.taken_le, h.stack, (congrArg (· + n) h.pc).trans (Int.add_assoc ..), { h.notes with }⟩

theorem moves_push (v : Value) : Moves p caller ⟨t, q, d⟩ (push v) ⟨t, q + 1, d⟩ :=
  moves_of_outcome (outcome_push v) fun _ _ h => by
    obtain ⟨top, hlength, htop⟩ := h.stack
    exact ⟨h.taken_le, ⟨v :: top, congrArg (· + 1) hlength, congrArg (v :: ·) htop⟩, h.pc,
      { h.notes with }⟩

theorem moves_pop : Moves p caller ⟨t, 0, d⟩ pop ⟨t + 1, 0, d⟩ := by
  intro a m h
  obtain ⟨top, hlength, htop⟩ := h.stack
  obtain rfl := List.length_eq_zero_iff.1 hlength
  have hstack : m.path.stack = a.stack.drop t := htop
  rw [pop, outcome_bind_getPath]
  rcases hrest : a.stack.drop t with _ | ⟨v, rest⟩
  · simp only [hstack, hrest]
    exact ⟨h.notes, by simp⟩
  · have hlt : t < a.stack.length := by
      have := congrArg List.length hrest
      simp only [List.length_drop, List.length_cons] at this
      omega
    have hdrop : a.stack.drop (t + 1) = rest := by
      rw [← List.drop_drop, hrest]
      rfl
    simp only [hstack, hrest]
    refine ⟨{ h.notes with }, fun r m' ho => ?_⟩
    cases ho
    exact ⟨hlt, ⟨[], rfl, hdrop.symm⟩, h.pc, { h.notes with }⟩

theorem moves_drop (n : Nat) : Moves p caller ⟨t, 0, d⟩ (drop n) ⟨t + n, 0, d⟩ := by
  induction n generalizing t with
  | zero => exact (quiet_pure ()).moves
  | succ n ih =>
    have h : Moves p caller ⟨t, 0, d⟩ (drop (n + 1)) ⟨t + 1 + n, 0, d⟩ := moves_pop.bind fun _ => ih
    rwa [Nat.add_assoc, Nat.add_comm 1] at h

/-! ### Notes -/

theorem old_or_last {xs : List Int} {P : Int → Prop} (h : ∀ r ∈ xs, P r ∨ r = p) :
    ∀ r ∈ xs ++ [p], P r ∨ r = p := by
  intro r hr
  rcases List.mem_append.1 hr with hr | hr
  · exact h r hr
  · exact .inr (List.mem_singleton.1 hr)

theorem moves_markVisited : Moves p caller ⟨t, q, 0⟩ markVisited ⟨t, q, 0⟩ := by
  refine moves_pc (moves_of_outcome (outcome_modifyShared _) fun a m h => ?_)
  dsimp only
  rw [Int.add_zero]
  split
  · exact h
  · refine ⟨h.taken_le, h.stack, h.pc, { h.notes with visited := fun r hr => ?_ }⟩
    rcases List.mem_cons.1 hr with rfl | hr
    · exact .inr rfl
    · exact h.notes.visited r hr

theorem moves_noteOverflow : Moves p caller ⟨t, q, 1⟩ noteOverflow ⟨t, q, 1⟩ := by
  refine moves_pc ?_
  dsimp only
  rw [Int.add_sub_cancel]
  refine Moves.bind (moves_of_outcome (outcome_modifyShared _) fun a m h => ?_) fun _ =>
    Quiet.moves fun _ => rfl
  exact ⟨h.taken_le, h.stack, h.pc, { h.notes with overflows := old_or_last h.notes.overflows }⟩

theorem moves_noteUnderflow : Moves p caller ⟨t, q, 1⟩ noteUnderflow ⟨t, q, 1⟩ := by
  refine moves_pc ?_
  dsimp only
  rw [Int.add_sub_cancel]
  refine moves_of_outcome (outcome_modifyShared _) fun a m h => ?_
  exact ⟨h.taken_le, h.stack, h.pc, { h.notes with underflows := old_or_last h.notes.underflows }⟩

theorem moves_noteReentrancy : Moves p caller ⟨t, q, 0⟩ noteReentrancy ⟨t, q, 0⟩ := by
  refine quiet_getPath.then fun path => moves_ite (moves_pc ?_) (quiet_pure ()).moves
  rw [Int.add_zero]
  refine moves_of_outcome (outcome_modifyShared _) fun a m h => ?_
  exact ⟨h.taken_le, h.stack, h.pc, { h.notes with reentrancy := old_or_last h.notes.reentrancy }⟩

theorem moves_noteTransfer (flow : Flow) :
    Moves p caller ⟨t, q, 0⟩ (noteTransfer flow) ⟨t, q, 0⟩ := by
  refine moves_pc (moves_of_outcome (outcome_modifyPath _) fun a m h => ?_)
  dsimp only
  rw [Int.add_zero]
  exact ⟨h.taken_le, h.stack, h.pc, { h.notes with transfers := old_or_last h.notes.transfers }⟩

theorem moves_noteCondition : Moves p caller s (noteCondition p) s := by
  refine moves_of_outcome (outcome_modifyPath _) fun a m h => ?_
  refine ⟨h.taken_le, h.stack, h.pc, { h.notes with conditions := fun i r hr => ?_ }⟩
  change Table.get? (Table.insert _ _ _) i = some r at hr
  rw [Table.get?_insert] at hr
  split at hr
  · exact .inr (Option.some.inj hr).symm
  · exact h.notes.conditions i r hr

theorem contains_foldl_mark {r : Int}
    (hmark : ∀ table c, (mark table c).contains r = true → table.contains r = true ∨ r = c)
    (calls : List Int) (table : Table Int Bool)
    (h : (calls.foldl mark table).contains r = true) : table.contains r = true ∨ r ∈ calls := by
  induction calls generalizing table with
  | nil => exact .inl h
  | cons c calls ih =>
    rcases ih _ h with h | h
    · exact (hmark table c h).imp id fun hr => List.mem_cons.2 (.inl hr)
    · exact .inr (List.mem_cons_of_mem c h)

theorem moves_markCalls
    (hmark : ∀ r table c, (mark table c).contains r = true → table.contains r = true ∨ r = c) :
    Moves p caller s (do
      let path ← getPath
      modifyShared fun sh => { sh with affected := path.calls.foldl mark sh.affected }) s := by
  refine moves_of_outcome (f := fun m => { m with shared := { m.shared with
    affected := m.path.calls.foldl mark m.shared.affected } }) (fun _ => rfl) fun a m h => ?_
  refine ⟨h.taken_le, h.stack, h.pc, { h.notes with affected := fun r hr => ?_ }⟩
  rcases contains_foldl_mark (hmark r) _ _ hr with hr | hr
  · exact h.notes.affected r hr
  · exact (h.notes.calls r hr).imp .inr id

theorem moves_noteCall : Moves p caller ⟨t, q, 0⟩ noteCall ⟨t, q, 0⟩ := by
  refine moves_pc (Moves.bind (moves_of_outcome (outcome_modifyPath _) fun a m h => ?_) fun _ =>
    moves_markCalls fun r table c hr => ?_)
  · dsimp only
    rw [Int.add_zero]
    exact ⟨h.taken_le, h.stack, h.pc, { h.notes with calls := old_or_last h.notes.calls }⟩
  · split at hr
    · exact .inl hr
    · rw [Table.contains_insert] at hr
      simpa [or_comm] using hr

end Exec

end EvmAudit
