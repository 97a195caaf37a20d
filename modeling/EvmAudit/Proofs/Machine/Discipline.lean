import EvmAudit.Proofs.Machine.Moves

/-! The stack discipline of the instruction set: what an instruction takes and puts is what the
instruction table says, and all that is deeper stays. -/

namespace EvmAudit

namespace Operation

theorem uses_ofWords (name : String) (rest : List String) :
    Exec.uses (ofWords name rest) = Exec.uses (ofWords name []) := by
  unfold ofWords
  split
  · rfl
  · split
    · cases Numeral.read 10 _ <;> rfl
    · rfl
    · rfl
    · rfl

theorem ofWords_eq_unknown (name : String) (rest : List String) :
    ofWords name rest = unknown ↔ ofWords name [] = unknown := by
  unfold ofWords
  split
  · rfl
  · split <;> simp

end Operation

namespace Opcode

def Fits (name : String) (o : Opcode) : Prop :=
  Operation.ofWords name [] = .unknown ∨
    (Exec.uses (.ofWords name [])).map (fun s => (s.taken, s.put)) = some (o.pops, o.pushes)

instance (name : String) (o : Opcode) : Decidable (Fits name o) :=
  inferInstanceAs (Decidable (_ ∨ _))

theorem fits_table : ∀ e ∈ table ++ numberedTable, Fits e.1 e.2 := by
  decide +kernel

theorem fits_of_ofName? {name : String} {o : Opcode} (h : ofName? name = some o) : Fits name o := by
  obtain ⟨before, after, htable, -⟩ := List.lookup_eq_some_iff.1 h
  exact fits_table (name, o) (htable ▸ by simp)

end Opcode

namespace Exec

variable {instruction : Instruction}

theorem operation_ofText (text : String) :
    ∃ rest, (Instruction.ofText text).operation = .ofWords (Instruction.ofText text).name rest := by
  unfold Instruction.ofText
  split
  · exact ⟨[], rfl⟩
  · exact ⟨_, rfl⟩

theorem step_of_unread {ctx : Context} {site : Site} (h : uses instruction.operation = none)
    (hswap : ∀ k, instruction.operation ≠ .swap (some (.negSucc k))) (m m' : Machine) :
    (step ctx site instruction).outcome m ≠ (.ok (), m') := by
  intro hstep
  have hpc (s : Motion) : m'.marks.pc = m.marks.pc + s.passed :=
    (((moves_unread h hswap).of_perform m.marks m (Motion.reached_start site.caller m.marks)).2 ()
      m' hstep).pc
  have hstays : m'.marks.pc = m.marks.pc + 0 := hpc ⟨0, 0, 0⟩
  have hmoves : m'.marks.pc = m.marks.pc + 1 := hpc ⟨0, 0, 1⟩
  omega

/-- An instruction of the table fails on a stack with fewer items than it takes; if it succeeds, it
has replaced those by as many as it puts, and the items below them are as before. -/
theorem stack_of_opcode (ctx : Context) (site : Site) (text : String) {o : Opcode}
    (h : Opcode.ofName? (Instruction.ofText text).name = some o) (m : Machine) :
    (m.path.stack.length < o.pops →
      ∃ e m', (step ctx site (.ofText text)).outcome m = (.error e, m')) ∧
    ∀ m', (step ctx site (.ofText text)).outcome m = (.ok (), m') →
      o.pops ≤ m.path.stack.length ∧
      m'.path.stack.length = m.path.stack.length - o.pops + o.pushes ∧
      m'.path.stack.drop o.pushes = m.path.stack.drop o.pops := by
  have hok (m' : Machine) (hstep : (step ctx site (.ofText text)).outcome m = (.ok (), m')) :
      o.pops ≤ m.path.stack.length ∧
        ∃ top, top.length = o.pushes ∧ m'.path.stack = top ++ m.path.stack.drop o.pops := by
    obtain ⟨rest, hop⟩ := operation_ofText text
    rcases Opcode.fits_of_ofName? h with hunknown | hfits
    · rw [← Operation.ofWords_eq_unknown _ rest, ← hop] at hunknown
      exact absurd hstep (step_of_unread (hunknown ▸ rfl) (fun k => hunknown ▸ nofun) m m')
    · rw [← Operation.uses_ofWords _ rest, ← hop] at hfits
      obtain ⟨s, huses, hs⟩ := Option.map_eq_some_iff.1 hfits
      obtain ⟨htaken, hput⟩ := Prod.mk.inj hs
      rw [← htaken, ← hput]
      have hreached :=
        (moves_step huses m.marks m (Motion.reached_start site.caller m.marks)).2 () m' hstep
      exact ⟨hreached.taken_le, hreached.stack⟩
  refine ⟨fun hlt => ?_, fun m' hstep => ?_⟩
  · rcases hstep : (step ctx site (.ofText text)).outcome m with ⟨e | _, m'⟩
    · exact ⟨e, m', rfl⟩
    · exact absurd (hok m' hstep).1 (Nat.not_le.2 hlt)
  · obtain ⟨hle, top, hlength, hstack⟩ := hok m' hstep
    refine ⟨hle, ?_, ?_⟩
    · rw [hstack, List.length_append, List.length_drop, hlength, Nat.add_comm]
    · rw [hstack, ← hlength, List.drop_left]

/-- A reduced sum of numbers, on a stack with one item more than it takes. -/
theorem stack_of_opcode_addMod : ∃ m',
    (step {} { block := 0 } (.ofText "ADDMOD ")).outcome
      { path := { stack := [.int 5, .int 6, .int 4, .int 9] } } = (.ok (), m') ∧
    m'.path.stack.drop 1 = [.int 9] := by
  refine ⟨_, rfl, ?_⟩
  exact ((stack_of_opcode {} { block := 0 } "ADDMOD " (o := ⟨0x08, 3, 1, false⟩) rfl
    { path := { stack := [.int 5, .int 6, .int 4, .int 9] } }).2 _ rfl).2.2

end Exec

end EvmAudit
