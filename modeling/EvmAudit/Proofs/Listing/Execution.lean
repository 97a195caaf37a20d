import Mathlib.Data.List.Chain
import EvmAudit.Proofs.Graph.Shape
import EvmAudit.Proofs.Value.Words

/-! A machine on words that executes a listing: its stack holds words, every line goes on with the
one behind it, and a jump with the line at its target. -/

namespace EvmAudit

/-- The instructions of the machine. What the transaction and its block give is read by name. -/
inductive WordOp where
  | push (w : Word) | pop | dup (depth : Nat) | swap (depth : Nat)
  | add | mul | sub | lt | gt | eq | isZero | and | or | xor | not
  | read (name : String)
  | jump | jumpIf | jumpDest | stop
  deriving DecidableEq, Repr

namespace WordOp

def apply (env : Assignment) : WordOp → List Word → Option (List Word)
  | push w, s => some (w :: s)
  | pop, _ :: s => some s
  | dup n, s => s[n]?.map (· :: s)
  | swap n, a :: s => s[n]?.map fun b => b :: s.set n a
  | add, a :: b :: s => some ((a + b) :: s)
  | mul, a :: b :: s => some ((a * b) :: s)
  | sub, a :: b :: s => some ((a - b) :: s)
  | lt, a :: b :: s => some (Word.truth (a.ult b) :: s)
  | gt, a :: b :: s => some (Word.truth (b.ult a) :: s)
  | eq, a :: b :: s => some (Word.truth (a == b) :: s)
  | isZero, a :: s => some (Word.truth (a == 0) :: s)
  | and, a :: b :: s => some ((a &&& b) :: s)
  | or, a :: b :: s => some ((a ||| b) :: s)
  | xor, a :: b :: s => some ((a ^^^ b) :: s)
  | not, a :: s => some (~~~a :: s)
  | read name, s => some (env name :: s)
  | jumpDest, s => some s
  | _, _ => none

def goesOn : WordOp → Bool
  | jump | jumpIf | stop => false
  | _ => true

def named : List (String × WordOp) :=
  [("POP", pop), ("ADD", add), ("MUL", mul), ("SUB", sub), ("LT", lt), ("GT", gt), ("EQ", eq),
    ("ISZERO", isZero), ("AND", and), ("OR", or), ("XOR", xor), ("NOT", not),
    ("CALLVALUE", read "Iv"), ("CALLER", read "Is"), ("ADDRESS", read "Ia"), ("ORIGIN", read "Io"),
    ("GASPRICE", read "Ip"), ("TIMESTAMP", read "IH_s"), ("NUMBER", read "IH_i"),
    ("JUMPDEST", jumpDest), ("JUMP", jump), ("JUMPI", jumpIf), ("STOP", stop)] ++
  (List.range 16).map (fun n => ("DUP" ++ toString (n + 1), dup n)) ++
  (List.range 16).map (fun n => ("SWAP" ++ toString (n + 1), swap n))

end WordOp

namespace Listing

def pushWidth? (mnemonic : String) : Option Nat :=
  ((List.range 32).map (· + 1)).find? fun n => mnemonic = "PUSH" ++ toString n

def Line.wordOp? (l : Line) : Option WordOp :=
  match l.operand with
  | none => WordOp.named.lookup l.mnemonic
  | some digits =>
    (pushWidth? l.mnemonic).bind fun width =>
      if digits.length ≤ 2 * width then
        some (.push (BitVec.ofNat 256 (Numeral.valueFrom 16 0 digits.toList)))
      else none

namespace Line

def IsStraight (l : Line) : Prop := ∃ op, l.wordOp? = some op ∧ op.goesOn = true

variable {l : Line} {op : WordOp}

theorem wordOp?_cases (h : l.wordOp? = some op) : (l.mnemonic, op) ∈ WordOp.named ∨
    ∃ w, op = .push w := by
  unfold wordOp? at h
  split at h
  · obtain ⟨front, back, htable, -⟩ := List.lookup_eq_some_iff.1 h
    exact .inl (htable ▸ by simp)
  · obtain ⟨width, -, h⟩ := Option.bind_eq_some_iff.1 h
    split at h
    · cases h
      exact .inr ⟨_, rfl⟩
    · cases h

theorem isStraight_of_not_closes (hl : l.wordOp?.isSome = true) (hjumps : l.jumps = false)
    (hstop : l.mnemonic ≠ "STOP") : l.IsStraight := by
  obtain ⟨op, hop⟩ := Option.isSome_iff_exists.1 hl
  refine ⟨op, hop, ?_⟩
  obtain ⟨hj, hi⟩ : l.mnemonic ≠ "JUMP" ∧ l.mnemonic ≠ "JUMPI" := by simpa [jumps] using hjumps
  have htable : ∀ e ∈ WordOp.named, e.1 ≠ "JUMP" → e.1 ≠ "JUMPI" → e.1 ≠ "STOP" →
      e.2.goesOn = true := by decide
  rcases wordOp?_cases hop with hmem | ⟨w, rfl⟩
  · exact htable _ hmem hj hi hstop
  · rfl

theorem wordOp?_of_mnemonic {name : String} (hl : l.wordOp?.isSome = true) (hm : l.mnemonic = name)
    (hwidth : pushWidth? name = none) (hname : WordOp.named.lookup name = some op) :
    l.wordOp? = some op := by
  unfold wordOp? at hl ⊢
  split
  · rw [hm, hname]
  next digits ho =>
    rw [ho, hm, hwidth] at hl
    cases hl

end Line

namespace Code

variable {stack : List Word} {target : Word}

def lineAt? (c : Code) (pc : Int) : Option Line := c.lines.find? fun l => (l.address : Int) = pc

def lineAfter? (c : Code) (pc : Int) : Option Line := c.lines.find? fun l => pc < (l.address : Int)

structure State where
  pc : Int
  stack : List Word

/-- One step. The machine halts at an instruction it does not have, where items are missing, and
where no line is. -/
def step (env : Assignment) (c : Code) (s : State) : Option State := do
  let l ← c.lineAt? s.pc
  match ← l.wordOp?, s.stack with
  | .jump, target :: stack => some ⟨target.toNat, stack⟩
  | .jumpIf, target :: flag :: stack =>
    if flag = 0 then (c.lineAfter? s.pc).map fun n => ⟨n.address, stack⟩
    else some ⟨target.toNat, stack⟩
  | op, stack => do
    let stack ← op.apply env stack
    (c.lineAfter? s.pc).map fun n => ⟨n.address, stack⟩

inductive Run (env : Assignment) (c : Code) : State → List Int → State → Prop
  | refl (s : State) : Run env c s [] s
  | step {s s' t : State} {pcs : List Int} (h : c.step env s = some s')
      (hrest : Run env c s' pcs t) : Run env c s (s.pc :: pcs) t

/-- The lines are instructions of the machine, and behind one that halts a block begins. -/
structure Core (c : Code) : Prop where
  lines : ∀ l ∈ c.lines, l.wordOp?.isSome = true
  stops : c.lines.IsChain fun l n => l.mnemonic = "STOP" → n.isTarget = true

variable {c : Code} {env : Assignment} {before rest : List Line} {l n : Line}

theorem Run.append {s t u : State} {pcs pcs' : List Int} (h : Run env c s pcs t)
    (h' : Run env c t pcs' u) : Run env c s (pcs ++ pcs') u := by
  induction h with
  | refl => exact h'
  | step h _ ih => exact .step h (ih h')

theorem Run.single {s t : State} (h : c.step env s = some t) : Run env c s [s.pc] t :=
  .step h (.refl t)

theorem lineAt?_eq (hc : c.lines = before ++ l :: rest) : c.lineAt? l.address = some l := by
  have hbefore : before.find? (fun n => (n.address : Int) = l.address) = none := by
    rw [List.find?_eq_none]
    intro n hn
    have := (address_lt hc).1 n hn
    simp only [decide_eq_true_eq]
    omega
  rw [lineAt?, hc, List.find?_append, hbefore]
  simp

theorem lineAfter?_eq (hc : c.lines = before ++ l :: n :: rest) :
    c.lineAfter? l.address = some n := by
  have hc' : c.lines = (before ++ [l]) ++ n :: rest := by simp [hc]
  have hbefore : (before ++ [l]).find? (fun m => (l.address : Int) < m.address) = none := by
    rw [List.find?_eq_none]
    intro m hm
    rcases List.mem_append.1 hm with hm | hm
    · have := (address_lt hc).1 m hm
      simp only [decide_eq_true_eq]
      omega
    · simp [List.mem_singleton.1 hm]
  have hn : l.address < n.address := (address_lt hc').1 l (by simp)
  rw [lineAfter?, hc', List.find?_append, hbefore]
  simp [hn]

/-! ### Steps -/

theorem step_straight {op : WordOp} {stack' : List Word} (hc : c.lines = before ++ l :: n :: rest)
    (hl : l.wordOp? = some op) (hgo : op.goesOn = true) (h : op.apply env stack = some stack') :
    c.step env ⟨l.address, stack⟩ = some ⟨n.address, stack'⟩ := by
  simp only [step, lineAt?_eq hc, Option.bind_eq_bind, Option.bind_some, hl]
  split
  · cases hgo
  · cases hgo
  · rw [h, lineAfter?_eq hc]
    rfl

theorem step_jump (hc : c.lines = before ++ l :: rest) (hl : l.wordOp? = some .jump) :
    c.step env ⟨l.address, target :: stack⟩ = some ⟨target.toNat, stack⟩ := by
  simp only [step, lineAt?_eq hc, Option.bind_eq_bind, Option.bind_some, hl]

theorem step_jumpIf_set {flag : Word} (hc : c.lines = before ++ l :: rest)
    (hl : l.wordOp? = some .jumpIf) (hflag : flag ≠ 0) :
    c.step env ⟨l.address, target :: flag :: stack⟩ = some ⟨target.toNat, stack⟩ := by
  simp only [step, lineAt?_eq hc, Option.bind_eq_bind, Option.bind_some, hl, if_neg hflag]

theorem step_jumpIf_zero (hc : c.lines = before ++ l :: n :: rest) (hl : l.wordOp? = some .jumpIf) :
    c.step env ⟨l.address, target :: 0 :: stack⟩ = some ⟨n.address, stack⟩ := by
  simp only [step, lineAt?_eq hc, Option.bind_eq_bind, Option.bind_some, hl, if_true,
    lineAfter?_eq hc, Option.map_some]

/-! ### Blocks -/

theorem exists_span {k : Int} {b : Block} (h : c.linked.blocks.get? k = some b) :
    ∃ before rest, c.lines = before ++ c.span c.linked k ++ rest := by
  obtain ⟨before, l, rest, hc, -, rfl, hspan, -⟩ := shape_linked h
  obtain ⟨tail, htail⟩ := body_isPrefix (l.closes || presets before l) l.jumps rest
  refine ⟨before, tail, ?_⟩
  rw [hspan, hc, List.append_assoc, List.cons_append, htail]

theorem span_inner {k : Int} {front back : List Line} {x y : Line}
    (h : c.span c.linked k = front ++ x :: y :: back) : x.jumps = false ∧ y.isTarget = false := by
  cases hb : c.linked.blocks.get? k with
  | none =>
    rw [span, hb] at h
    simp at h
  | some b =>
    obtain ⟨before, l, rest, -, -, -, hspan, -⟩ := shape_linked hb
    rw [hspan] at h
    have hleads : leads (before ++ front ++ [x]) y = false := by
      cases front with
      | nil =>
        obtain ⟨rfl, hbody⟩ := List.cons.inj h
        have hnot := @not_leads_of_body _ before back l y [] rest hbody
        simpa using hnot
      | cons first front =>
        obtain ⟨rfl, hbody⟩ := List.cons.inj h
        have hsplit : body (l.closes || presets before l) l.jumps rest =
            (front ++ [x]) ++ y :: back := by simpa using hbody
        have hnot := @not_leads_of_body _ before back l y (front ++ [x]) rest hsplit
        simpa using hnot
    rw [leads_concat] at hleads
    simpa using hleads

namespace Core

variable {k : Int} {b : Block} {front : List Line} {last : Line}

theorem straight_inner (hcore : c.Core) (h : c.linked.blocks.get? k = some b)
    (hspan : c.span c.linked k = front ++ [last]) : ∀ l ∈ front, l.IsStraight := by
  intro l hl
  obtain ⟨before, rest, hc⟩ := exists_span h
  obtain ⟨inner, back, rfl⟩ := List.append_of_mem hl
  obtain ⟨n, tail, htail⟩ : ∃ n tail, back ++ [last] = n :: tail := by
    cases back with
    | nil => exact ⟨last, [], rfl⟩
    | cons n back => exact ⟨n, back ++ [last], rfl⟩
  have hinner : c.span c.linked k = inner ++ l :: n :: tail := by
    rw [hspan, List.append_assoc, List.cons_append, htail]
  obtain ⟨hjumps, htarget⟩ := span_inner hinner
  have hlines : c.lines = (before ++ inner) ++ l :: n :: (tail ++ rest) := by simp [hc, hinner]
  have hstop := hcore.stops
  rw [hlines, List.isChain_append_cons_cons] at hstop
  refine Line.isStraight_of_not_closes (hcore.lines l (by simp [hlines])) hjumps fun hm => ?_
  rw [hstop.2.1 hm] at htarget
  cases htarget

theorem isSome_last (hcore : c.Core) (h : c.linked.blocks.get? k = some b)
    (hspan : c.span c.linked k = front ++ [last]) : last.wordOp?.isSome = true := by
  obtain ⟨before, rest, hc⟩ := exists_span h
  refine hcore.lines last ?_
  rw [hc, hspan]
  simp

theorem last_of_ending (hcore : c.Core) (h : c.linked.blocks.get? k = some b)
    (hspan : c.span c.linked k = front ++ [last]) :
    (b.ending = some .unconditional → last.wordOp? = some .jump) ∧
      (b.ending = some .conditional → last.wordOp? = some .jumpIf) ∧
      (b.ending = some .fallsTo → last.IsStraight) := by
  have hlast : (c.span c.linked k).getLast? = some last := by simp [hspan]
  have hsome := isSome_last hcore h hspan
  obtain ⟨-, hconditional, hunconditional⟩ := c.wellFormed_linked.ending k b last h hlast
  refine ⟨fun he => ?_, fun he => ?_, fun he => ?_⟩
  · exact Line.wordOp?_of_mnemonic hsome (hunconditional.1 he) (by decide) (by decide)
  · exact Line.wordOp?_of_mnemonic hsome (hconditional.1 he) (by decide) (by decide)
  · rw [he] at hconditional hunconditional
    have hjumps : last.jumps = false := by
      simpa [Line.jumps] using And.intro hunconditional hconditional
    refine Line.isStraight_of_not_closes hsome hjumps fun hm => ?_
    obtain ⟨before, l, rest, -, -, -, hspan', -, -, hending, -⟩ := shape_linked h
    rw [hspan'] at hlast
    have hterminal := endingFrom_halts hlast (by simp [Line.halts, hm])
    rw [he, hterminal] at hending
    cases hending

end Core

theorem filter_span {k : Int} {b : Block} (h : c.linked.blocks.get? k = some b) :
    ((c.span c.linked k).map fun l => (l.address : Int)).filter c.linked.blocks.contains = [k] := by
  obtain ⟨before, l, rest, hc, hl, rfl, hspan, -⟩ := shape_linked h
  have hfirst : c.linked.blocks.contains l.address = true :=
    (c.contains_linked _).2 ⟨before, l, rest, hc, hl, rfl⟩
  have hrest (n : Line) (hn : n ∈ body (l.closes || presets before l) l.jumps rest) :
      ¬ c.linked.blocks.contains n.address = true := by
    intro hcontains
    have hlt : (l.address : Int) < n.address :=
      (address_lt hc).2.lt_of_mem ((body_isPrefix _ _ _).subset hn)
    have hmem : n ∈ c.span c.linked l.address := by
      rw [hspan]
      exact List.mem_cons_of_mem l hn
    have hbelow := (span_bounds hmem).2.2 n.address ((c.contains_linked _).1 hcontains) hlt
    omega
  rw [hspan, List.map_cons, List.filter_cons_of_pos hfirst, List.filter_eq_nil_iff.2]
  intro k hk
  obtain ⟨n, hn, rfl⟩ := List.mem_map.1 hk
  exact hrest n hn

end Code

end Listing

end EvmAudit
