import EvmAudit.Proofs.Listing.Line

/-! What reading one line does to the outline, and so what reading a whole listing gives. -/

namespace EvmAudit.Listing

namespace Line

def isTarget (l : Line) : Bool := l.mnemonic = "JUMPDEST"

def halts (l : Line) : Bool :=
  ["STOP", "RETURN", "SUICIDE", "REVERT", "ASSERTFAIL"].contains l.mnemonic

def jumps (l : Line) : Bool := l.mnemonic = "JUMP" || l.mnemonic = "JUMPI"

def ending (l : Line) : Option Ending :=
  if l.halts then some .terminal
  else if l.mnemonic = "JUMP" then some .unconditional
  else if l.mnemonic = "JUMPI" then some .conditional
  else none

def closes (l : Line) : Bool := l.halts || l.jumps

def isPush (l : Line) : Bool := Text.startsWith l.mnemonic "PUSH"

/-- Whether an item of the source map is the line's own. -/
def fits (l : Line) (item : SourceItem) (name : String) : Except Fault Bool :=
  if l.isPush then fitsPush item name (wordAt 1 l.text) else .ok (fitsOther name (wordAt 0 l.text))

theorem of_target {l : Line} (h : l.mnemonic = "JUMPDEST") :
    l.isPush = false ∧ l.halts = false ∧ l.jumps = false ∧ l.ending = none := by
  rw [isPush, ending, jumps, halts, h]
  decide

theorem of_halts {l : Line} (h : l.halts = true) : l.isPush = false ∧ l.jumps = false ∧
    l.ending = some .terminal := by
  have hm := h
  simp only [halts, List.contains_eq_mem, List.mem_cons, List.not_mem_nil, or_false,
    decide_eq_true_eq] at hm
  refine ⟨?_, ?_, by rw [ending, h]; rfl⟩
  · rcases hm with hm | hm | hm | hm | hm <;> rw [isPush, hm] <;> decide
  · rcases hm with hm | hm | hm | hm | hm <;> rw [jumps, hm] <;> decide

end Line

namespace Reading

variable {r r' : Reading} {x : Lexeme} {xs : List Lexeme}

structure Ready (r : Reading) : Prop where
  mode : r.mode = .plain
  atLineStart : r.atLineStart = true
  content : r.content = ""

def blockOf (r : Reading) (l : Line) : Int :=
  if r.atBlockStart || l.isTarget then l.address else r.block

def endsAfter (r : Reading) (l : Line) : Table Int Int :=
  if l.isTarget then
    if r.outline.ends.contains r.address then r.outline.ends
    else r.outline.ends.insert (if r.atBlockStart then (l.address : Int) else r.block) r.address
  else if l.closes then r.outline.ends.insert (r.blockOf l) l.address
  else r.outline.ends

def endingsAfter (r : Reading) (l : Line) : Table Int Ending :=
  match l.ending with
  | some e => r.outline.endings.insert (r.blockOf l) e
  | none => r.outline.endings

def line (r : Reading) (l : Line) : Reading :=
  { r with
    outline := { r.outline with
      instructions := r.outline.instructions.insert l.address l.text
      ends := r.endsAfter l
      endings := r.endingsAfter l }
    address := l.address
    previous := r.address
    block := r.blockOf l
    atBlockStart := l.jumps }

@[simp] theorem line_block (r : Reading) (l : Line) : (r.line l).block = r.blockOf l := rfl

@[simp] theorem line_address (r : Reading) (l : Line) : (r.line l).address = l.address := rfl

@[simp] theorem line_atBlockStart (r : Reading) (l : Line) :
    (r.line l).atBlockStart = l.jumps := rfl

@[simp] theorem line_ends (r : Reading) (l : Line) :
    (r.line l).outline.ends = r.endsAfter l := rfl

@[simp] theorem line_endings (r : Reading) (l : Line) :
    (r.line l).outline.endings = r.endingsAfter l := rfl

theorem Ready.line (h : r.Ready) (l : Line) : (r.line l).Ready :=
  ⟨h.mode, h.atLineStart, h.content⟩

def placed (r : Reading) (l : Line) : Reading :=
  { r with
    previous := r.address
    address := l.address
    block := if r.atBlockStart then (l.address : Int) else r.block
    atBlockStart := false
    atLineStart := false }

theorem steps_cons (h : r.step x = (r', none)) : steps (x :: xs) r = steps xs r' := by
  rw [steps, h]

theorem Ready.step_address (h : r.Ready) (l : Line) (row : Nat) :
    r.step ⟨.number, Nat.repr l.address, row, 0⟩ = (r.placed l, none) := by
  simp only [step, h.mode, h.atLineStart, atAddress, Numeral.read_repr l.address_short, if_true]
  cases hb : r.atBlockStart <;> simp [placed, hb, h.mode]

def entered (r : Reading) (l : Line) (content : String) (mode : Mode) : Reading :=
  { r.line l with
    outline := { (r.line l).outline with instructions := r.outline.instructions }
    content, mode
    atLineStart := false }

theorem mnemonic_placed (hr : r.Ready) (l : Line) :
    (r.placed l).mnemonic l.mnemonic = r.entered l "" (if l.isPush then .skip else .plain) := by
  unfold mnemonic
  by_cases htarget : l.mnemonic = "JUMPDEST"
  · obtain ⟨hpush, hhalts, hjumps, hending⟩ := Line.of_target htarget
    have ht : l.isTarget = true := by simp [Line.isTarget, htarget]
    simp [htarget, placed, entered, line, blockOf, endsAfter, endingsAfter, hpush, ht, hjumps,
      hending, hr.mode, hr.content]
  have ht : l.isTarget = false := by simp [Line.isTarget, htarget]
  by_cases hhalts : l.halts = true
  · obtain ⟨hpush, hjumps, hending⟩ := Line.of_halts hhalts
    have hm : ["STOP", "RETURN", "SUICIDE", "REVERT", "ASSERTFAIL"].contains l.mnemonic := hhalts
    simp only [htarget, hm, if_false, if_true]
    simp [placed, entered, line, blockOf, endsAfter, endingsAfter, hpush, ht, hjumps, hhalts,
      hending, Line.closes, endBlock, hr.mode, hr.content]
  have hm : ¬ ["STOP", "RETURN", "SUICIDE", "REVERT", "ASSERTFAIL"].contains l.mnemonic := hhalts
  by_cases hjump : l.mnemonic = "JUMP"
  · have hpush : l.isPush = false := by rw [Line.isPush, hjump]; decide
    simp [placed, entered, line, blockOf, endsAfter, endingsAfter, hpush, ht, hjump, hhalts,
      Line.jumps, Line.ending, Line.closes, endBlock, hr.mode, hr.content]
  by_cases hjumpi : l.mnemonic = "JUMPI"
  · have hpush : l.isPush = false := by rw [Line.isPush, hjumpi]; decide
    simp [placed, entered, line, blockOf, endsAfter, endingsAfter, hpush, ht, hjumpi, hhalts,
      Line.jumps, Line.ending, Line.closes, endBlock, hr.mode, hr.content]
  simp only [htarget, hm, hjump, hjumpi, if_false]
  by_cases hpush : l.isPush = true
  · have hp : Text.startsWith l.mnemonic "PUSH" = true := hpush
    simp [hp, placed, entered, line, blockOf, endsAfter, endingsAfter, hpush, ht, hjump, hjumpi,
      hhalts, Line.jumps, Line.ending, Line.closes, hr.content]
  · have hp : ¬ Text.startsWith l.mnemonic "PUSH" = true := hpush
    simp [hp, placed, entered, line, blockOf, endsAfter, endingsAfter, hpush, ht, hjump, hjumpi,
      hhalts, Line.jumps, Line.ending, Line.closes, hr.mode, hr.content]

theorem mnemonic_ne_sign (l : Line) : l.mnemonic ≠ "=" ∧ l.mnemonic ≠ ">" := by
  have h := l.mnemonic_ok
  constructor <;> intro he <;> rw [he] at h <;> exact absurd h (by decide)

theorem Ready.step_mnemonic (hr : r.Ready) (l : Line) (row column : Nat) :
    (r.placed l).step ⟨.name, l.mnemonic, row, column⟩ =
      (r.entered l (l.mnemonic ++ " ") (if l.isPush then .skip else .plain), none) := by
  have hmode : (r.placed l).mode = .plain := hr.mode
  simp only [step, hmode, mnemonic_placed hr, append, mnemonic_ne_sign l, if_false,
    decide_false, Bool.or_self, Bool.false_eq_true]
  simp [entered]

/-- What the source map gives to the instruction at an address, and leaves. -/
def given (r : Reading) (address : Int) (aligned : Aligned) : Reading :=
  { r with
    items := some aligned.2
    outline := { r.outline with
      items := match aligned.1 with
        | some item => r.outline.items.insert address item
        | none => r.outline.items } }

/-- Goes on with the lexemes behind a step, unless the step has failed. -/
def resume (xs : List Lexeme) : Reading × Option Fault → Reading × Option Fault
  | (r, none) => steps xs r
  | (r, some cause) => (r, some cause)

theorem steps_cons_eq (x : Lexeme) (xs : List Lexeme) (r : Reading) :
    steps (x :: xs) r = resume xs (r.step x) := by
  rw [steps]
  rcases r.step x with ⟨r', _ | _⟩ <;> rfl

/-- What reading a line comes to. -/
def stored (r : Reading) (l : Line) : Reading × Option Fault :=
  match r.items with
  | none => (r.line l, none)
  | some items =>
    match align l.fits items with
    | .error cause => ({ r.line l with content := l.text }, some cause)
    | .ok aligned => ((r.line l).given l.address aligned, none)

theorem Ready.store_entered (hr : r.Ready) (l : Line) (mode : Mode) :
    (r.entered l l.text mode).store l.fits = r.stored l := by
  have hitems : (r.entered l l.text mode).items = r.items := rfl
  rw [store, stored, hitems]
  cases hi : r.items with
  | none => simp [entered, Reading.line, hr.content, hr.atLineStart, hr.mode, hi]
  | some items =>
    cases ha : align l.fits items with
    | error cause => simp [entered, Reading.line, hr.atLineStart, hr.mode, ha, hi]
    | ok aligned =>
      obtain ⟨_ | item, rest⟩ := aligned <;>
        simp [entered, given, Reading.line, hr.content, hr.atLineStart, hr.mode, ha]

theorem step_equals (r : Reading) (l : Line) (content : String) (row column : Nat) :
    (r.entered l content .plain).step ⟨.sign, "=", row, column⟩ =
      (r.entered l content .plain, none) := rfl

theorem step_greater (r : Reading) (l : Line) (content : String) (row column : Nat) :
    (r.entered l content .plain).step ⟨.sign, ">", row, column⟩ =
      (r.entered l content .plain, none) := rfl

theorem step_skipped (r : Reading) (l : Line) (content : String) (row column : Nat) :
    (r.entered l content .skip).step ⟨.sign, "=", row, column⟩ =
      (r.entered l content (.operand ""), none) := rfl

theorem Ready.steps_line (hr : r.Ready) (l : Line) (row : Nat) (rest : List Lexeme) :
    steps (l.lexemes row ++ rest) r = resume rest (r.stored l) := by
  rw [Line.lexemes, List.cons_append, List.cons_append, steps_cons (hr.step_address l row),
    steps_cons (hr.step_mnemonic l row _), List.append_assoc, List.singleton_append]
  have hsign : (Numeral.read 16 ">").isSome = false := by decide
  -- Outside a push the words of the line are stored as they stand.
  have hother : l.isPush = false →
      ∀ column, (r.entered l l.text .plain).step ⟨.newline, "\n", row, column⟩ = r.stored l := by
    intro hpush column
    have hfits : l.fits = fun _ name => .ok (fitsOther name (wordAt 0 l.text)) := by
      funext item name
      simp [Line.fits, hpush]
    rw [← hr.store_entered l .plain, hfits]
    rfl
  cases ho : l.operand with
  | none =>
    have hpush : l.isPush = false := by
      by_contra h
      have := l.operand_of_push (by simpa [Line.isPush] using h)
      simp [ho] at this
    have htext : l.text = l.mnemonic ++ " " := by simp [Line.text, ho]
    rw [Line.operandLexemes, ho, List.nil_append, hpush, if_neg (by simp), ← htext, steps_cons_eq,
      hother hpush]
  | some s =>
    obtain ⟨hne, hhex⟩ := Line.operand_digits ho
    have htext : l.text = l.mnemonic ++ " " ++ ("0x" ++ s) ++ " " := by simp [Line.text, ho]
    have hread : (Numeral.read 16 ("0x" ++ s)).isSome = true := by
      have h := Numeral.read_hex hne hhex
      have hs : String.ofList ('0' :: 'x' :: s.toList) = "0x" ++ s := by
        rw [← String.toList_inj]
        simp
      rw [← hs, h]
      rfl
    have hword : "0x" ++ s ≠ "=" ∧ "0x" ++ s ≠ ">" := by
      constructor <;> intro h <;> rw [h] at hread <;> exact absurd hread (by decide)
    rw [Line.operandLexemes, ho]
    simp only [List.cons_append, List.nil_append]
    cases hpush : l.isPush with
    | false =>
      -- The two signs are passed over, and the operand is one more word.
      have hnumber : ∀ column, (r.entered l (l.mnemonic ++ " ") .plain).step
          ⟨.number, "0x" ++ s, row, column⟩ = (r.entered l l.text .plain, none) := by
        intro column
        simp [step, entered, append, htext, hword]
      rw [if_neg (by simp), steps_cons (step_equals r l _ row _),
        steps_cons (step_greater r l _ row _), steps_cons (hnumber _), steps_cons_eq, hother hpush]
    | true =>
      -- After a push the first sign is skipped, and what reads as hexadecimal is collected.
      have hgreater : ∀ column, (r.entered l (l.mnemonic ++ " ") (.operand "")).step
          ⟨.sign, ">", row, column⟩ = (r.entered l (l.mnemonic ++ " ") (.operand ""), none) := by
        intro column
        simp [step, entered, hsign]
      have hnumber : ∀ column, (r.entered l (l.mnemonic ++ " ") (.operand "")).step
          ⟨.number, "0x" ++ s, row, column⟩ =
          (r.entered l (l.mnemonic ++ " ") (.operand ("0x" ++ s)), none) := by
        intro column
        simp [step, entered, hread]
      have hnewline : ∀ column, (r.entered l (l.mnemonic ++ " ") (.operand ("0x" ++ s))).step
          ⟨.newline, "\n", row, column⟩ = r.stored l := by
        intro column
        have hfits : l.fits = fun item name => fitsPush item name (wordAt 1 l.text) := by
          funext item name
          simp [Line.fits, hpush]
        rw [← hr.store_entered l (.operand ("0x" ++ s)), hfits, htext]
        rfl
      rw [if_pos rfl, steps_cons (step_skipped r l _ row _), steps_cons (hgreater _),
        steps_cons (hnumber _), steps_cons_eq, hnewline]

theorem Ready.initial (items : Option (List (Option SourceItem))) : Ready { items } :=
  ⟨rfl, rfl, rfl⟩

theorem stored_cases {l : Line} (h : r.stored l = (r', none)) :
    r.items = none ∧ r' = r.line l ∨ ∃ items aligned, r.items = some items ∧
        align l.fits items = .ok aligned ∧ r' = (r.line l).given l.address aligned := by
  unfold stored at h
  cases hi : r.items with
  | none =>
    simp only [hi, Prod.mk.injEq, and_true] at h
    exact .inl ⟨rfl, h.symm⟩
  | some items =>
    cases ha : align l.fits items with
    | error cause => simp [hi, ha] at h
    | ok aligned =>
      simp only [hi, ha, Prod.mk.injEq, and_true] at h
      exact .inr ⟨items, aligned, rfl, ha, h.symm⟩

theorem Ready.stored {l : Line} (hr : r.Ready) (h : r.stored l = (r', none)) : r'.Ready := by
  obtain ⟨-, rfl⟩ | ⟨items, aligned, -, -, rfl⟩ := stored_cases h
  · exact hr.line l
  · exact ⟨hr.mode, hr.atLineStart, hr.content⟩

/-- Reads the lines of a listing; behind the last one stands an empty word. -/
def storeLines : List Line → Reading → Reading × Option Fault
  | [], r => ({ r with content := " " }, none)
  | l :: ls, r =>
    match r.stored l with
    | (r', none) => storeLines ls r'
    | (r', some cause) => (r', some cause)

theorem Ready.steps_lexemesFrom (hr : r.Ready) (ls : List Line) (row : Nat) :
    steps (lexemesFrom row ls) r = storeLines ls r := by
  induction ls generalizing r row with
  | nil => simp [lexemesFrom, steps, step, hr.mode, append, storeLines, hr.content]
  | cons l ls ih =>
    rw [lexemesFrom, hr.steps_line l row, storeLines]
    cases hs : r.stored l with
    | mk r₁ cause =>
      cases cause with
      | some cause => rfl
      | none => exact ih (hr.stored hs) (row + 1)

def lines (r : Reading) (ls : List Line) : Reading := ls.foldl line r

theorem log_lines (r : Reading) (ls : List Line) : (r.lines ls).log = r.log := by
  induction ls generalizing r with
  | nil => rfl
  | cons l ls ih => exact ih (r.line l)

theorem storeLines_of_none (hi : r.items = none) (ls : List Line) :
    storeLines ls r = ({ r.lines ls with content := " " }, none) := by
  induction ls generalizing r with
  | nil => rfl
  | cons l ls ih =>
    have hs : r.stored l = (r.line l, none) := by simp [stored, hi]
    rw [storeLines, hs]
    exact ih hi

def forget (r : Reading) : Reading :=
  { r with items := none, outline := { r.outline with items := {} } }

theorem forget_stored {l : Line} (h : r.stored l = (r', none)) : r'.forget = r.forget.line l := by
  obtain ⟨-, rfl⟩ | ⟨items, aligned, -, -, rfl⟩ := stored_cases h <;> rfl

theorem forget_storeLines {ls : List Line} (h : storeLines ls r = (r', none)) :
    r'.forget = { r.forget.lines ls with content := " " } := by
  induction ls generalizing r with
  | nil =>
    simp only [storeLines, Prod.mk.injEq, and_true] at h
    exact h ▸ rfl
  | cons l ls ih =>
    rw [storeLines] at h
    cases hs : r.stored l with
    | mk r₁ cause =>
      cases cause with
      | some cause => simp [hs] at h
      | none =>
        rw [hs] at h
        rw [ih h, forget_stored hs]
        rfl

end Reading

def outlineOf (ls : List Line) : Outline := (Reading.lines {} ls).close

theorem outline_stored (items : Option (List (Option SourceItem))) (ls : List Line) :
    outline items (ls.map Line.row) =
      match Reading.storeLines ls { items } with
      | (r, some cause) => (r.outline, r.log, some cause)
      | (r, none) => (r.close, r.log, none) := by
  have hsteps := (Reading.Ready.initial items).steps_lexemesFrom ls 1
  rw [outline, lexemes_rows]
  cases hs : Reading.storeLines ls { items } with
  | mk r cause =>
    rw [hs] at hsteps
    cases cause <;> simp only [hsteps]

theorem outline_rows (ls : List Line) :
    outline none (ls.map Line.row) = (outlineOf ls, [], none) := by
  rw [outline_stored, Reading.storeLines_of_none rfl]
  simp [outlineOf, Reading.close, Reading.log_lines]

theorem exists_storeLines {items : Option (List (Option SourceItem))} {ls : List Line}
    (h : (outline items (ls.map Line.row)).2.2 = none) :
    ∃ r, Reading.storeLines ls { items } = (r, none) ∧
    (outline items (ls.map Line.row)).1 = r.close := by
  rw [outline_stored] at h ⊢
  cases hs : Reading.storeLines ls { items } with
  | mk r cause =>
    cases cause with
    | some cause => simp [hs] at h
    | none => exact ⟨r, rfl, rfl⟩

theorem outline_items {items : Option (List (Option SourceItem))} {ls : List Line}
    (h : (outline items (ls.map Line.row)).2.2 = none) :
    { (outline items (ls.map Line.row)).1 with items := {} } = outlineOf ls := by
  obtain ⟨r, hr, hclose⟩ := exists_storeLines h
  have hforget := Reading.forget_storeLines hr
  rw [hclose]
  change r.forget.close = _
  rw [hforget]
  rfl

end EvmAudit.Listing
