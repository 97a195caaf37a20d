import EvmAudit.Sequence
import EvmAudit.Text.Numeral

/-! Calls whose result is not looked at. The listing is given as texts: the address, the mnemonic,
its number and its operand, for each instruction. -/

namespace EvmAudit

abbrev InstructionTexts := List String

namespace InstructionTexts

def part (row : InstructionTexts) (i : Nat) : Except Fault String :=
  (row[i]?).elim (.error .missingItem) .ok

def name (row : InstructionTexts) : Except Fault String := part row 1

def number (row : InstructionTexts) (i : Nat) : Except Fault Int := do
  match Numeral.read 10 (← part row i) with
  | some n => return n
  | none => throw .badNumeral

end InstructionTexts

namespace Callstack

/-! ### Reading a listing -/

/-- The texts of an instruction after its address: a mnemonic in capitals, its number, an arrow with
the sign of a hexadecimal numeral, and what follows without a blank. -/
def mention? (address : List Char) (cs : List Char) :
    Option (InstructionTexts × { r : List Char // r.length ≤ cs.length }) :=
  match cs with
  | ' ' :: after =>
    let name := after.takeWhile Char.isUpper
    if name.isEmpty then none
    else
      let rest := after.dropWhile Char.isUpper
      let number := rest.takeWhile Text.isDecimalDigit
      let rest' := rest.dropWhile Text.isDecimalDigit
      let tail := (Text.dropStart? " => 0x".toList rest').getD rest'
      let operand := tail.takeWhile fun c => !Text.isBlank c
      let last := tail.dropWhile fun c => !Text.isBlank c
      have h : last.length ≤ (' ' :: after).length := by
        have h₁ : rest.length ≤ after.length := (List.dropWhile_sublist _).length_le
        have h₂ : rest'.length ≤ rest.length := (List.dropWhile_sublist _).length_le
        have h₃ : tail.length ≤ rest'.length := Text.length_getD_dropStart? _ _
        have h₄ : last.length ≤ tail.length := (List.dropWhile_sublist _).length_le
        simp only [List.length_cons]
        omega
      some ([address, name, number, operand].map String.ofList, ⟨last, h⟩)
  | _ => none

def mentions : List Char → List InstructionTexts
  | [] => []
  | c :: cs =>
    if Text.isDecimalDigit c then
      match mention? (c :: cs.takeWhile Text.isDecimalDigit) (cs.dropWhile Text.isDecimalDigit) with
      | some (row, ⟨rest, _⟩) => row :: mentions rest
      | none => mentions (cs.dropWhile Text.isDecimalDigit)
    else mentions cs
termination_by cs => cs.length
decreasing_by
  all_goals
    have := (List.dropWhile_sublist Text.isDecimalDigit (l := cs)).length_le
    simp only [List.length_cons]
    omega

/-! ### Calls -/

def nameAt (listing : List InstructionTexts) (i : Int) : Except Fault String := do
  (← itemAt listing i).name

def dropsFrom (listing : List InstructionTexts) (i : Int) : Nat → Except Fault Bool
  | 0 => .ok true
  | n + 1 => do
    if (← nameAt listing i) = "POP" then dropsFrom listing (i + 1) n else return false

/-- The number of items that are dropped after the call at a position, if its result is then on top
of the stack. -/
def dropped (listing : List InstructionTexts) (i : Int) : Except Fault (Option Int) := do
  if (← nameAt listing (i + 1)) ≠ "SWAP" then return none
  let count ← (← itemAt listing (i + 1)).number 2
  if ← dropsFrom listing (i + 2) count.toNat then return some count else return none

def isTest (first second third : String) : Bool :=
  first = "ISZERO" || (first = "DUP" && second = "ISZERO") ||
    (first = "JUMPDEST" && second = "ISZERO") ||
    (first = "JUMPDEST" && second = "DUP" && third = "ISZERO")

def tested (listing : List InstructionTexts) (i : Int) : Except Fault Bool := do
  return isTest (← nameAt listing i) (← nameAt listing (i + 1)) (← nameAt listing (i + 2))

def atEnd {α : Type} (default : α) : Except Fault α → Except Fault α
  | .error .missingItem => .ok default
  | x => x

def uncheckedAt (listing : List InstructionTexts) (row : InstructionTexts) (i : Int) :
    Except Fault (Option Int) := do
  let name ← row.name
  if name ≠ "CALL" ∧ name ≠ "CALLCODE" then return none
  let pc ← row.number 0
  match ← atEnd none (dropped listing i) with
  | none => return none
  | some count =>
    if ← atEnd false (tested listing (i + count + 2)) then return none else return some pc

def uncheckedFrom (listing : List InstructionTexts) (i : Nat) :
    List InstructionTexts → Except Fault (List Int)
  | [] => .ok []
  | row :: rest => do
    let here ← uncheckedAt listing row i
    return here.toList ++ (← uncheckedFrom listing (i + 1) rest)

def unchecked (listing : List InstructionTexts) : Except Fault (List Int) :=
  uncheckedFrom listing 0 listing

end Callstack

end EvmAudit
