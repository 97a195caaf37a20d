import Mathlib
import EvmAudit.Callstack

/-! Calls whose result is dropped to. Those that are tested right behind are passed over, provided
that the listing goes on for three instructions there. -/

namespace EvmAudit.Callstack

variable {listing front rest : List InstructionTexts} {row : InstructionTexts} {i : Int}

def nameOf (row : InstructionTexts) : String := row.getD 1 ""

def numberOf (row : InstructionTexts) (i : Nat) : Int := (Numeral.read 10 (row.getD i "")).getD 0

/-- A row has its four texts. The address is a numeral, and the number too where items are
exchanged. -/
abbrev Legible (row : InstructionTexts) : Prop :=
  row.length = 4 ∧ Numeral.read 10 (row.getD 0 "") = some (numberOf row 0) ∧
    (nameOf row = "SWAP" → Numeral.read 10 (row.getD 2 "") = some (numberOf row 2) ∧
      0 ≤ numberOf row 2)

def IsCall (row : InstructionTexts) : Prop := nameOf row = "CALL" ∨ nameOf row = "CALLCODE"

instance : DecidablePred IsCall := fun _ => inferInstanceAs (Decidable (_ ∨ _))

def DropsTo (swap : InstructionTexts) (rest : List InstructionTexts) : Prop :=
  nameOf swap = "SWAP" ∧
    (rest.take (numberOf swap 2).toNat).map nameOf = List.replicate (numberOf swap 2).toNat "POP"

instance (swap : InstructionTexts) (rest : List InstructionTexts) : Decidable (DropsTo swap rest) :=
  inferInstanceAs (Decidable (_ ∧ _))

/-- The address of a call whose result is dropped to, and what follows. -/
def behindCall? : List InstructionTexts → Option (Int × List InstructionTexts)
  | row :: swap :: rest =>
    if IsCall row ∧ DropsTo swap rest then
      some (numberOf row 0, rest.drop (numberOf swap 2).toNat)
    else none
  | _ => none

def calls (listing : List InstructionTexts) : List (Int × List InstructionTexts) :=
  listing.tails.filterMap behindCall?

def tests (rest : List InstructionTexts) : Bool :=
  [["ISZERO"], ["DUP", "ISZERO"], ["JUMPDEST", "ISZERO"], ["JUMPDEST", "DUP", "ISZERO"]].any
    (·.isPrefixOf (rest.map nameOf))

/-! ### Rows of a listing -/

theorem Legible.name (h : Legible row) : row.name = .ok (nameOf row) := by
  have hlength := h.1
  rw [InstructionTexts.name, InstructionTexts.part, nameOf, List.getD_eq_getElem?_getD,
    List.getElem?_eq_getElem (by omega)]
  rfl

theorem number_eq {k : Nat} {n : Int} (h : Numeral.read 10 (row.getD k "") = some n)
    (hk : k < row.length) : row.number k = .ok n := by
  rw [List.getD_eq_getElem?_getD, List.getElem?_eq_getElem hk, Option.getD_some] at h
  simp [InstructionTexts.number, InstructionTexts.part, List.getElem?_eq_getElem hk, h, bind,
    Except.bind, pure, Except.pure]

theorem itemAt_eq (hl : listing = front ++ rest) (hi : i = front.length) :
    itemAt listing i = (rest.head?).elim (.error .missingItem) .ok := by
  rw [hl, hi, itemAt_natCast, List.getElem?_append_right (Nat.le_refl _), Nat.sub_self,
    List.head?_eq_getElem?]

theorem nameAt_end (hl : listing = front) (hi : i = front.length) :
    nameAt listing i = .error .missingItem := by
  rw [← List.append_nil front] at hl
  rw [nameAt, itemAt_eq hl hi]
  rfl

theorem nameAt_eq (hl : listing = front ++ row :: rest) (hi : i = front.length) (h : Legible row) :
    nameAt listing i = .ok (nameOf row) := by
  rw [nameAt, itemAt_eq hl hi]
  exact h.name

/-! ### Behind a call -/

theorem dropsFrom_eq (n : Nat) (hl : listing = front ++ rest) (hi : i = front.length)
    (h : ∀ row ∈ rest, Legible row) : (rest.take n).map nameOf = List.replicate n "POP" ∧
      dropsFrom listing i n = .ok true ∨ (rest.take n).map nameOf ≠ List.replicate n "POP" ∧
        (dropsFrom listing i n = .ok false ∨ dropsFrom listing i n = .error .missingItem) := by
  induction n generalizing front rest i with
  | zero => simp [dropsFrom]
  | succ n ih =>
    rw [dropsFrom]
    cases rest with
    | nil =>
      have hname := nameAt_end (by simpa using hl) hi
      simp [hname, List.replicate_succ, bind, Except.bind]
    | cons row rest =>
      have hname := nameAt_eq hl hi (h row (by simp))
      by_cases hpop : nameOf row = "POP"
      · have hl' : listing = (front ++ [row]) ++ rest := by simp [hl]
        have hnext := ih (i := i + 1) hl' (by simp [hi]) fun r hr => h r (by simp [hr])
        simpa [hname, List.replicate_succ, hpop, bind, Except.bind] using hnext
      · simp [hname, List.replicate_succ, hpop, bind, Except.bind, pure, Except.pure]

theorem dropped_eq {swap : InstructionTexts} (hl : listing = front ++ row :: swap :: rest)
    (hi : i = front.length) (hswap : Legible swap) (h : ∀ row ∈ rest, Legible row) :
    atEnd none (dropped listing i) =
      .ok (if DropsTo swap rest then some (numberOf swap 2) else none) := by
  have hl' : listing = (front ++ [row]) ++ swap :: rest := by simp [hl]
  have hi' : i + 1 = (front ++ [row]).length := by simp [hi]
  have hname := nameAt_eq hl' hi' hswap
  have hitem := itemAt_eq hl' hi'
  rw [dropped]
  by_cases hs : nameOf swap = "SWAP"
  · have hnumber := number_eq (hswap.2.2 hs).1 (by have := hswap.1; omega)
    have hdrops := dropsFrom_eq (i := i + 2) (numberOf swap 2).toNat
      (by simp [hl] : listing = (front ++ [row, swap]) ++ rest) (by simp [hi]) h
    rcases hdrops with ⟨hpops, hdrops⟩ | ⟨hpops, hdrops⟩
    · rw [if_pos ⟨hs, hpops⟩]
      simp [hname, hs, hitem, hnumber, hdrops, bind, Except.bind, pure, Except.pure, atEnd]
    · rw [if_neg fun hd => hpops hd.2]
      rcases hdrops with hdrops | hdrops <;>
        simp [hname, hs, hitem, hnumber, hdrops, bind, Except.bind, pure, Except.pure, atEnd]
  · simp [hname, hs, DropsTo, bind, Except.bind, pure, Except.pure, atEnd]

theorem tested_eq (hl : listing = front ++ rest) (hi : i = front.length)
    (h : ∀ row ∈ rest, Legible row) :
    atEnd false (tested listing i) = .ok (decide (3 ≤ rest.length) && tests rest) := by
  rw [tested]
  rcases rest with _ | ⟨a, rest⟩
  · simp [nameAt_end (by simpa using hl) hi, bind, Except.bind, atEnd]
  have ha := nameAt_eq hl hi (h a (by simp))
  have hi₁ : i + 1 = (front ++ [a]).length := by simp [hi]
  rcases rest with _ | ⟨b, rest⟩
  · simp [ha, nameAt_end hl hi₁, bind, Except.bind, atEnd]
  have hb := nameAt_eq (by simp [hl] : listing = (front ++ [a]) ++ b :: rest) hi₁ (h b (by simp))
  have hi₂ : i + 2 = (front ++ [a, b]).length := by simp [hi]
  rcases rest with _ | ⟨c, rest⟩
  · simp [ha, hb, nameAt_end hl hi₂, bind, Except.bind, atEnd]
  have hc := nameAt_eq (by simp [hl] : listing = (front ++ [a, b]) ++ c :: rest) hi₂ (h c (by simp))
  simp [ha, hb, hc, isTest, tests, List.isPrefixOf, bind, Except.bind, pure, Except.pure, atEnd,
    Bool.or_assoc, Bool.and_assoc, beq_eq_decide, eq_comm]

def untested (c : Int × List InstructionTexts) : Bool := !(decide (3 ≤ c.2.length) && tests c.2)

theorem uncheckedAt_eq (hl : listing = front ++ row :: rest) (hi : i = front.length)
    (hrow : Legible row) (h : ∀ row ∈ rest, Legible row) :
    uncheckedAt listing row i =
      .ok (((behindCall? (row :: rest)).filter untested).map Prod.fst) := by
  have haddress := number_eq hrow.2.1 (by have := hrow.1; omega)
  rw [uncheckedAt]
  by_cases hcall : IsCall row
  · have hcall' : ¬(nameOf row ≠ "CALL" ∧ nameOf row ≠ "CALLCODE") := by
      rcases hcall with hname | hname <;> simp [hname]
    rcases rest with _ | ⟨swap, rest⟩
    · have hname : nameAt listing (i + 1) = .error .missingItem := nameAt_end hl (by simp [hi])
      simp [hrow.name, hcall', haddress, dropped, hname, behindCall?, bind, Except.bind, pure,
        Except.pure, atEnd]
    · have hswap := h swap (by simp)
      have hrest (r : InstructionTexts) (hr : r ∈ rest) : Legible r := h r (by simp [hr])
      have hdropped := dropped_eq hl hi hswap hrest
      by_cases hdrops : DropsTo swap rest
      · have hnumber : ((numberOf swap 2).toNat : Int) = numberOf swap 2 :=
          Int.toNat_of_nonneg (hswap.2.2 hdrops.1).2
        have hlength : (numberOf swap 2).toNat ≤ rest.length := by
          have := congrArg List.length hdrops.2
          simp only [List.length_map, List.length_take, List.length_replicate] at this
          omega
        have hl' : listing = (front ++ row :: swap :: rest.take (numberOf swap 2).toNat) ++
            rest.drop (numberOf swap 2).toNat := by simp [hl]
        have htested := tested_eq (i := i + numberOf swap 2 + 2) hl'
          (by
            simp only [hi, List.length_append, List.length_cons, List.length_take_of_le hlength]
            omega)
          fun r hr => hrest r (List.mem_of_mem_drop hr)
        rw [if_pos hdrops] at hdropped
        have hbehind : behindCall? (row :: swap :: rest) =
            some (numberOf row 0, rest.drop (numberOf swap 2).toNat) := if_pos ⟨hcall, hdrops⟩
        rw [hbehind, Option.filter_some, untested]
        generalize (decide (3 ≤ (rest.drop (numberOf swap 2).toNat).length) &&
          tests (rest.drop (numberOf swap 2).toNat)) = passes at htested ⊢
        cases passes <;>
          simp [hrow.name, hcall', haddress, hdropped, htested, bind, Except.bind, pure,
            Except.pure]
      · rw [if_neg hdrops] at hdropped
        simp [hrow.name, hcall', haddress, hdropped, behindCall?, hdrops, bind, Except.bind, pure,
          Except.pure]
  · have hcall' : nameOf row ≠ "CALL" ∧ nameOf row ≠ "CALLCODE" := not_or.1 hcall
    have hnone : behindCall? (row :: rest) = none := by cases rest <;> simp [behindCall?, hcall]
    simp [hrow.name, hcall', hnone, bind, Except.bind, pure, Except.pure]

theorem uncheckedFrom_eq {n : Nat} (hl : listing = front ++ rest) (hn : n = front.length)
    (h : ∀ row ∈ rest, Legible row) :
    uncheckedFrom listing n rest = .ok (((calls rest).filter untested).map Prod.fst) := by
  induction rest generalizing front n with
  | nil => rfl
  | cons row rest ih =>
    have hhere := uncheckedAt_eq hl (congrArg Nat.cast hn) (h row (by simp)) fun r hr =>
      h r (by simp [hr])
    have hl' : listing = (front ++ [row]) ++ rest := by simp [hl]
    have hrest := ih (n := n + 1) hl' (by simp [hn]) fun r hr => h r (by simp [hr])
    have hcalls : calls (row :: rest) = (behindCall? (row :: rest)).toList ++ calls rest := by
      rw [calls, List.tails_cons, List.filterMap_cons]
      cases behindCall? (row :: rest) <;> rfl
    rw [uncheckedFrom, hhere, hrest, hcalls]
    cases behindCall? (row :: rest) with
    | none => rfl
    | some c =>
      rw [Option.toList_some, List.singleton_append, List.filter_cons, Option.filter_some]
      split <;> rfl

/-- In order, those calls are given whose result is dropped to, unless at least three instructions
follow and test it. So of the calls whose result is tested those are left out behind which three
instructions follow, and no others. -/
theorem unchecked_eq {listing : List InstructionTexts} (h : ∀ row ∈ listing, Legible row) :
    unchecked listing = .ok (((calls listing).filter untested).map Prod.fst) ∧
      (unchecked listing = .ok (((calls listing).filter fun c => !tests c.2).map Prod.fst) ↔
        ∀ c ∈ calls listing, tests c.2 = true → 3 ≤ c.2.length) := by
  have heq : unchecked listing = .ok (((calls listing).filter untested).map Prod.fst) :=
    uncheckedFrom_eq (List.nil_append listing).symm rfl h
  have hfilter : (calls listing).filter (fun c => !tests c.2) =
      ((calls listing).filter untested).filter fun c => !tests c.2 := by
    rw [List.filter_filter]
    refine List.filter_congr fun c _ => ?_
    cases ht : tests c.2 <;> simp [untested, ht]
  refine ⟨heq, ?_⟩
  rw [heq, Except.ok.injEq, hfilter]
  constructor
  · intro hsame c hc ht
    by_contra hlong
    have hlength := congrArg List.length hsame
    rw [List.length_map, List.length_map, eq_comm, List.length_filter_eq_length_iff] at hlength
    have hnot := hlength c (List.mem_filter.2 ⟨hc, by simp [untested, hlong]⟩)
    simp [ht] at hnot
  · intro hlong
    have hself : ∀ c ∈ (calls listing).filter untested, (!tests c.2) = true := by
      intro c hc
      have hmem := List.mem_filter.1 hc
      cases ht : tests c.2 with
      | false => rfl
      | true => simp [untested, ht, hlong c hmem.1 ht] at hmem
    rw [List.filter_eq_self.2 hself]

def testedThenNot : List InstructionTexts :=
  [["0", "CALL", "", ""], ["1", "SWAP", "1", ""], ["2", "POP", "", ""], ["3", "ISZERO", "", ""],
    ["4", "CALLCODE", "", ""], ["5", "SWAP", "2", ""], ["6", "POP", "", ""], ["7", "POP", "", ""]]

theorem unchecked_testedThenNot : (∀ row ∈ testedThenNot, Legible row) ∧
    ((calls testedThenNot).filter untested).map Prod.fst = [4] ∧
    unchecked testedThenNot = .ok [4] := by
  have hlegible : ∀ row ∈ testedThenNot, Legible row := by decide +kernel
  have hcalls : ((calls testedThenNot).filter untested).map Prod.fst = [4] := by decide +kernel
  exact ⟨hlegible, hcalls, hcalls ▸ (unchecked_eq hlegible).1⟩

/-- A test of the result that ends the listing is not seen. -/
theorem unchecked_tested_at_end :
    calls (testedThenNot.take 4) = [(0, [["3", "ISZERO", "", ""]])] ∧
      tests [["3", "ISZERO", "", ""]] = true ∧ unchecked (testedThenNot.take 4) = .ok [0] := by
  decide +kernel

end EvmAudit.Callstack
