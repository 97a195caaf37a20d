import EvmAudit.Callstack
import EvmAudit.Proofs.Listing.Printed

/-! Two readers of the same disassembly. One reads the lines into an outline, the other one looks
for addresses with a mnemonic behind them; both find the instructions that were printed. -/

namespace EvmAudit

namespace Callstack

variable {cs rest : List Char} {c : Char}

open Listing

theorem span_append {p : Char → Bool} {cs rest : List Char} (h : ∀ c ∈ cs, p c = true)
    (hrest : ∀ c ∈ rest.head?, p c = false) : (cs ++ rest).takeWhile p = cs ∧
    (cs ++ rest).dropWhile p = rest := by
  have hnone : rest.takeWhile p = [] ∧ rest.dropWhile p = rest := by
    cases rest with
    | nil => exact ⟨rfl, rfl⟩
    | cons c rest => simp [hrest c rfl]
  rw [List.takeWhile_append_of_pos h, List.dropWhile_append_of_pos h, hnone.1, hnone.2,
    List.append_nil]
  exact ⟨rfl, rfl⟩

theorem dropWhile_append_cons {p : Char → Bool} (hc : p c = false) (cs rest : List Char) :
    (cs ++ c :: rest).dropWhile p = cs.dropWhile p ++ c :: rest := by
  induction cs with
  | nil => simp [hc]
  | cons d cs ih =>
    rw [List.cons_append, List.dropWhile_cons, List.dropWhile_cons, ih]
    split <;> rfl

theorem mention?_of_ne (h : c ≠ ' ') (address cs : List Char) :
    mention? address (c :: cs) = none := by
  rw [mention?]
  exact fun after heq => absurd (List.cons.inj heq).1 h

theorem mentions_of_not_digit (h : Text.isDecimalDigit c = false) (cs : List Char) :
    mentions (c :: cs) = mentions cs := by
  rw [mentions, if_neg (by simp [h])]

theorem mentions_of_none (hc : Text.isDecimalDigit c = true)
    (hrest : cs.dropWhile Text.isDecimalDigit = rest)
    (h : ∀ address, mention? address rest = none) : mentions (c :: cs) = mentions rest := by
  subst hrest
  rw [mentions, if_pos hc, h]

theorem mentions_of_some {last : List Char} {row : InstructionTexts}
    (hc : Text.isDecimalDigit c = true) (hrest : cs.dropWhile Text.isDecimalDigit = rest)
    {hle : last.length ≤ rest.length}
    (h : mention? (c :: cs.takeWhile Text.isDecimalDigit) rest = some (row, ⟨last, hle⟩)) :
    mentions (c :: cs) = row :: mentions last := by
  subst hrest
  rw [mentions, if_pos hc, h]

theorem mentions_code (h : ' ' ∉ cs) (rest : List Char) :
    mentions (cs ++ '\n' :: rest) = mentions rest := by
  have hbreak : Text.isDecimalDigit '\n' = false := by decide
  induction hn : cs.length using Nat.strong_induction_on generalizing cs with
  | _ n ih =>
    cases cs with
    | nil => exact mentions_of_not_digit hbreak rest
    | cons c cs =>
      rw [List.mem_cons, not_or] at h
      rw [List.length_cons] at hn
      cases hc : Text.isDecimalDigit c with
      | false =>
        rw [List.cons_append, mentions_of_not_digit hc]
        exact ih cs.length (by omega) h.2 rfl
      | true =>
        have hdrop : (cs.dropWhile Text.isDecimalDigit).length ≤ cs.length :=
          (List.dropWhile_sublist _).length_le
        have hspace : ' ' ∉ cs.dropWhile Text.isDecimalDigit := fun hmem =>
          h.2 ((List.dropWhile_sublist _).subset hmem)
        -- behind the digits there is a character of the code or the break
        obtain ⟨d, ds, hds, hd⟩ : ∃ d ds, cs.dropWhile Text.isDecimalDigit ++ '\n' :: rest =
            d :: ds ∧ d ≠ ' ' := by
          cases hrest : cs.dropWhile Text.isDecimalDigit with
          | nil => exact ⟨_, _, rfl, by decide⟩
          | cons d ds =>
            rw [hrest] at hspace
            exact ⟨d, _, rfl, fun heq => hspace (heq ▸ List.mem_cons_self)⟩
        rw [List.cons_append,
          mentions_of_none hc (dropWhile_append_cons hbreak cs rest) fun address => ?_]
        · exact ih _ (by omega) hspace rfl
        · rw [hds]
          exact mention?_of_ne hd address ds

def rowOf (l : Line) : InstructionTexts :=
  [Nat.toDigits 10 l.address, l.mnemonic.toList.takeWhile Char.isUpper,
    l.mnemonic.toList.dropWhile Char.isUpper, (l.operand.getD "").toList].map String.ofList

theorem head_operandChars (l : Line) (rest : List Char) :
    ∃ d ds, l.operandChars ++ '\n' :: rest = d :: ds ∧ (d = ' ' ∨ d = '\n') := by
  rw [Line.operandChars]
  cases l.operand with
  | none => exact ⟨_, _, rfl, .inr rfl⟩
  | some digits => exact ⟨_, _, rfl, .inl rfl⟩

theorem dropStart?_operandChars (l : Line) (rest : List Char) :
    (Text.dropStart? " => 0x".toList (l.operandChars ++ '\n' :: rest)).getD
      (l.operandChars ++ '\n' :: rest) = (l.operand.getD "").toList ++ '\n' :: rest := by
  rw [Line.operandChars]
  cases l.operand with
  | none => rfl
  | some digits => rfl

theorem not_blank_operand (l : Line) :
    ∀ c ∈ (l.operand.getD "").toList, (!Text.isBlank c) = true := by
  cases ho : l.operand with
  | none => simp
  | some digits =>
    intro c hc
    rw [Numeral.not_blank_of_isAlphanum
      (Numeral.isAlphanum_of_isHexadecimal ((Line.operand_digits ho).2 c hc))]
    rfl

theorem not_upper_of_isDigit (h : c.isDigit = true) : c.isUpper = false := by
  have hc := Numeral.toNat_of_isDigit h
  simp only [Char.isUpper, decide_eq_false_iff_not, ge_iff_le, UInt32.le_iff_toNat_le]
  exact fun hupper => absurd (Nat.le_trans hupper.1 hc.2) (by decide)

theorem mention?_line (l : Line) (h : isNumbered l.mnemonic = true) (address rest : List Char) :
    ∃ hle, mention? address (' ' :: (l.mnemonic.toList ++ (l.operandChars ++ '\n' :: rest))) =
      some ([address, l.mnemonic.toList.takeWhile Char.isUpper,
        l.mnemonic.toList.dropWhile Char.isUpper, (l.operand.getD "").toList].map String.ofList,
          ⟨'\n' :: rest, hle⟩) := by
  obtain ⟨name, number, hmnemonic, hne, hname, hnumber⟩ := exists_numbered h
  obtain ⟨d, ds, hds, hd⟩ := head_operandChars l rest
  have htail := dropStart?_operandChars l rest
  have hlength := congrArg List.length hds
  rw [List.length_append, List.length_cons, List.length_cons] at hlength
  have hdigit : Text.isDecimalDigit d = false := by rcases hd with rfl | rfl <;> decide
  have hmnemonicSpan := @span_append Char.isUpper name number hname fun c hc =>
    not_upper_of_isDigit (hnumber c (List.mem_of_mem_head? hc))
  have hnameSpan := @span_append Char.isUpper name (number ++ d :: ds) hname fun c hc => by
    cases number with
    | nil =>
      cases hc
      rcases hd with rfl | rfl <;> decide
    | cons e number =>
      cases hc
      exact not_upper_of_isDigit (hnumber _ List.mem_cons_self)
  have hnumberSpan := @span_append Text.isDecimalDigit number (d :: ds)
    (fun c hc => Text.isDecimalDigit_of_isDigit (hnumber c hc)) fun c hc => by
      cases hc
      exact hdigit
  have hoperandSpan :=
    @span_append (fun c => !Text.isBlank c) (l.operand.getD "").toList ('\n' :: rest)
    (not_blank_operand l) fun c hc => by
      cases hc
      decide
  have hle : ('\n' :: rest).length ≤ (' ' :: (name ++ (number ++ d :: ds))).length := by
    simp only [List.length_cons, List.length_append]
    omega
  have hempty : name.isEmpty = false := List.isEmpty_eq_false_iff.2 hne
  rw [hds] at htail
  rw [hmnemonic, hmnemonicSpan.1, hmnemonicSpan.2, List.append_assoc, hds, mention?]
  simp only [hnameSpan.1, hnameSpan.2, hnumberSpan.1, hnumberSpan.2, htail, hoperandSpan.1,
    hoperandSpan.2, hempty]
  exact ⟨hle, if_neg Bool.false_ne_true⟩

theorem mentions_line (l : Line) (h : isNumbered l.mnemonic = true) (rest : List Char) :
    mentions (l.chars ++ rest) = rowOf l :: mentions rest := by
  obtain ⟨d, ds, hds⟩ := List.exists_cons_of_ne_nil (Nat.toDigits_ne_nil (n := l.address) (b := 10))
  have hdigits : ∀ c ∈ d :: ds, Text.isDecimalDigit c = true := fun c hc =>
    Text.isDecimalDigit_of_isDigit (Numeral.isDigit_of_mem_toDigits (hds ▸ hc))
  have hspan :=
    @span_append Text.isDecimalDigit ds
    (' ' :: (l.mnemonic.toList ++ (l.operandChars ++ '\n' :: rest)))
    (fun c hc => hdigits c (List.mem_cons_of_mem _ hc)) fun c hc => by
      cases hc
      decide
  obtain ⟨hle, hmention⟩ := mention?_line l h (d :: ds) rest
  have hchars : l.chars ++ rest =
      d :: (ds ++ ' ' :: (l.mnemonic.toList ++ (l.operandChars ++ '\n' :: rest))) := by
    simp [Line.chars, hds]
  rw [hchars, mentions_of_some (hdigits d List.mem_cons_self) hspan.2
    (by rw [hspan.1]; exact hmention), mentions_of_not_digit (by decide), rowOf, hds]

end Callstack

namespace Listing

open Callstack

theorem mentions_plainText {code : String} (hcode : ∀ c ∈ code.toList, isHexadecimal c = true)
    (ps : List Printed) : mentions (plainText code ps).toList = ps.map fun p => rowOf p.line := by
  have hspace : ' ' ∉ code.toList := fun hc => absurd (hcode _ hc) (by decide)
  have hlines (ps : List Printed) :
      mentions (ps.flatMap fun p => p.line.chars) = ps.map fun p => rowOf p.line := by
    induction ps with
    | nil => rw [List.flatMap_nil, mentions, List.map_nil]
    | cons p ps ih =>
      rw [List.flatMap_cons, mentions_line p.line p.legible.isNumbered, ih, List.map_cons]
  rw [plainText, String.toList_ofList, List.append_assoc, List.singleton_append,
    mentions_code hspace, hlines]

/-- The entry of an outline for a printed line: its address, its mnemonic as the first word, and its
operand, which a push has, as the second one. -/
structure Printed.Entered (p : Printed) (e : Int × String) : Prop where
  address : e.1 = p.address
  mnemonic : wordAt 0 e.2 = p.opcode.mnemonic
  operand : ∀ digits ∈ p.opcode.operand, wordAt 1 e.2 = "0x" ++ digits
  push : Text.startsWith p.opcode.mnemonic "PUSH" = true → p.opcode.operand.isSome = true

structure Printed.Mentioned (p : Printed) (row : InstructionTexts) : Prop where
  address : row.number 0 = .ok (p.address : Int)
  mnemonic : ∃ name number, row.part 1 = .ok name ∧ row.part 2 = .ok number ∧
    name ++ number = p.opcode.mnemonic

theorem Printed.entered (p : Printed) : p.Entered ((p.line.address : Int), p.line.text) where
  address := rfl
  mnemonic := by
    rw [wordAt, Line.splitAt_text]
    rfl
  operand digits hdigits := by
    have hline : p.line.operand = some digits := hdigits
    rw [wordAt, Line.splitAt_text, Line.words, hline]
    rfl
  push := p.legible.isSome_of_push

theorem number_of_part {row : InstructionTexts} {i : Nat} {s : String} {n : Int}
    (hpart : row.part i = .ok s) (hread : Numeral.read 10 s = some n) : row.number i = .ok n := by
  simp only [InstructionTexts.number, hpart, bind, Except.bind, hread]
  rfl

theorem Printed.mentioned (p : Printed) : p.Mentioned (rowOf p.line) where
  address := by
    refine number_of_part rfl (Numeral.read_zeros (k := 0) ?_)
    rw [Nat.zero_add]
    exact p.address_short
  mnemonic := by
    refine ⟨_, _, rfl, rfl, ?_⟩
    rw [← String.ofList_append, List.takeWhile_append_dropWhile, String.ofList_toList]
    rfl

theorem entries_outline {items : Option (List (Option SourceItem))} {ls : List Line}
    (hdistinct : (ls.map Line.address).Nodup) (h : (outline items (ls.map Line.row)).2.2 = none) :
    (outline items (ls.map Line.row)).1.instructions.entries = ls.map fun l =>
      ((l.address : Int), l.text) := by
  have hkept := congrArg (fun o => o.instructions.entries) (outline_items h)
  exact hkept.trans (entries_lines {} ls (by simp [Table.keys]) hdistinct)

/-- A disassembly with distinct addresses has a plain form. Its outline, whatever source map fits
the lines, has an entry for each instruction that was printed, in this order; without a source map
it never fails. And the instructions that the plain form mentions are the same ones in the same
order. -/
theorem readers_agree {code : String} (hcode : ∀ c ∈ code.toList, isHexadecimal c = true)
    {ps : List Printed} (hdistinct : (ps.map Printed.address).Nodup) :
    ∃ text, format (disassembly code ps) = .ok text ∧
      (outline none ((Text.lines text).drop 1)).2.2 = none ∧
      (∀ items, (outline items ((Text.lines text).drop 1)).2.2 = none →
        List.Forall₂ Printed.Entered ps
          (outline items ((Text.lines text).drop 1)).1.instructions.entries) ∧
      List.Forall₂ Printed.Mentioned ps (mentions text.toList) := by
  have haddresses : ((ps.map Printed.line).map Line.address).Nodup := by rwa [List.map_map]
  refine ⟨plainText code ps, format_disassembly hcode ps, ?_, fun items h => ?_, ?_⟩
  · rw [lines_plainText hcode, outline_rows]
  · rw [lines_plainText hcode] at h ⊢
    rw [entries_outline haddresses h, List.map_map, List.forall₂_map_right_iff, List.forall₂_same]
    exact fun p _ => p.entered
  · rw [mentions_plainText hcode, List.forall₂_map_right_iff, List.forall₂_same]
    exact fun p _ => p.mentioned

def pushAndDestroy : List Printed := Printed.listed
  [(0, .known "PUSH1" (some "2a")), (2, .known "SELFDESTRUCT" none), (3, .missing "fe"),
    (4, .missing "0c"), (1000005, .known "SWAP16" none)]

theorem readers_agree_pushAndDestroy :
    ∃ text, format (disassembly "602afffe0c" pushAndDestroy) = .ok text ∧
    (outline none ((Text.lines text).drop 1)).1.instructions.entries.map
      (fun e => (e.1, wordAt 0 e.2)) =
      [(0, "PUSH1"), (2, "SUICIDE"), (3, "ASSERTFAIL"), (4, "INVALID"), (1000005, "SWAP16")] ∧
    (mentions text.toList).length = 5 := by
  obtain ⟨text, hformat, houtline, hentered, hmentioned⟩ :=
    @readers_agree "602afffe0c" (List.all_eq_true.1 (by decide +kernel)) pushAndDestroy
    (by decide +kernel)
  refine ⟨text, hformat, ?_, hmentioned.length_eq.symm⟩
  have hsame : List.Forall₂ (fun (p : Printed) (e : Int × String) =>
      (e.1, wordAt 0 e.2) = ((p.address : Int), p.opcode.mnemonic)) pushAndDestroy _ :=
    (hentered none houtline).imp fun p e h => Prod.ext h.address h.mnemonic
  have hmap := List.forall₂_map_left_iff.2 (List.forall₂_map_right_iff.2 hsame.flip)
  rw [List.forall₂_eq_eq_eq] at hmap
  rw [hmap]
  decide +kernel

end Listing

end EvmAudit
