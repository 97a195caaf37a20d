import Mathlib.Data.List.Basic
import Mathlib.Tactic.IntervalCases
import EvmAudit.Listing.Outline
import EvmAudit.Proofs.Numeral

/-! The lines of a listing in plain form, and the lexemes they are made of. -/

namespace EvmAudit.Listing

def isMnemonic (s : String) : Bool :=
  match s.toList with
  | [] => false
  | c :: cs => c.isAlpha && cs.all Char.isAlphanum

def isOperand (s : String) : Bool := !s.toList.isEmpty && s.toList.all isHexadecimal

/-- One instruction: its address, its mnemonic, and the hexadecimal digits of its operand. A push
has an operand. -/
structure Line where
  address : Nat
  mnemonic : String
  operand : Option String := none
  address_short : (Nat.toDigits 10 address).length ≤ Numeral.decimalLimit := by decide
  mnemonic_ok : isMnemonic mnemonic = true := by decide
  operand_ok : operand.all isOperand = true := by decide
  operand_of_push : Text.startsWith mnemonic "PUSH" = true → operand.isSome = true := by decide

namespace Line

def operandChars (l : Line) : List Char :=
  match l.operand with
  | none => []
  | some s => ' ' :: '=' :: '>' :: ' ' :: '0' :: 'x' :: s.toList

def chars (l : Line) : List Char :=
  Nat.toDigits 10 l.address ++ ' ' :: (l.mnemonic.toList ++ (l.operandChars ++ ['\n']))

def row (l : Line) : String := String.ofList l.chars

def text (l : Line) : String :=
  match l.operand with
  | none => l.mnemonic ++ " "
  | some s => l.mnemonic ++ " " ++ ("0x" ++ s) ++ " "

end Line

theorem mem_of_dropStart? {start s rest : List Char} (h : Text.dropStart? start s = some rest) :
    rest ⊆ s := by
  induction start generalizing s with
  | nil =>
    simp only [Text.dropStart?, Option.some.injEq] at h
    simp [h]
  | cons p ps ih =>
    cases s with
    | nil => simp [Text.dropStart?] at h
    | cons c cs =>
      simp only [Text.dropStart?] at h
      split at h
      · exact List.Subset.trans (ih h) (List.subset_cons_self c cs)
      · simp at h

def NoQuote (cs : List Char) : Prop := ∀ c ∈ cs, c ≠ '"' ∧ c ≠ apostrophe

theorem NoQuote.of_cons {c : Char} {cs : List Char} (h : NoQuote (c :: cs)) : NoQuote cs :=
  fun d hd => h d (List.mem_cons_of_mem c hd)

theorem NoQuote.of_append {cs ds : List Char} (h : NoQuote (cs ++ ds)) : NoQuote ds :=
  fun d hd => h d (List.mem_append_right cs hd)

theorem NoQuote.quoteAt? {cs : List Char} (h : NoQuote cs) : quoteAt? cs = none := by
  rw [Listing.quoteAt?, List.findSome?_eq_none_iff]
  intro mark _
  cases hd : Text.dropStart? mark cs with
  | none => rfl
  | some rest =>
    cases rest with
    | nil => rfl
    | cons q rest =>
      have hq := h q (mem_of_dropStart? hd (by simp))
      simp [hq.1, hq.2]

theorem moreDigits_append {p : Char → Bool} (hp : p '_' = false) {ds rest : List Char} {c : Char}
    (hds : ∀ d ∈ ds, p d = true) (hc : p c = false) (hu : c ≠ '_') :
    moreDigits p (ds ++ c :: rest) = ds.length := by
  induction ds with
  | nil => simp [moreDigits, hc, hu]
  | cons d ds ih =>
    have hd : p d = true := hds d (by simp)
    have hne : d ≠ '_' := by
      rintro rfl
      simp [hp] at hd
    have hds' : ∀ e ∈ ds, p e = true := fun e he => hds e (by simp [he])
    rw [List.cons_append, moreDigits]
    · simp only [hd, if_true, ih hds', List.length_cons]
      omega
    · exact fun _ _ h => absurd h hne

theorem digitsLength_append {p : Char → Bool} (hp : p '_' = false) {d : Char} {ds rest : List Char}
    {c : Char} (hds : ∀ e ∈ d :: ds, p e = true) (hc : p c = false) (hu : c ≠ '_') :
    digitsLength p (d :: ds ++ c :: rest) = (d :: ds).length := by
  have hd : p d = true := hds d (by simp)
  have hrest : ∀ e ∈ ds, p e = true := fun e he => hds e (by simp [he])
  simp only [List.cons_append, digitsLength, hd, if_true, moreDigits_append hp hrest hc hu,
    List.length_cons]
  omega

theorem numberLength?_decimal {d : Char} {ds : List Char} (rest : List Char)
    (hds : ∀ e ∈ d :: ds, isDecimal e = true) (hz : d = '0' → ds = []) :
    numberLength? (d :: ds ++ ' ' :: rest) = some (d :: ds).length := by
  have hlen : digitsLength isDecimal (d :: ds ++ ' ' :: rest) = (d :: ds).length :=
    digitsLength_append (by decide) hds (by decide) (by decide)
  have hdrop : (d :: ds ++ ' ' :: rest).drop (d :: ds).length = ' ' :: rest := List.drop_left
  have hfraction : fractionLength? (d :: ds ++ ' ' :: rest) = none := by
    simp only [fractionLength?, hlen, hdrop]
    simp [exponentLength]
  have hwhole : wholeLength? (d :: ds ++ ' ' :: rest) = some (d :: ds).length := by
    by_cases h0 : d = '0'
    · subst h0
      rw [hz rfl]
      simp [wholeLength?, markedLength?, moreDigits]
    · have hmark : ∀ marks p, markedLength? marks p (d :: ds ++ ' ' :: rest) = none := by
        simp [markedLength?, h0]
      rw [List.cons_append] at hmark hlen ⊢
      simp [wholeLength?, hmark, hlen, h0]
  simp only [numberLength?, hlen, hdrop, hfraction, hwhole, startsImaginary]
  simp

theorem numberLength?_hex {ds : List Char} (rest : List Char) (hne : ds ≠ [])
    (hds : ∀ d ∈ ds, isHexadecimal d = true) :
    numberLength? ('0' :: 'x' :: ds ++ '\n' :: rest) = some (ds.length + 2) := by
  have hlen : digitsLength isDecimal ('0' :: 'x' :: ds ++ '\n' :: rest) = 1 := by
    simp [digitsLength, moreDigits, isDecimal]
  have hmore : moreDigits isHexadecimal (ds ++ '\n' :: rest) = ds.length :=
    moreDigits_append (by decide) hds (by decide) (by decide)
  have hwhole : wholeLength? ('0' :: 'x' :: ds ++ '\n' :: rest) = some (ds.length + 2) := by
    simp [wholeLength?, markedLength?, hmore, hne]
    omega
  simp only [numberLength?, fractionLength?, hlen, hwhole]
  simp [startsImaginary, exponentLength]

theorem isDecimal_of_isAlpha {c : Char} (h : c.isAlpha = true) : isDecimal c = false := by
  have h' : c.isDigit = false := by
    simp only [Char.isAlpha, Char.isUpper, Char.isLower, Char.isDigit, Bool.or_eq_true,
      Bool.and_eq_true, decide_eq_true_eq, ge_iff_le, Bool.and_eq_false_iff,
      decide_eq_false_iff_not,
      UInt32.le_iff_toNat_le] at h ⊢
    have h0 : '0'.val.toNat = 48 ∧ '9'.val.toNat = 57 := by decide
    have hA : 'A'.val.toNat = 65 ∧ 'Z'.val.toNat = 90 := by decide
    have ha : 'a'.val.toNat = 97 ∧ 'z'.val.toNat = 122 := by decide
    omega
  rw [isDecimal_eq_isDigit, h']

theorem numberLength?_of_not_decimal {c : Char} {cs : List Char} (hc : isDecimal c = false)
    (hdot : c ≠ '.') : numberLength? (c :: cs) = none := by
  have hz : c ≠ '0' := by
    rintro rfl
    simp [isDecimal] at hc
  have hlen : digitsLength isDecimal (c :: cs) = 0 := by simp [digitsLength, hc]
  have hfraction : fractionLength? (c :: cs) = none := by simp [fractionLength?, hlen, hdot]
  simp [numberLength?, hlen, hfraction, wholeLength?, markedLength?, hz]

theorem signLength?_of_isAlpha {c : Char} {cs : List Char} (h : c.isAlpha = true) :
    signLength? (c :: cs) = none := by
  have hsigns : ∀ s ∈ signs, ∃ p ps, s.toList = p :: ps ∧ p.isAlpha = false := by
    have h' : ∀ s ∈ signs, (s.toList.head?.map Char.isAlpha) = some false := by decide
    intro s hs
    have hh := h' s hs
    cases hs' : s.toList with
    | nil => simp [hs'] at hh
    | cons p ps => exact ⟨p, ps, rfl, by simpa [hs'] using hh⟩
  rw [signLength?, Option.map_eq_none_iff, List.find?_eq_none]
  intro s hs
  obtain ⟨p, ps, hp, halpha⟩ := hsigns s hs
  have hne : p ≠ c := by
    rintro rfl
    simp [h] at halpha
  simp [hp, Text.dropStart?, hne]

theorem wordLength_append {ds rest : List Char} {c : Char} (hds : ∀ d ∈ ds, isWordChar d = true)
    (hc : isWordChar c = false) : wordLength (ds ++ c :: rest) = ds.length := by
  rw [wordLength, List.takeWhile_append_of_pos hds, List.takeWhile_cons_of_neg (by simp [hc])]
  simp

theorem isWordChar_of_isAlphanum {c : Char} (h : c.isAlphanum = true) : isWordChar c = true := by
  simp only [Char.isAlphanum, Bool.or_eq_true] at h
  rcases h with h | h
  · simp [isWordChar, isWordStart, h]
  · simp [isWordChar, isDecimal_eq_isDigit, h]

namespace Lexer

variable {row fuel column : Nat} {l : Lexer} {gap cs : List Char} {c : Char}
variable {ds rest : List Char}

theorem scan_cons (hgap : ∀ x ∈ gap, isSpace x = true) (hc : isSpace c = false) (hb : c ≠ '\\')
    (hh : c ≠ '#') (hq : quoteAt? (c :: cs) = none) :
    scan row (fuel + 1) column (gap ++ c :: cs) l = (let start := column + gap.length
       let go (n : Nat) (l : Lexer) : Lexer := scan row fuel (start + n) ((c :: cs).drop n) l
       match numberLength? (c :: cs) with
       | some n => go n (l.emit .number ((c :: cs).take n) row start)
       | none =>
         if c = '\n' then go 1 (l.emit (if l.level > 0 then .blank else .newline) ['\n'] row start)
         else match signLength? (c :: cs) with
           | some n => go n (l.emitSign ((c :: cs).take n) row start)
           | none =>
             if wordLength (c :: cs) = 0 then
               scan row fuel (column + 1) ((gap ++ c :: cs).drop 1)
                 (l.emit .stray ((gap ++ c :: cs).take 1) row column)
             else
               go (wordLength (c :: cs)) (l.emit (if isWordStart c then .name else .sign)
                 ((c :: cs).take (wordLength (c :: cs))) row start)) := by
  have htake : (gap ++ c :: cs).takeWhile isSpace = gap := by
    rw [List.takeWhile_append_of_pos hgap, List.takeWhile_cons_of_neg (by simp [hc])]
    simp
  have hdrop : (gap ++ c :: cs).drop gap.length = c :: cs := List.drop_left
  obtain ⟨first, others, hfo⟩ : ∃ first others, gap ++ c :: cs = first :: others := by
    cases gap <;> simp
  rw [hfo] at htake hdrop ⊢
  rw [scan]
  simp only [htake, hdrop, hq, List.drop_succ_cons, List.drop_zero, List.take_succ_cons,
    List.take_zero]
  split
  · simp_all
  · simp_all
  · simp_all
  next heq =>
    simp only [List.cons.injEq] at heq
    obtain ⟨rfl, rfl⟩ := heq
    simp only [List.head?_cons, Option.map_some, Option.getD_some]
    rfl
theorem scan_number {n : Nat} (hgap : ∀ x ∈ gap, isSpace x = true) (hc : isDecimal c = true)
    (hq : NoQuote (c :: cs)) (hn : numberLength? (c :: cs) = some n) :
    scan row (fuel + 1) column (gap ++ c :: cs) l =
      scan row fuel (column + gap.length + n) ((c :: cs).drop n)
        (l.emit .number ((c :: cs).take n) row (column + gap.length)) := by
  have hne : ∀ d, isDecimal d = false → c ≠ d := fun d hd h => by simp [h, hd] at hc
  have hs : isSpace c = false := by
    simp [isSpace, hne ' ' (by decide), hne '\x0c' (by decide), hne '\t' (by decide)]
  rw [scan_cons hgap hs (hne _ (by decide)) (hne _ (by decide)) hq.quoteAt?]
  simp only [hn]

theorem scan_decimal (hds : ∀ e ∈ c :: ds, isDecimal e = true) (hz : c = '0' → ds = [])
    (hq : NoQuote (c :: ds ++ ' ' :: rest)) :
    scan row (fuel + 1) 0 (c :: ds ++ ' ' :: rest) l =
      scan row fuel (c :: ds).length (' ' :: rest) (l.emit .number (c :: ds) row 0) := by
  have hn := numberLength?_decimal rest hds hz
  rw [List.cons_append] at hq hn ⊢
  rw [← List.nil_append (c :: (ds ++ ' ' :: rest)), scan_number (by simp) (hds c (by simp)) hq hn]
  simp

theorem scan_name {w : List Char} {d : Char} (hc : c.isAlpha = true)
    (hw : ∀ x ∈ w, x.isAlphanum = true) (hd : isWordChar d = false)
    (hq : NoQuote (c :: w ++ d :: rest)) :
    scan row (fuel + 1) column (' ' :: (c :: w ++ d :: rest)) l =
      scan row fuel (column + 1 + (c :: w).length) (d :: rest)
      (l.emit .name (c :: w) row (column + 1)) := by
  have hne : ∀ e, e.isAlpha = false → c ≠ e := fun e he h => by simp [h, he] at hc
  have hs : isSpace c = false := by
    simp [isSpace, hne ' ' (by decide), hne '\x0c' (by decide), hne '\t' (by decide)]
  have hlen : wordLength (c :: w ++ d :: rest) = (c :: w).length := by
    refine wordLength_append (fun x hx => isWordChar_of_isAlphanum ?_) hd
    rcases List.mem_cons.1 hx with rfl | hx
    · simp [Char.isAlphanum, hc]
    · exact hw x hx
  have hstart : isWordStart c = true := by simp [isWordStart, hc]
  rw [List.cons_append] at hlen hq ⊢
  rw [← List.singleton_append,
    scan_cons (List.forall_mem_singleton.2 rfl) hs (hne _ (by decide)) (hne _ (by decide))
    hq.quoteAt?]
  simp only [numberLength?_of_not_decimal (isDecimal_of_isAlpha hc) (hne _ (by decide)),
    signLength?_of_isAlpha hc, hlen, hne '\n' (by decide), hstart, if_true, if_false]
  simp

theorem scan_arrow (hq : NoQuote ('=' :: '>' :: ' ' :: cs)) :
    scan row (fuel + 1 + 1) column (' ' :: '=' :: '>' :: ' ' :: cs) l =
      scan row fuel (column + 3) (' ' :: cs)
        ((l.emit .sign ['='] row (column + 1)).emit .sign ['>'] row (column + 2)) := by
  rw [← List.singleton_append,
    scan_cons (List.forall_mem_singleton.2 rfl) (by decide) (by decide) (by decide) hq.quoteAt?]
  change scan row (fuel + 1) (column + 2) ([] ++ '>' :: ' ' :: cs)
    (l.emit .sign ['='] row (column + 1)) = _
  rw [scan_cons (by simp) (by decide) (by decide) (by decide) hq.of_cons.quoteAt?]
  rfl

theorem scan_hex (hne : ds ≠ []) (hds : ∀ d ∈ ds, isHexadecimal d = true)
    (hq : NoQuote ('0' :: 'x' :: ds ++ '\n' :: rest)) :
    scan row (fuel + 1) column (' ' :: ('0' :: 'x' :: ds ++ '\n' :: rest)) l =
      scan row fuel (column + 3 + ds.length) ('\n' :: rest)
      (l.emit .number ('0' :: 'x' :: ds) row (column + 1)) := by
  have hn := numberLength?_hex rest hne hds
  have hcol : column + 1 + (ds.length + 2) = column + 3 + ds.length := by omega
  rw [List.cons_append] at hq hn ⊢
  rw [← List.singleton_append, scan_number (List.forall_mem_singleton.2 rfl) (by decide) hq hn]
  simp [hcol]

theorem scan_newline (hl : l.level = 0) :
    scan row (fuel + 1) column ['\n'] l = l.emit .newline ['\n'] row column := by
  rw [← List.nil_append ['\n'], scan_cons (by simp) (by decide) (by decide) (by decide) (by decide)]
  simp [numberLength?_of_not_decimal, isDecimal, hl]
  cases fuel <;> rfl

end Lexer

namespace Line

def operandLexemes (l : Line) (row column : Nat) : List Lexeme :=
  match l.operand with
  | none => []
  | some s => [⟨.sign, "=", row, column + 1⟩, ⟨.sign, ">", row, column + 2⟩,
      ⟨.number, "0x" ++ s, row, column + 4⟩]

def lexemes (l : Line) (row : Nat) : List Lexeme :=
  let column := (Nat.toDigits 10 l.address).length + 1
  ⟨.number, Nat.repr l.address, row, 0⟩ :: ⟨.name, l.mnemonic, row, column⟩ ::
    (l.operandLexemes row (column + l.mnemonic.length) ++
      [⟨.newline, "\n", row, column + l.mnemonic.length + l.operandChars.length⟩])

theorem digits_decimal (n : Nat) : ∀ c ∈ Nat.toDigits 10 n, isDecimal c = true := by
  intro c hc
  rw [isDecimal_eq_isDigit]
  exact Nat.isDigit_of_mem_toDigits (b := 10) (by omega) (by omega) hc

theorem head_toDigits {n : Nat} (hn : 0 < n) : (Nat.toDigits 10 n).head? ≠ some '0' := by
  induction n using Nat.strongRecOn with
  | _ n ih =>
    by_cases h : 10 ≤ n
    · rw [Nat.toDigits_of_base_le (by omega) h, List.head?_append_of_ne_nil _ Nat.toDigits_ne_nil]
      exact ih (n / 10) (by omega) (by omega)
    · rw [Nat.toDigits_of_lt_base (by omega)]
      have hlt : n < 10 := by omega
      interval_cases n <;> decide

theorem zero_alone {n : Nat} {ds : List Char} (h : Nat.toDigits 10 n = '0' :: ds) : ds = [] := by
  rcases Nat.eq_zero_or_pos n with rfl | hn
  · simpa using h.symm
  · exact absurd (by rw [h]; rfl) (head_toDigits hn)

theorem exists_mnemonic (l : Line) : ∃ c cs, l.mnemonic.toList = c :: cs ∧ c.isAlpha = true ∧
    ∀ d ∈ cs, d.isAlphanum = true := by
  have h := l.mnemonic_ok
  unfold isMnemonic at h
  cases hl : l.mnemonic.toList with
  | nil => simp [hl] at h
  | cons c cs =>
    simp only [hl, Bool.and_eq_true, List.all_eq_true] at h
    exact ⟨c, cs, rfl, h.1, h.2⟩

theorem operand_digits {l : Line} {s : String} (h : l.operand = some s) :
    s.toList ≠ [] ∧ ∀ c ∈ s.toList, isHexadecimal c = true := by
  have hs := l.operand_ok
  rw [h] at hs
  simpa [isOperand] using hs

theorem noQuote_of_isAlphanum {cs : List Char} (h : ∀ c ∈ cs, c.isAlphanum = true) :
    NoQuote cs := by
  intro c hc
  constructor <;> rintro rfl <;> exact absurd (h _ hc) (by decide)

theorem noQuote_operandChars (l : Line) : NoQuote l.operandChars := by
  unfold operandChars
  cases ho : l.operand with
  | none => simp [NoQuote]
  | some s =>
    have hs := noQuote_of_isAlphanum fun c hc =>
      Numeral.isAlphanum_of_isHexadecimal ((operand_digits ho).2 c hc)
    simpa [NoQuote, apostrophe] using hs

theorem noQuote_chars (l : Line) : NoQuote l.chars := by
  obtain ⟨m, ms, hm, hma, hms⟩ := l.exists_mnemonic
  have hmn : NoQuote l.mnemonic.toList := by
    refine noQuote_of_isAlphanum ?_
    simpa [hm, Char.isAlphanum, hma] using hms
  have hdg : NoQuote (Nat.toDigits 10 l.address) := by
    refine noQuote_of_isAlphanum fun c hc => ?_
    simp [Char.isAlphanum, ← isDecimal_eq_isDigit, digits_decimal l.address c hc]
  have hop := l.noQuote_operandChars
  intro c hc
  simp only [chars, List.mem_append, List.mem_cons, List.not_mem_nil, or_false] at hc
  rcases hc with hc | rfl | hc | hc | rfl
  · exact hdg c hc
  · decide
  · exact hmn c hc
  · exact hop c hc
  · decide

theorem scan_chars (l : Line) (x : Lexer) (hx : x.level = 0) (row : Nat) :
    x.scan row (l.chars.length + 1) 0 l.chars =
      { x with done := (l.lexemes row).reverse ++ x.done } := by
  obtain ⟨m, ms, hm, hma, hms⟩ := l.exists_mnemonic
  obtain ⟨d, ds, hd⟩ := List.exists_cons_of_ne_nil (Nat.toDigits_ne_nil (n := l.address) (b := 10))
  have hdec : ∀ e ∈ d :: ds, isDecimal e = true := hd ▸ digits_decimal l.address
  have hz : d = '0' → ds = [] := fun h => zero_alone (h ▸ hd)
  have hmlen : l.mnemonic.length = (m :: ms).length := by rw [← hm, String.length_toList]
  have hmtext : String.ofList (m :: ms) = l.mnemonic := by rw [← hm, String.ofList_toList]
  have hrepr : String.ofList (d :: ds) = Nat.repr l.address := by rw [← hd]; rfl
  have hq := l.noQuote_chars
  unfold lexemes operandLexemes
  rw [hmlen, hd]
  unfold chars operandChars at hq ⊢
  rw [hd, hm] at hq ⊢
  cases ho : l.operand with
  | none =>
    rw [ho] at hq
    dsimp only at hq ⊢
    rw [List.nil_append] at hq ⊢
    obtain ⟨k, hk⟩ : ∃ k, (d :: ds ++ ' ' :: (m :: ms ++ ['\n'])).length + 1 = k + 1 + 1 + 1 :=
      ⟨ds.length + ms.length + 2, by simp; omega⟩
    rw [hk, Lexer.scan_decimal hdec hz hq,
      Lexer.scan_name hma hms (by decide) hq.of_append.of_cons, Lexer.scan_newline (by exact hx)]
    simp [Lexer.emit, hmtext, hrepr]
  | some s =>
    obtain ⟨hne, hhex⟩ := operand_digits ho
    have hstext : String.ofList ('0' :: 'x' :: s.toList) = "0x" ++ s := by
      rw [← String.toList_inj]
      simp
    rw [ho] at hq
    dsimp only at hq ⊢
    simp only [List.cons_append] at hq ⊢
    have hq' : NoQuote ('=' :: '>' :: ' ' :: '0' :: 'x' :: (s.toList ++ ['\n'])) :=
      hq.of_cons.of_append.of_cons.of_cons.of_append.of_cons
    obtain ⟨k, hk⟩ : ∃ k, (d :: (ds ++ ' ' :: m :: (ms ++ ' ' :: '=' :: '>' :: ' ' :: '0' :: 'x' ::
        (s.toList ++ ['\n'])))).length + 1 = k + 1 + 1 + 1 + 1 + 1 + 1 :=
      ⟨ds.length + ms.length + s.toList.length + 5, by simp; omega⟩
    rw [hk, ← List.cons_append, Lexer.scan_decimal hdec hz hq, ← List.cons_append,
      Lexer.scan_name hma hms (by decide) hq.of_cons.of_append.of_cons, Lexer.scan_arrow hq',
      ← List.cons_append, ← List.cons_append, Lexer.scan_hex hne hhex hq'.of_cons.of_cons.of_cons,
      Lexer.scan_newline (by exact hx)]
    simp [Lexer.emit, hmtext, hrepr, hstext]
    omega

theorem next_chars (l : Line) (done : List Lexeme) (row : Nat) :
    Lexer.next { done } row l.chars = .more { done := (l.lexemes row).reverse ++ done } := by
  obtain ⟨d, ds, hd⟩ := List.exists_cons_of_ne_nil (Nat.toDigits_ne_nil (n := l.address) (b := 10))
  have hdec : isDecimal d = true := digits_decimal l.address d (by simp [hd])
  have hne : ∀ e, isDecimal e = false → d ≠ e := fun e he h => by simp [h, he] at hdec
  obtain ⟨cs, hcs⟩ : ∃ cs, l.chars = d :: cs := ⟨_, by rw [chars, hd]; rfl⟩
  have hscan := l.scan_chars { done } rfl row
  have hindent : Lexer.indentOf 0 0 (d :: cs) = (0, 0) := by
    simp [Lexer.indentOf, hne ' ' (by decide), hne '\t' (by decide), hne '\x0c' (by decide)]
  rw [hcs] at hscan ⊢
  simp only [Lexer.next, Lexer.fresh, hindent, List.drop_zero]
  simpa [hne '\n' (by decide), hne '#' (by decide), Lexer.dedent] using hscan

end Line

def lexemesFrom (row : Nat) : List Line → List Lexeme
  | [] => [⟨.finish, "", row, 0⟩]
  | l :: ls => l.lexemes row ++ lexemesFrom (row + 1) ls

theorem run_chars (ls : List Line) (done : List Lexeme) (row : Nat) (last : List Char)
    (hlast : last = [] ∨ last.getLast? = some '\n') :
    (Lexer.run row last (ls.map Line.chars) { done }).2 = none ∧
      (Lexer.run row last (ls.map Line.chars) { done }).1.done = (lexemesFrom row ls).reverse ++
        done := by
  induction ls generalizing done row last with
  | nil =>
    have hend : (last.isEmpty || last.getLast? = some '\n') = true := by simpa using hlast
    simp [Lexer.run, Lexer.finish, Lexer.emit, hend, lexemesFrom]
  | cons l ls ih =>
    have h :=
      ih ((l.lexemes row).reverse ++ done) (row + 1) l.chars
      (Or.inr (by simp [Line.chars, List.getLast?_cons]))
    simpa [Lexer.run, l.next_chars, lexemesFrom] using h

theorem lexemes_rows (ls : List Line) : lexemes (ls.map Line.row) = (lexemesFrom 1 ls, none) := by
  have hmap : (ls.map Line.row).map String.toList = ls.map Line.chars := by
    simp [Line.row]
  obtain ⟨hcause, hdone⟩ := run_chars ls [] 1 [] (Or.inl rfl)
  simp only [lexemes, hmap]
  exact Prod.ext (by simp [hdone]) hcause

end EvmAudit.Listing
