import EvmAudit.Listing.Format
import EvmAudit.Proofs.Listing.Code
import EvmAudit.Proofs.Listing.Decoding
import EvmAudit.Proofs.Text

/-! A disassembly as it is printed, with addresses of at least six digits, and its plain form: the
lines with the same addresses, where newer mnemonics go by their older names. -/

namespace EvmAudit.Listing

def isNumbered (s : String) : Bool :=
  !(s.toList.takeWhile Char.isUpper).isEmpty && (s.toList.dropWhile Char.isUpper).all Char.isDigit

def isLowerHexadecimal (c : Char) : Bool := isDecimal c || ('a' ≤ c && c ≤ 'f')

/-- What is printed of an instruction: a mnemonic, with the hexadecimal digits of an operand, or
those of a byte that is no instruction. -/
inductive Opcode where
  | known (mnemonic : String) (operand : Option String)
  | missing (digits : String)

namespace Opcode

/-- A push has an operand, and a byte has at most two digits. A mnemonic that is replaced as a whole
is no part of another one. -/
def Legible : Opcode → Prop
  | known mnemonic operand =>
    isNumbered mnemonic = true ∧
      ("SELFDESTRUCT".toList <:+: mnemonic.toList → mnemonic = "SELFDESTRUCT") ∧
      operand.all isOperand = true ∧
      (Text.startsWith mnemonic "PUSH" = true → operand.isSome = true)
  | missing digits =>
    digits.toList ≠ [] ∧ digits.toList.length ≤ 2 ∧ digits.toList.all isLowerHexadecimal = true

instance : DecidablePred Legible
  | known _ _ => inferInstanceAs (Decidable (_ ∧ _ ∧ _ ∧ _))
  | missing _ => inferInstanceAs (Decidable (_ ∧ _ ∧ _))

/-- The mnemonic by its older name. Two of the bytes have a name by now. -/
def mnemonic : Opcode → String
  | known name _ => if name = "SELFDESTRUCT" then "SUICIDE" else name
  | missing digits =>
    if digits = "fd" then "REVERT" else if digits = "fe" then "ASSERTFAIL" else "INVALID"

def operand : Opcode → Option String
  | known _ operand => operand
  | missing digits => if digits = "fd" ∨ digits = "fe" then none else some digits

def operandChars : Option String → List Char
  | none => []
  | some digits => ' ' :: '0' :: 'x' :: digits.toList

def chars : Opcode → List Char
  | known mnemonic operand => mnemonic.toList ++ operandChars operand
  | missing digits => "Missing opcode 0x".toList ++ digits.toList

end Opcode

def padded (address : Nat) : List Char :=
  List.replicate (6 - (Nat.toDigits 10 address).length) '0' ++ Nat.toDigits 10 address

structure Printed where
  address : Nat
  opcode : Opcode
  address_short : (Nat.toDigits 10 address).length ≤ Numeral.decimalLimit := by decide
  legible : opcode.Legible := by decide

def Printed.listed (ds : List (Nat × Opcode))
    (h : ∀ d ∈ ds, (Nat.toDigits 10 d.1).length ≤ Numeral.decimalLimit ∧
      d.2.Legible := by decide +kernel) : List Printed :=
  ds.pmap (fun d h => ⟨d.1, d.2, h.1, h.2⟩) h

def Printed.chars (p : Printed) : List Char := padded p.address ++ (':' :: ' ' :: p.opcode.chars)

def disassembly (code : String) (ps : List Printed) : String :=
  String.ofList ((code.toList :: ps.map Printed.chars).flatMap (· ++ ['\n']))

/-! ### Characters -/

theorem exists_numbered {s : String} (h : isNumbered s = true) : ∃ name number : List Char,
    s.toList = name ++ number ∧ name ≠ [] ∧ (∀ c ∈ name, c.isUpper = true) ∧
    ∀ c ∈ number, c.isDigit = true := by
  simp only [isNumbered, Bool.and_eq_true, Bool.not_eq_true', List.isEmpty_eq_false_iff,
    List.all_eq_true] at h
  exact ⟨_, _, (List.takeWhile_append_dropWhile).symm, h.1,
    fun c hc => List.mem_takeWhile_imp hc, h.2⟩

theorem isAlphanum_of_isNumbered {s : String} (h : isNumbered s = true) {c : Char}
    (hc : c ∈ s.toList) : c.isUpper = true ∨ c.isDigit = true := by
  obtain ⟨name, number, hs, -, hname, hnumber⟩ := exists_numbered h
  rw [hs] at hc
  rcases List.mem_append.1 hc with hc | hc
  · exact .inl (hname c hc)
  · exact .inr (hnumber c hc)

theorem isMnemonic_of_isNumbered {s : String} (h : isNumbered s = true) : isMnemonic s = true := by
  obtain ⟨name, number, hs, hne, hname, hnumber⟩ := exists_numbered h
  obtain ⟨c, rest, rfl⟩ := List.exists_cons_of_ne_nil hne
  rw [isMnemonic, hs]
  have hc := hname c List.mem_cons_self
  simp only [List.cons_append, Char.isAlpha, hc, Bool.true_or, Bool.true_and, List.all_append,
    Bool.and_eq_true, List.all_eq_true, Char.isAlphanum, Bool.or_eq_true]
  exact ⟨fun d hd => .inl (.inl (hname d (List.mem_cons_of_mem _ hd))),
    fun d hd => .inr (hnumber d hd)⟩

theorem isHexadecimal_of_isLower {c : Char} (h : isLowerHexadecimal c = true) :
    isHexadecimal c = true := by
  simp only [isLowerHexadecimal, isHexadecimal, Bool.or_eq_true] at h ⊢
  tauto

theorem isDigit_of_mem_padded {n : Nat} {c : Char} (h : c ∈ padded n) : c.isDigit = true := by
  rcases List.mem_append.1 h with h | h
  · rw [List.eq_of_mem_replicate h]
    rfl
  · exact Numeral.isDigit_of_mem_toDigits h

namespace Opcode

variable {o : Opcode}

theorem Legible.isNumbered (h : o.Legible) : isNumbered o.mnemonic = true := by
  cases o with
  | known name operand =>
    rw [mnemonic]
    split
    · decide
    · exact h.1
  | missing digits =>
    rw [mnemonic]
    split
    · decide
    · split <;> decide

theorem Legible.isOperand (h : o.Legible) : o.operand.all isOperand = true := by
  cases o with
  | known name operand => exact h.2.2.1
  | missing digits =>
    obtain ⟨hne, -, hdigits⟩ := h
    rw [operand]
    split
    · rfl
    · simp only [Option.all_some, Listing.isOperand, Bool.and_eq_true, Bool.not_eq_true',
        List.isEmpty_eq_false_iff, List.all_eq_true] at hdigits ⊢
      exact ⟨hne, fun c hc => isHexadecimal_of_isLower (hdigits c hc)⟩

theorem Legible.isSome_of_push (h : o.Legible) (hpush : Text.startsWith o.mnemonic "PUSH" = true) :
    o.operand.isSome = true := by
  cases o with
  | known name operand =>
    rw [mnemonic] at hpush
    split at hpush
    · exact absurd hpush (by decide)
    · exact h.2.2.2 hpush
  | missing digits =>
    rw [mnemonic] at hpush
    split at hpush
    · exact absurd hpush (by decide)
    · split at hpush <;> exact absurd hpush (by decide)

theorem mem_operandChars {operand : Option String} (h : operand.all Listing.isOperand = true)
    {c : Char} (hc : c ∈ operandChars operand) : c = ' ' ∨ c = 'x' ∨ isHexadecimal c = true := by
  cases operand with
  | none => cases hc
  | some digits =>
    simp only [Option.all_some, Listing.isOperand, Bool.and_eq_true, List.all_eq_true] at h
    simp only [operandChars, List.mem_cons] at hc
    rcases hc with rfl | rfl | rfl | hc
    · exact .inl rfl
    · exact .inr (.inr rfl)
    · exact .inr (.inl rfl)
    · exact .inr (.inr (h.2 c hc))

end Opcode

namespace Printed

def line (p : Printed) : Line where
  address := p.address
  mnemonic := p.opcode.mnemonic
  operand := p.opcode.operand
  address_short := p.address_short
  mnemonic_ok := isMnemonic_of_isNumbered p.legible.isNumbered
  operand_ok := p.legible.isOperand
  operand_of_push := p.legible.isSome_of_push

end Printed

/-! ### Names -/

section

variable {digits name : String} {c : Char} {operand : Option String}

open Text Listing.Opcode

def lead (address : Nat) : List Char := padded address ++ [':', ' ']

theorem mem_lead {n : Nat} (h : c ∈ lead n) : c.isDigit = true ∨ c = ':' ∨ c = ' ' := by
  rcases List.mem_append.1 h with h | h
  · exact .inl (isDigit_of_mem_padded h)
  · exact .inr (by simpa using h)

theorem mem_rest (h : operand.all isOperand = true)
    (hc : c ∈ operandChars operand ++ ['\n']) : c = '\n' ∨ c = ' ' ∨ c = 'x' ∨
    isHexadecimal c = true := by
  rcases List.mem_append.1 hc with hc | hc
  · exact .inr (mem_operandChars h hc)
  · exact .inl (List.mem_singleton.1 hc)

def rename (cs : List Char) (e : String × String) : List Char :=
  replaceFrom e.1.toList e.2.toList 0 cs

theorem rename_known (h : (known name operand).Legible) (address : Nat) :
    rename (lead address ++ (name.toList ++ (operandChars operand ++ ['\n'])))
    ("SELFDESTRUCT", "SUICIDE") = lead address ++
      ((known name operand).mnemonic.toList ++ (operandChars operand ++ ['\n'])) := by
  obtain ⟨hname, hwhole, hoperand, -⟩ := h
  have hlead : 'S' ∉ lead address := fun hc => absurd (mem_lead hc) (by decide)
  have hrest : 'S' ∉ operandChars operand ++ ['\n'] :=
    fun hc => absurd (mem_rest hoperand hc) (by decide)
  have hnone : ¬ "SELFDESTRUCT".toList <:+: operandChars operand ++ ['\n'] :=
    not_infix_of_not_mem List.mem_cons_self hrest
  refine (replaceFrom_append hlead).trans (congrArg (lead address ++ ·) ?_)
  change replaceFrom "SELFDESTRUCT".toList "SUICIDE".toList 0 _ = _
  by_cases hnew : name = "SELFDESTRUCT"
  · rw [mnemonic, if_pos hnew, hnew, replaceFrom_self (by decide), replaceFrom_of_absent hnone]
  · obtain ⟨c, cs, hcs, hc⟩ : ∃ c cs, operandChars operand ++ ['\n'] = c :: cs ∧
        (c = ' ' ∨ c = '\n') := by
      cases operand with
      | none => exact ⟨_, _, rfl, .inr rfl⟩
      | some digits => exact ⟨_, _, rfl, .inl rfl⟩
    have hold : c ∉ "SELFDESTRUCT".toList := by rcases hc with rfl | rfl <;> decide
    rw [mnemonic, if_neg hnew, replaceFrom_of_absent]
    rw [hcs] at hnone ⊢
    exact not_infix_append_cons hold (fun hinside => hnew (hwhole hinside)) hnone

theorem mem_missing (h : (missing digits).Legible)
    (hc : c ∈ "Missing opcode 0x".toList.tail ++ (digits.toList ++ ['\n'])) :
    c ≠ 'M' ∧ c ≠ 'S' := by
  have htext : ∀ c ∈ "Missing opcode 0x".toList.tail, c ≠ 'M' ∧ c ≠ 'S' := by simp
  rcases List.mem_append.1 hc with hc | hc
  · exact htext c hc
  · rcases List.mem_append.1 hc with hc | hc
    · have hdigit := List.all_eq_true.1 h.2.2 c hc
      constructor <;> rintro rfl <;> exact absurd hdigit (by decide)
    · rw [List.mem_singleton.1 hc]
      decide

theorem rename_missing {byte : String} (h : (missing digits).Legible) (address : Nat)
    (hlength : byte.toList.length = 2) (hbreak : '\n' ∉ byte.toList) :
    rename (lead address ++ ("Missing opcode 0x".toList ++ (digits.toList ++ ['\n'])))
        ("Missing opcode 0x" ++ byte, name) =
      lead address ++ (if digits = byte then name.toList ++ ['\n']
        else "Missing opcode 0x".toList ++ (digits.toList ++ ['\n'])) := by
  have hlead : 'M' ∉ lead address := fun hc => absurd (mem_lead hc) (by decide)
  rw [rename, String.toList_append]
  refine (replaceFrom_append hlead).trans (congrArg (lead address ++ ·) ?_)
  change replaceFrom ("Missing opcode 0x".toList ++ byte.toList) name.toList 0 _ = _
  by_cases hnamed : digits = byte
  · have hnone : ¬ "Missing opcode 0x".toList ++ byte.toList <:+: ['\n'] :=
      not_infix_of_not_mem (c := 'M') (by simp) (by decide)
    rw [if_pos hnamed, hnamed, ← List.append_assoc, replaceFrom_self (by simp),
      replaceFrom_of_absent hnone]
  · rw [if_neg hnamed, replaceFrom_of_absent]
    have htail : 'M' ∉ "Missing opcode 0x".toList.tail ++ (digits.toList ++ ['\n']) :=
      fun hc => (mem_missing h hc).1 rfl
    change ¬ _ <:+: 'M' :: ("Missing opcode 0x".toList.tail ++ (digits.toList ++ ['\n']))
    rw [List.infix_cons_iff]
    rintro (hbegins | hinside)
    · have hbyte := (List.prefix_append_right_inj "Missing opcode 0x".toList).1 hbegins
      rcases List.prefix_concat_iff.1 hbyte with heq | hbyte
      · exact hbreak (heq ▸ List.mem_append_right _ List.mem_cons_self)
      · have heq := hbyte.eq_of_length_le (by rw [hlength]; exact h.2.1)
        exact hnamed (String.toList_inj.1 heq.symm)
    · exact not_infix_of_not_mem (by simp) htail hinside

def named (address : Nat) (name : String) (operand : Option String) : List Char :=
  lead address ++ (name.toList ++ (operandChars operand ++ ['\n']))

theorem rename_named {name : String} {operand : Option String} (hname : isNumbered name = true)
    (hoperand : operand.all isOperand = true) (address : Nat) {e : String × String}
    (he : 'i' ∈ e.1.toList) :
    rename (named address name operand) e = named address name operand := by
  refine replaceFrom_of_absent (not_infix_of_not_mem he fun hc => ?_)
  rcases List.mem_append.1 hc with hc | hc
  · exact absurd (mem_lead hc) (by decide)
  · rcases List.mem_append.1 hc with hc | hc
    · exact absurd (isAlphanum_of_isNumbered hname hc) (by decide)
    · exact absurd (mem_rest hoperand hc) (by decide)

theorem rename_nameless (address : Nat) (digits : String) (h : (missing digits).Legible) :
    rename (lead address ++ ("Missing opcode 0x".toList ++ (digits.toList ++ ['\n'])))
        ("Missing opcode", "INVALID") = named address "INVALID" (some digits) := by
  have hlead : 'M' ∉ lead address := fun hc => absurd (mem_lead hc) (by decide)
  have hrest : 'M' ∉ operandChars (some digits) ++ ['\n'] := fun hc =>
    (mem_missing h (List.mem_append_right "issing opcode".toList hc)).1 rfl
  have htext : "Missing opcode 0x".toList ++ (digits.toList ++ ['\n']) =
      "Missing opcode".toList ++ (operandChars (some digits) ++ ['\n']) := rfl
  rw [htext]
  refine (replaceFrom_append hlead).trans (congrArg (lead address ++ ·) ?_)
  exact (replaceFrom_self (by simp)).trans
    (congrArg _ (replaceFrom_of_absent (not_infix_of_not_mem List.mem_cons_self hrest)))

theorem foldl_rename_eq (cs : List Char) : renamings.dropLast.foldl rename cs =
    rename (rename
      (rename (rename cs ("SELFDESTRUCT", "SUICIDE")) ("Missing opcode 0x" ++ "fd", "REVERT"))
      ("Missing opcode 0x" ++ "fe", "ASSERTFAIL")) ("Missing opcode", "INVALID") := rfl

theorem foldl_rename {o : Opcode} (h : o.Legible) (address : Nat) :
    renamings.dropLast.foldl rename (lead address ++ (o.chars ++ ['\n'])) =
      named address o.mnemonic o.operand := by
  have hkept {name : String} {operand : Option String} (hname : isNumbered name = true)
      (hoperand : operand.all isOperand = true) :
      rename (rename (named address name operand) ("Missing opcode 0x" ++ "fe", "ASSERTFAIL"))
        ("Missing opcode", "INVALID") = named address name operand := by
    rw [rename_named hname hoperand address (by simp),
      rename_named hname hoperand address (by simp)]
  rw [foldl_rename_eq]
  cases o with
  | known name operand =>
    have hchars : (known name operand).chars ++ ['\n'] = name.toList ++
        (operandChars operand ++ ['\n']) :=
      List.append_assoc _ _ _
    have hfirst : rename (lead address ++ ((known name operand).chars ++ ['\n'])) ("SELFDESTRUCT",
        "SUICIDE") = named address (known name operand).mnemonic (known name operand).operand := by
      rw [hchars, rename_known h]
      rfl
    rw [hfirst, rename_named h.isNumbered h.isOperand address (by simp),
      hkept h.isNumbered h.isOperand]
  | missing digits =>
    have hdestroy : 'S' ∉ lead address ++
        ("Missing opcode 0x".toList ++ (digits.toList ++ ['\n'])) := by
      intro hc
      rcases List.mem_append.1 hc with hc | hc
      · exact absurd (mem_lead hc) (by decide)
      · rcases List.mem_cons.1 hc with hc | hc
        · cases hc
        · exact (mem_missing h hc).2 rfl
    have hfirst : rename (lead address ++ ("Missing opcode 0x".toList ++ (digits.toList ++ ['\n'])))
        ("SELFDESTRUCT", "SUICIDE") = _ :=
      replaceFrom_of_absent (not_infix_of_not_mem List.mem_cons_self hdestroy)
    have hchars : (missing digits).chars ++ ['\n'] =
        "Missing opcode 0x".toList ++ (digits.toList ++ ['\n']) := List.append_assoc _ _ _
    rw [hchars, hfirst, rename_missing h address rfl (by simp), mnemonic, Opcode.operand]
    by_cases hfd : digits = "fd"
    · rw [if_pos hfd, if_pos hfd, if_pos (.inl hfd)]
      exact @hkept "REVERT" none (by decide) rfl
    · rw [if_neg hfd, if_neg hfd, rename_missing h address rfl (by simp)]
      by_cases hfe : digits = "fe"
      · rw [if_pos hfe, if_pos hfe, if_pos (.inr hfe)]
        exact @rename_named "ASSERTFAIL" none (by decide) rfl address _ (by simp)
      · rw [if_neg hfe, if_neg hfe, if_neg (by simp [hfd, hfe]), rename_nameless address digits h]

theorem plainNames_ofList (cs : List Char) :
    plainNames (String.ofList cs) =
      String.ofList ((renamings.dropLast.foldl rename cs).filter (· ≠ ':')) := by
  have hfold (es : List (String × String)) (cs : List Char) :
      es.foldl (fun s e => replace e.1 e.2 s) (String.ofList cs) =
      String.ofList (es.foldl rename cs) := by
    induction es generalizing cs with
    | nil => rfl
    | cons e es ih =>
      rw [List.foldl_cons, List.foldl_cons, ← ih]
      simp [replace, rename]
  have hlast : renamings = renamings.dropLast ++ [(":", "")] := rfl
  have hcolon (cs : List Char) : rename cs (":", "") = cs.filter (· ≠ ':') := replaceFrom_char ':'
  rw [← hcolon, plainNames]
  refine (hfold renamings cs).trans (congrArg _ ?_)
  rw [hlast, List.foldl_append]
  rfl

theorem filter_named (address : Nat) (hname : isNumbered name = true)
    (hoperand : operand.all isOperand = true) : (named address name operand).filter (· ≠ ':') =
      padded address ++ ' ' :: (name.toList ++ (operandChars operand ++ ['\n'])) := by
  have hpadded : ':' ∉ padded address := fun hc => absurd (isDigit_of_mem_padded hc) (by decide)
  have hrest : ':' ∉ name.toList ++ (operandChars operand ++ ['\n']) := by
    intro hc
    rcases List.mem_append.1 hc with hc | hc
    · exact absurd (isAlphanum_of_isNumbered hname hc) (by decide)
    · exact absurd (mem_rest hoperand hc) (by decide)
  have hkept {cs : List Char} (h : ':' ∉ cs) : cs.filter (· ≠ ':') = cs :=
    List.filter_eq_self.2 fun c hc => by simpa using fun hcolon : c = ':' => h (hcolon ▸ hc)
  rw [named, lead, List.append_assoc, List.filter_append, hkept hpadded, List.filter_append,
    hkept hrest]
  rfl

/-! ### Words -/

theorem plainAddress_padded {address : Nat}
    (h : (Nat.toDigits 10 address).length ≤ Numeral.decimalLimit) :
    plainAddress (String.ofList (padded address)) = String.ofList (Nat.toDigits 10 address) := by
  have hlimit : 6 ≤ Numeral.decimalLimit := by decide
  have hread : Numeral.read 10 (String.ofList (padded address)) = some (address : Int) :=
    Numeral.read_zeros (by omega)
  rw [plainAddress, hread]
  rfl

def wordsBehind (name : String) : Option String → List (List Char)
  | none => [name.toList ++ ['\n']]
  | some digits => [name.toList, '0' :: 'x' :: (digits.toList ++ ['\n'])]

theorem cutAt_named (address : Nat) (hname : isNumbered name = true)
    (hoperand : operand.all isOperand = true) :
    cutAt ' ' (padded address ++ ' ' :: (name.toList ++ (operandChars operand ++ ['\n']))) =
      padded address :: wordsBehind name operand := by
  have hpadded : ' ' ∉ padded address := fun hc => absurd (isDigit_of_mem_padded hc) (by decide)
  have hspace : ' ' ∉ name.toList :=
    fun hc => absurd (isAlphanum_of_isNumbered hname hc) (by decide)
  rw [cutAt_append hpadded]
  cases operand with
  | none =>
    have hbreak : ' ' ∉ name.toList ++ ['\n'] := by simp [hspace]
    exact congrArg _ (cutAt_of_not_mem hbreak)
  | some digits =>
    have hdigits : ' ' ∉ '0' :: 'x' :: (digits.toList ++ ['\n']) := by
      have hspace : ' ' ∉ digits.toList := fun hc =>
        absurd (List.all_eq_true.1 (Bool.and_eq_true_iff.1 hoperand).2 ' ' hc) (by decide)
      simp [hspace]
    exact congrArg _ ((cutAt_append hspace _).trans (congrArg _ (cutAt_of_not_mem hdigits)))

theorem plainWords_pair (first last : String) :
    plainWords [first, last] = [plainAddress first, stripBreaks last] := rfl

theorem plainWords_triple (first name : String) {last : String}
    (h : (Numeral.read 16 (stripBreaks last)).isSome = true) :
    plainWords [first, name, last] = [plainAddress first, name, "=>", stripBreaks last] := by
  simp [plainWords, h]

theorem stripBreaks_ofList {cs : List Char} (h : '\n' ∉ cs) :
    stripBreaks (String.ofList (cs ++ ['\n'])) = String.ofList cs :=
  strip_of_not_mem (fun c hc => by simpa using fun hbreak : c = '\n' => h (hbreak ▸ hc)) _ (by simp)

end

namespace Printed

open Listing.Opcode Text

theorem plainLine_chars (p : Printed) :
    plainLine (String.ofList (p.chars ++ ['\n'])) ++ "\n" = p.line.row := by
  have hname := p.legible.isNumbered
  have hoperand := p.legible.isOperand
  have hchars : p.chars ++ ['\n'] = lead p.address ++ (p.opcode.chars ++ ['\n']) := by
    simp [Printed.chars, lead]
  have hbreak : '\n' ∉ p.opcode.mnemonic.toList :=
    fun hc => absurd (isAlphanum_of_isNumbered hname hc) (by decide)
  have hsplit : splitAt ' ' (plainNames (String.ofList (p.chars ++ ['\n']))) =
      String.ofList (padded p.address) ::
      (wordsBehind p.opcode.mnemonic p.opcode.operand).map String.ofList := by
    rw [hchars, plainNames_ofList, foldl_rename p.legible, filter_named p.address hname hoperand,
      splitAt, String.toList_ofList, cutAt_named p.address hname hoperand]
    rfl
  rw [plainLine, hsplit, ← String.toList_inj, Line.row, String.toList_ofList, Line.chars,
    Line.operandChars]
  cases ho : p.opcode.operand with
  | none =>
    have hline : p.line.operand = none := ho
    simp only [wordsBehind, List.map_cons, List.map_nil, hline]
    rw [plainWords_pair, plainAddress_padded p.address_short, stripBreaks_ofList hbreak]
    simp [Printed.line]
  | some digits =>
    have hline : p.line.operand = some digits := ho
    obtain ⟨hne, hdigits⟩ := Line.operand_digits hline
    have hend : '\n' ∉ '0' :: 'x' :: digits.toList := by
      have hnone : '\n' ∉ digits.toList := fun hc => absurd (hdigits _ hc) (by decide)
      simp [hnone]
    have hlast := stripBreaks_ofList hend
    rw [List.cons_append, List.cons_append] at hlast
    have hread : (Numeral.read 16 (stripBreaks
        (String.ofList ('0' :: 'x' :: (digits.toList ++ ['\n']))))).isSome = true := by
      rw [hlast, Numeral.read_hex hne hdigits]
      rfl
    simp only [wordsBehind, List.map_cons, List.map_nil, hline]
    rw [plainWords_triple _ _ hread, plainAddress_padded p.address_short, hlast]
    simp [Printed.line]

theorem mem_chars {p : Printed} {c : Char} (hc : c ∈ p.chars) : c.isAlphanum = true ∨ c = ':' ∨
    c = ' ' := by
  have halnum {d : Char} (h : d.isUpper = true ∨ d.isDigit = true) : d.isAlphanum = true := by
    rcases h with h | h <;> simp [Char.isAlphanum, Char.isAlpha, h]
  have hlegible := p.legible
  rw [Printed.chars] at hc
  rcases List.mem_append.1 hc with hc | hc
  · exact .inl (halnum (.inr (isDigit_of_mem_padded hc)))
  · rw [List.mem_cons, List.mem_cons] at hc
    rcases hc with rfl | rfl | hc
    · exact .inr (.inl rfl)
    · exact .inr (.inr rfl)
    · generalize p.opcode = o at hc hlegible
      cases o with
      | known name operand =>
        rcases List.mem_append.1 hc with hc | hc
        · exact .inl (halnum (isAlphanum_of_isNumbered hlegible.1 hc))
        · rcases mem_operandChars hlegible.2.2.1 hc with rfl | rfl | hc
          · exact .inr (.inr rfl)
          · exact .inl rfl
          · exact .inl (Numeral.isAlphanum_of_isHexadecimal hc)
      | missing digits =>
        have htext : ∀ c ∈ "Missing opcode 0x".toList, c.isAlphanum = true ∨ c = ':' ∨
            c = ' ' := by simp
        rcases List.mem_append.1 hc with hc | hc
        · exact htext c hc
        · exact .inl (Numeral.isAlphanum_of_isHexadecimal
            (isHexadecimal_of_isLower (List.all_eq_true.1 hlegible.2.2 c hc)))

end Printed

namespace Line

def written (l : Line) : List Char :=
  Nat.toDigits 10 l.address ++ ' ' :: (l.mnemonic.toList ++ l.operandChars)

theorem chars_eq (l : Line) : l.chars = l.written ++ ['\n'] := by
  simp [chars, written]

theorem no_break (l : Line) {c : Char} (hc : c ∈ l.written) : c ≠ '\n' ∧ c ≠ '\r' := by
  have halnum {d : Char} (h : d.isAlphanum = true) : d ≠ '\n' ∧ d ≠ '\r' := by
    constructor <;> rintro rfl <;> exact absurd h (by decide)
  rw [written, List.mem_append, List.mem_cons, List.mem_append] at hc
  rcases hc with hc | rfl | hc | hc
  · exact halnum (Numeral.isAlphanum_of_mem_toDigits hc)
  · decide
  · obtain ⟨d, ds, hds, hd, hall⟩ := l.exists_mnemonic
    rw [hds] at hc
    rcases List.mem_cons.1 hc with rfl | hc
    · exact halnum (by simp [Char.isAlphanum, hd])
    · exact halnum (hall c hc)
  · rw [operandChars] at hc
    cases ho : l.operand with
    | none =>
      rw [ho] at hc
      cases hc
    | some digits =>
      have hsigns : ∀ c ∈ [' ', '=', '>', ' ', '0', 'x'], c ≠ '\n' ∧ c ≠ '\r' := by simp
      rw [ho] at hc
      rcases List.mem_append.1
        (show c ∈ [' ', '=', '>', ' ', '0', 'x'] ++ digits.toList from hc) with hc | hc
      · exact hsigns c hc
      · exact halnum (Numeral.isAlphanum_of_isHexadecimal ((operand_digits ho).2 c hc))

end Line

def plainText (code : String) (ps : List Printed) : String :=
  String.ofList (code.toList ++ ['\n'] ++ ps.flatMap fun p => p.line.chars)

section

variable {code : String} (hcode : ∀ c ∈ code.toList, isHexadecimal c = true) (ps : List Printed)

include hcode

theorem format_disassembly : format (disassembly code ps) = .ok (plainText code ps) := by
  have hbreaks : ∀ r ∈ code.toList :: ps.map Printed.chars, '\n' ∉ r ∧ '\r' ∉ r := by
    intro r hr
    rcases List.mem_cons.1 hr with rfl | hr
    · exact ⟨fun hc => absurd (hcode _ hc) (by decide), fun hc => absurd (hcode _ hc) (by decide)⟩
    · obtain ⟨p, -, rfl⟩ := List.mem_map.1 hr
      exact ⟨fun hc => absurd (Printed.mem_chars hc) (by decide),
        fun hc => absurd (Printed.mem_chars hc) (by decide)⟩
  have hrows (p : Printed) : (plainLine (String.ofList (p.chars ++ ['\n']))).toList ++ ['\n'] =
      p.line.chars := by
    have hline := congrArg String.toList p.plainLine_chars
    rw [String.toList_append, Line.row] at hline
    exact hline.trans String.toList_ofList
  rw [format, disassembly, Text.lines_flatMap hbreaks, List.map_cons]
  dsimp only
  rw [stripBreaks_ofList (hbreaks _ List.mem_cons_self).1, plainText, Except.ok.injEq,
    ← String.toList_inj, String.toList_append, String.toList_intercalate, String.toList_ofList]
  refine (Text.intercalate_break (by simp)).trans ?_
  simp only [List.map_cons, List.map_map, List.flatMap_cons, List.flatMap_map, Function.comp, hrows,
    String.toList_ofList]

theorem lines_plainText :
    (Text.lines (plainText code ps)).drop 1 = (ps.map Printed.line).map Line.row := by
  have hbreaks : ∀ r ∈ code.toList :: ps.map fun p => p.line.written, '\n' ∉ r ∧ '\r' ∉ r := by
    intro r hr
    rcases List.mem_cons.1 hr with rfl | hr
    · exact ⟨fun hc => absurd (hcode _ hc) (by decide), fun hc => absurd (hcode _ hc) (by decide)⟩
    · obtain ⟨p, -, rfl⟩ := List.mem_map.1 hr
      exact ⟨fun hc => (p.line.no_break hc).1 rfl, fun hc => (p.line.no_break hc).2 rfl⟩
  have htext : plainText code ps =
      String.ofList ((code.toList :: ps.map fun p => p.line.written).flatMap (· ++ ['\n'])) := by
    simp only [plainText, Line.chars_eq, List.flatMap_cons, List.flatMap_map]
  rw [htext, Text.lines_flatMap hbreaks, List.map_cons, List.drop_one, List.tail_cons, List.map_map,
    List.map_map]
  refine List.map_congr_left fun p _ => ?_
  rw [Function.comp, Function.comp, Line.row, Line.chars_eq]

end

end EvmAudit.Listing
