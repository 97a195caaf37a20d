import Mathlib
import EvmAudit.Listing.Lexeme
import EvmAudit.Proofs.Text
import EvmAudit.Text.Numeral

/-! Reading back plain numerals: decimal digits, and hexadecimal digits behind their mark. -/

namespace EvmAudit

theorem Text.trim_ofList {cs : List Char} (h : ∀ c ∈ cs, isBlank c = false) :
    trim (String.ofList cs) = String.ofList cs := by
  simpa [trim] using strip_of_not_mem h [] (by simp)

theorem Listing.isDecimal_eq_isDigit (c : Char) : isDecimal c = c.isDigit := by
  simp [isDecimal, Char.isDigit, Char.le_def, UInt32.le_iff_toNat_le]

namespace Numeral

variable {c d : Char} {k n : Nat}

def digitValue (base : Nat) (c : Char) : Nat := (digit? base c).getD 0

def valueFrom (base acc : Nat) (ds : List Char) : Nat :=
  ds.foldl (fun n d => n * base + digitValue base d) acc

def isDigitOf (base : Nat) (c : Char) : Prop := c ≠ '_' ∧ (digit? base c).isSome = true

variable {base : Nat} {ds : List Char}

theorem digitValue_lt (h : 0 < base) (c : Char) : digitValue base c < base := by
  cases hd : digit? base c with
  | none => simpa [digitValue, hd] using h
  | some d =>
    have hlt : d < base := by
      simp only [digit?, Option.ite_none_right_eq_some, Option.some.injEq] at hd
      obtain ⟨hlt, rfl⟩ := hd
      exact hlt
    simpa [digitValue, hd] using hlt

theorem digit?_eq_some (h : isDigitOf base c) : digit? base c = some (digitValue base c) := by
  obtain ⟨d, hd⟩ := Option.isSome_iff_exists.1 h.2
  simp [digitValue, hd]

theorem restDigits_eq_some (h : ∀ d ∈ ds, isDigitOf base d) (acc : Nat) :
    restDigits base acc ds = some (valueFrom base acc ds) := by
  induction ds generalizing acc with
  | nil => rfl
  | cons d ds ih =>
    have hd : isDigitOf base d := h d (by simp)
    have hrest := ih (fun e he => h e (by simp [he])) (acc * base + digitValue base d)
    rw [restDigits]
    · rw [digit?_eq_some hd, Option.bind_some, hrest]
      rfl
    · exact fun _ _ he => absurd he hd.1

theorem digits_eq_some (hne : ds ≠ []) (h : ∀ d ∈ ds, isDigitOf base d) :
    digits base ds = some (valueFrom base 0 ds) := by
  cases ds with
  | nil => exact absurd rfl hne
  | cons d ds =>
    rw [digits, digit?_eq_some (h d (by simp)), Option.bind_some,
      restDigits_eq_some fun e he => h e (by simp [he])]
    simp [valueFrom]

theorem toNat_of_isDigit (h : c.isDigit = true) : 48 ≤ c.toNat ∧ c.toNat ≤ 57 := by
  simpa [Char.isDigit, UInt32.le_iff_toNat_le] using h

theorem digit?_of_isDigit (h : c.isDigit = true) (hb : 10 ≤ base) :
    digit? base c = some (c.toNat - 48) := by
  have hc := toNat_of_isDigit h
  have hlower : ¬ 'a' ≤ c := by
    rw [Char.le_def, UInt32.le_iff_toNat_le, Nat.not_le]
    exact Nat.lt_of_le_of_lt hc.2 (by decide)
  have hupper : ¬ 'A' ≤ c := by
    rw [Char.le_def, UInt32.le_iff_toNat_le, Nat.not_le]
    exact Nat.lt_of_le_of_lt hc.2 (by decide)
  have hlt : c.toNat - 48 < base := by omega
  simp [digit?, hlower, hupper, Text.decimalValue?, h, hlt]

theorem isDigitOf_of_isDigit (h : c.isDigit = true) (hb : 10 ≤ base) : isDigitOf base c := by
  refine ⟨?_, by simp [digit?_of_isDigit h hb]⟩
  rintro rfl
  exact absurd h (by decide)

theorem valueFrom_eq_ofDigitChars (h : ∀ d ∈ ds, d.isDigit = true) (acc : Nat) :
    valueFrom 10 acc ds = Nat.ofDigitChars 10 ds acc := by
  induction ds generalizing acc with
  | nil => rfl
  | cons d ds ih =>
    have hd : digitValue 10 d = d.toNat - '0'.toNat := by
      simp [digitValue, digit?_of_isDigit (h d (by simp))]
    rw [Nat.ofDigitChars_cons, ← ih fun e he => h e (by simp [he]), ← hd, Nat.mul_comm]
    rfl

theorem not_blank_of_isAlphanum (h : c.isAlphanum = true) : Text.isBlank c = false := by
  have hc : 48 ≤ c.toNat ∧ c.toNat ≤ 122 := by
    simp only [Char.isAlphanum, Char.isAlpha, Char.isUpper, Char.isLower, Char.isDigit,
      Bool.or_eq_true, Bool.and_eq_true, decide_eq_true_eq, ge_iff_le,
      UInt32.le_iff_toNat_le] at h
    change ((65 ≤ c.toNat ∧ c.toNat ≤ 90) ∨ (97 ≤ c.toNat ∧ c.toNat ≤ 122)) ∨
      (48 ≤ c.toNat ∧ c.toNat ≤ 57) at h
    omega
  simp [Text.isBlank]
  omega

theorem not_sign_of_isAlphanum (h : c.isAlphanum = true) : c ≠ '-' ∧ c ≠ '+' := by
  constructor <;> rintro rfl <;> exact absurd h (by decide)

theorem read_alphanum (h : ∀ d ∈ ds, d.isAlphanum = true) :
    read base (String.ofList ds) = (magnitude base ds).map fun n => (n : Int) := by
  rw [read, Text.trim_ofList fun c hc => not_blank_of_isAlphanum (h c hc), String.toList_ofList]
  split
  · exact absurd rfl (not_sign_of_isAlphanum (h _ List.mem_cons_self)).1
  · exact absurd rfl (not_sign_of_isAlphanum (h _ List.mem_cons_self)).2
  · rfl

theorem dropMark_ten (cs : List Char) : dropMark 10 cs = cs := by
  unfold dropMark
  split <;> simp [markOf?]

theorem magnitude_decimal (hne : ds ≠ []) (h : ∀ d ∈ ds, d.isDigit = true) :
    magnitude 10 ds =
      if ds.length ≤ decimalLimit then some (Nat.ofDigitChars 10 ds 0) else none := by
  have hall : ds.filter (· != '_') = ds := by
    refine List.filter_eq_self.2 fun c hc => bne_iff_ne.2 ?_
    rintro rfl
    exact absurd (h _ hc) (by decide)
  have hvalue : digits 10 ds = some (Nat.ofDigitChars 10 ds 0) := by
    rw [digits_eq_some hne fun d hd => isDigitOf_of_isDigit (h d hd) (by omega),
      valueFrom_eq_ofDigitChars h]
  rw [magnitude, tooLong, hall, dropMark_ten, hvalue]
  simp only [beq_self_eq_true, Bool.true_and, decide_eq_true_eq, ← Nat.not_le, ite_not]

theorem read_decimal (hne : ds ≠ []) (h : ∀ d ∈ ds, d.isDigit = true) :
    read 10 (String.ofList ds) =
      if ds.length ≤ decimalLimit then some (Nat.ofDigitChars 10 ds 0 : Int) else none := by
  rw [read_alphanum fun d hd => by simp [Char.isAlphanum, h d hd], magnitude_decimal hne h]
  split <;> rfl

theorem isDigit_of_mem_toDigits (h : d ∈ Nat.toDigits 10 n) : d.isDigit = true :=
  Nat.isDigit_of_mem_toDigits (b := 10) (by omega) (by omega) h

theorem isAlphanum_of_mem_toDigits (h : d ∈ Nat.toDigits 10 n) :
    d.isAlphanum = true := by simp [Char.isAlphanum, isDigit_of_mem_toDigits h]

theorem ofDigitChars_zeros (k : Nat) :
    Nat.ofDigitChars 10 (List.replicate k '0' ++ ds) 0 = Nat.ofDigitChars 10 ds 0 := by
  induction k with
  | zero => rfl
  | succ k ih => exact ih

theorem read_zeros (h : k + (Nat.toDigits 10 n).length ≤ decimalLimit) :
    read 10 (String.ofList (List.replicate k '0' ++ Nat.toDigits 10 n)) = some (n : Int) := by
  rw [read_decimal (by simp [Nat.toDigits_ne_nil]) fun d hd => ?_, if_pos (by simpa using h),
    ofDigitChars_zeros, Nat.ofDigitChars_ten_toDigits]
  rcases List.mem_append.1 hd with hd | hd
  · rw [List.eq_of_mem_replicate hd]
    rfl
  · exact isDigit_of_mem_toDigits hd

theorem read_repr_eq (n : Nat) :
    read 10 (Nat.repr n) =
      if (Nat.toDigits 10 n).length ≤ decimalLimit then some (n : Int) else none := by
  rw [Nat.repr, read_decimal Nat.toDigits_ne_nil fun d => isDigit_of_mem_toDigits,
    Nat.ofDigitChars_ten_toDigits]

theorem read_repr (h : (Nat.toDigits 10 n).length ≤ decimalLimit) :
    read 10 (Nat.repr n) = some (n : Int) := by rw [read_repr_eq, if_pos h]

theorem read_neg_repr (h : (Nat.toDigits 10 n).length ≤ decimalLimit) :
    read 10 ("-" ++ Nat.repr n) = some (-(n : Int)) := by
  have hrepr : "-" ++ Nat.repr n = String.ofList ('-' :: Nat.toDigits 10 n) := by
    rw [← String.toList_inj]
    simp [Nat.repr]
  have hblank : ∀ c ∈ '-' :: Nat.toDigits 10 n, Text.isBlank c = false := by
    intro c hc
    rcases List.mem_cons.1 hc with rfl | hc
    · decide
    · exact not_blank_of_isAlphanum (isAlphanum_of_mem_toDigits hc)
  rw [hrepr, read, Text.trim_ofList hblank, String.toList_ofList]
  have hvalue := magnitude_decimal Nat.toDigits_ne_nil fun d => @isDigit_of_mem_toDigits d n
  rw [if_pos h, Nat.ofDigitChars_ten_toDigits] at hvalue
  simp [hvalue]

theorem toNat_of_isHexadecimal (h : Listing.isHexadecimal c = true) :
    c.isDigit = true ∨ (97 ≤ c.toNat ∧ c.toNat ≤ 102) ∨ (65 ≤ c.toNat ∧ c.toNat ≤ 70) := by
  simp only [Listing.isHexadecimal, Listing.isDecimal_eq_isDigit, Bool.or_eq_true,
    Bool.and_eq_true, decide_eq_true_eq, Char.le_def, UInt32.le_iff_toNat_le] at h
  exact or_assoc.1 h

theorem isAlphanum_of_isHexadecimal (h : Listing.isHexadecimal c = true) : c.isAlphanum = true := by
  rcases toNat_of_isHexadecimal h with h | h | h
  · simp [Char.isAlphanum, h]
  · simp [Char.isAlphanum, Char.isAlpha, Char.isLower, UInt32.le_iff_toNat_le]
    omega
  · simp [Char.isAlphanum, Char.isAlpha, Char.isUpper, UInt32.le_iff_toNat_le]
    omega

theorem isDigitOf_of_isHexadecimal (h : Listing.isHexadecimal c = true) : isDigitOf 16 c := by
  have hne : c ≠ '_' := by
    rintro rfl
    exact absurd h (by decide)
  rcases toNat_of_isHexadecimal h with h | h | h
  · exact isDigitOf_of_isDigit h (by omega)
  · have hlower : 'a' ≤ c ∧ c ≤ 'z' := by
      rw [Char.le_def, Char.le_def, UInt32.le_iff_toNat_le, UInt32.le_iff_toNat_le]
      exact ⟨h.1, Nat.le_trans h.2 (by decide)⟩
    have hlt : c.toNat - 87 < 16 := by omega
    exact ⟨hne, by simp [digit?, hlower, hlt]⟩
  · have hlower : ¬ 'a' ≤ c := by
      rw [Char.le_def, UInt32.le_iff_toNat_le, Nat.not_le]
      exact Nat.lt_of_le_of_lt h.2 (by decide)
    have hupper : 'A' ≤ c ∧ c ≤ 'Z' := by
      rw [Char.le_def, Char.le_def, UInt32.le_iff_toNat_le, UInt32.le_iff_toNat_le]
      exact ⟨h.1, Nat.le_trans h.2 (by decide)⟩
    have hlt : c.toNat - 55 < 16 := by omega
    exact ⟨hne, by simp [digit?, hlower, hupper, hlt]⟩

theorem read_hex (hne : ds ≠ []) (h : ∀ d ∈ ds, Listing.isHexadecimal d = true) :
    read 16 (String.ofList ('0' :: 'x' :: ds)) = some (valueFrom 16 0 ds : Int) := by
  have halnum : ∀ c ∈ '0' :: 'x' :: ds, c.isAlphanum = true := by
    simpa using fun c hc => isAlphanum_of_isHexadecimal (h c hc)
  have hmark : dropMark 16 ('0' :: 'x' :: ds) = ds := by
    cases ds with
    | nil => exact absurd rfl hne
    | cons d ds =>
      have hd : d ≠ '_' := (isDigitOf_of_isHexadecimal (h d (by simp))).1
      simp [dropMark, markOf?, hd]
  rw [read_alphanum halnum]
  simp [magnitude, tooLong, hmark,
    digits_eq_some hne fun d hd => isDigitOf_of_isHexadecimal (h d hd)]

end Numeral

end EvmAudit
