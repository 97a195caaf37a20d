import EvmAudit.Proofs.Term.Meaning
import EvmAudit.Proofs.Value.Over

/-! The words that values stand for under an assignment. Whether its operands are numbers or terms,
an operation on values computes the operation on words. -/

namespace EvmAudit

open Word

/-- A number stands for the word with that number, and a term for its value. -/
def Value.Stands (env : Assignment) (w : Word) : Value → Prop
  | .int n => n = w.toNat
  | .word t => t.eval env = w
  | _ => False

variable {env : Assignment} {a b v : Value} {x y w : Word}

namespace Word

theorem ofInt_toNat (w : Word) : BitVec.ofInt 256 (w.toNat : Int) = w := by simp

theorem ofInt_count : BitVec.ofInt 256 (count : Int) = 0 := by decide

theorem ofInt_mask : BitVec.ofInt 256 ((count : Int) - 1) = ones := by decide

theorem fmod_add (x y : Word) : ((x.toNat : Int) + y.toNat).fmod count = (x + y).toNat := by
  rw [Int.fmod_eq_emod_of_nonneg _ (by simp [count]), BitVec.toNat_add]
  push_cast
  rfl

theorem fmod_sub (x y : Word) : ((x.toNat : Int) - y.toNat).fmod count = (x - y).toNat := by
  have hy := y.isLt
  have hcast : ((2 ^ 256 - y.toNat + x.toNat : Nat) : Int) = (x.toNat - y.toNat) + 2 ^ 256 := by
    omega
  rw [Int.fmod_eq_emod_of_nonneg _ (by simp [count]), BitVec.toNat_sub, Int.natCast_emod, hcast]
  simp [count]

theorem intAnd_mask (n : Nat) : Value.intAnd n ((count : Int) - 1) = (n % 2 ^ 256 : Nat) := by
  have hmask : ((count : Int) - 1) = ((2 ^ 256 - 1 : Nat) : Int) := by decide
  rw [hmask]
  exact congrArg Nat.cast (Nat.and_two_pow_sub_one_eq_mod n 256)

theorem xor_add_and (x y : Word) : (x ^^^ y) + (x &&& y) = x ||| y := by
  rw [BitVec.add_eq_or_of_and_eq_zero]
  · ext i
    simp only [BitVec.getElem_or, BitVec.getElem_xor, BitVec.getElem_and]
    cases x[i] <;> cases y[i] <;> rfl
  · ext i
    simp only [BitVec.getElem_and, BitVec.getElem_xor, BitVec.getElem_zero]
    cases x[i] <;> cases y[i] <;> rfl

theorem intNot_natCast (n : Nat) : Value.intNot n = Int.negSucc n := by
  rw [Value.intNot, Int.negSucc_eq]
  omega

theorem intAnd_toNat (x y : Word) : Value.intAnd x.toNat y.toNat = (x &&& y).toNat :=
  congrArg Nat.cast (BitVec.toNat_and x y).symm

theorem intOr_toNat (x y : Word) : Value.intOr x.toNat y.toNat = (x ||| y).toNat := by
  rw [Value.intOr, intNot_natCast, intNot_natCast, BitVec.toNat_or]
  change Value.intNot (Int.negSucc (x.toNat ||| y.toNat)) = _
  rw [Value.intNot, Int.negSucc_eq]
  omega

theorem intXor_toNat (x y : Word) : Value.intXor x.toNat y.toNat = (x ^^^ y).toNat := by
  have hand : (x ||| y).toNat &&& (x &&& y).toNat = (x &&& y).toNat := by
    rw [← BitVec.toNat_and]
    congr 1
    ext i
    simp only [BitVec.getElem_and, BitVec.getElem_or]
    cases x[i] <;> cases y[i] <;> rfl
  have hle : (x &&& y).toNat ≤ (x ||| y).toNat := by
    rw [BitVec.toNat_and, BitVec.toNat_or]
    exact Nat.le_trans Nat.and_le_left Nat.left_le_or
  have hsub : (x ^^^ y).toNat = (x ||| y).toNat - (x &&& y).toNat := by
    rw [← BitVec.toNat_sub_of_le hle, ← xor_add_and x y, BitVec.add_sub_cancel]
  rw [Value.intXor, intOr_toNat, intAnd_toNat, intNot_natCast]
  change (((x ||| y).toNat - ((x ||| y).toNat &&& (x &&& y).toNat) : Nat) : Int) = _
  rw [hand, hsub]

theorem intAnd_negSucc (x : Word) :
    Value.intAnd (Int.negSucc x.toNat) ((count : Int) - 1) = (~~~x).toNat := by
  have hmask : ((count : Int) - 1) = ((2 ^ 256 - 1 : Nat) : Int) := by decide
  have hx := x.isLt
  have hland : x.toNat &&& (2 ^ 256 - 1) = x.toNat := by
    rw [Nat.and_two_pow_sub_one_eq_mod, Nat.mod_eq_of_lt hx]
  rw [hmask, BitVec.toNat_not]
  change ((2 ^ 256 - 1 - (x.toNat &&& (2 ^ 256 - 1)) : Nat) : Int) = _
  rw [hland]

def truth (b : Bool) : Word := if b then 1 else 0

theorem truth_toNat (b : Bool) : ((truth b).toNat : Int) = if b then 1 else 0 := by
  cases b <;> rfl

end Word

namespace Value

theorem Stands.cases (h : v.Stands env w) : v = .int w.toNat ∨ ∃ t :
    Term, v = .word t ∧ t.eval env = w := by
  cases v with
  | int n => exact .inl (congrArg Value.int h)
  | word t => exact .inr ⟨t, rfl, h⟩
  | _ => exact h.elim

theorem stands_int (w : Word) : (Value.int w.toNat).Stands env w := rfl

theorem Stands.simplify {s : Simplifier} (hs : s.Sound) (h : v.Stands env w) :
    (s.value v).Stands env w := by
  obtain rfl | ⟨t, rfl, ht⟩ := h.cases
  · exact h
  · exact (hs.eval env t).trans ht

theorem Stands.lift (h : v.Stands env w) : ∃ t, v.lift = .word t ∧ t.eval env = w := by
  obtain rfl | ⟨t, rfl, ht⟩ := h.cases
  · exact ⟨_, rfl, ofInt_toNat w⟩
  · exact ⟨t, rfl, ht⟩

theorem Stands.asTerm (h : v.Stands env w) : ∃ t, v.asTerm = .ok t ∧ t.eval env = w := by
  obtain rfl | ⟨t, rfl, ht⟩ := h.cases
  · exact ⟨_, rfl, ofInt_toNat w⟩
  · exact ⟨t, rfl, ht⟩

/-! ### Bits -/

theorem stands_bitwise {op : Binary} {onInts : Int → Int → Int} (ha : a.Stands env x)
    (hb : b.Stands env y) (hw : op.apply x y = w) (hints : onInts x.toNat y.toNat = w.toNat) :
    Gives (Value.Stands env w) (bitwise op onInts a b) := by
  obtain rfl | ⟨s, rfl, rfl⟩ := ha.cases
  · obtain rfl | ⟨t, rfl, rfl⟩ := hb.cases
    · exact gives_ok hints
    · refine gives_pure ?_
      change op.apply (BitVec.ofInt 256 (x.toNat : Int)) (t.eval env) = w
      rw [ofInt_toNat, hw]
  · obtain ⟨t, hterm, rfl⟩ := hb.asTerm
    rw [bitwise, hterm]
    exact gives_pure hw

theorem stands_mask {t : Term} (ht : t.eval env = w) :
    Gives (Value.Stands env w) ((Value.word t).bitAnd (.int ((Word.count : Int) - 1))) := by
  refine gives_pure ?_
  change t.eval env &&& BitVec.ofInt 256 ((Word.count : Int) - 1) = w
  rw [ofInt_mask, and_ones, ht]

theorem stands_bitNot (ha : a.Stands env x) :
    Gives (Value.Stands env (~~~x)) (do (← a.bitNot).bitAnd (.int ((Word.count : Int) - 1))) := by
  obtain rfl | ⟨t, rfl, rfl⟩ := ha.cases
  · refine gives_ok ?_
    change Value.intAnd (Value.intNot x.toNat) ((Word.count : Int) - 1) = (~~~x).toNat
    rw [intNot_natCast]
    exact intAnd_negSucc x
  · exact stands_mask rfl

/-! ### Arithmetic -/

theorem stands_wrap {t : Term} (ht : t.eval env = w) :
    Gives (Value.Stands env w) ((Value.word t).mod (.int Word.count)) := by
  refine gives_pure ?_
  change (t.eval env).smod (BitVec.ofInt 256 (Word.count : Int)) = w
  rw [ofInt_count, ht]
  exact BitVec.smod_zero

theorem stands_lifted {op : Binary} (f : Value → Value → Except Fault Value)
    (hf : ∀ s t, f (.word s) (.word t) = .ok (.word (.binary op s t))) (ha : a.Stands env x)
    (hb : b.Stands env y) : Gives (Value.Stands env (op.apply x y)) (f a.lift b.lift) := by
  obtain ⟨s, hs, rfl⟩ := ha.lift
  obtain ⟨t, ht, rfl⟩ := hb.lift
  rw [hs, ht, hf]
  exact gives_pure rfl

theorem stands_sum (ha : a.Stands env x) (hb : b.Stands env y) :
    Gives (Value.Stands env (x + y)) (Arithmetic.sum a b) := by
  have hlifted := stands_lifted Value.add (fun _ _ => rfl) ha hb
  obtain rfl | ⟨s, rfl, rfl⟩ := ha.cases <;> obtain rfl | ⟨t, rfl, rfl⟩ := hb.cases
  · exact gives_ok (fmod_add x y)
  · exact hlifted
  · exact hlifted
  · exact stands_wrap rfl

theorem stands_difference (ha : a.Stands env x) (hb : b.Stands env y) :
    Gives (Value.Stands env (x - y)) (Arithmetic.difference a b) := by
  have hlifted := stands_lifted Value.sub (fun _ _ => rfl) ha hb
  obtain rfl | ⟨s, rfl, rfl⟩ := ha.cases <;> obtain rfl | ⟨t, rfl, rfl⟩ := hb.cases
  · exact gives_ok (fmod_sub x y)
  · exact hlifted
  · exact hlifted
  · exact stands_wrap rfl

theorem stands_product (ha : a.Stands env x) (hb : b.Stands env y) :
    Gives (Value.Stands env (x * y)) (Arithmetic.product a b) := by
  have hwords (s t : Term) (hs : s.eval env = x) (ht : t.eval env = y) :
      Gives (Value.Stands env (x * y))
        (do (← (Value.word s).mul (.word t)).bitAnd (.int ((Word.count : Int) - 1))) := by
    subst hs ht
    exact stands_mask rfl
  obtain rfl | ⟨s, rfl, hs⟩ := ha.cases <;> obtain rfl | ⟨t, rfl, ht⟩ := hb.cases
  · refine gives_ok ?_
    change Value.intAnd (((x.toNat : Int) * y.toNat)) ((Word.count : Int) - 1) = (x * y).toNat
    rw [← Int.natCast_mul, intAnd_mask, BitVec.toNat_mul]
  · exact hwords _ t (ofInt_toNat x) ht
  · exact hwords s _ hs (ofInt_toNat y)
  · exact hwords s t hs ht

/-! ### Comparisons -/

theorem stands_oneOrZero {c : Condition} {p : Bool} (h : c.formula.eval env = p) :
    (Exec.oneOrZero c).Stands env (Word.truth p) := by
  change (if c.formula.eval env = true then (1 : Word) else 0) = Word.truth p
  rw [h, Word.truth]

theorem holds_unsignedOrder (op : Comparison) (ha : a.Stands env x) (hb : b.Stands env y) :
    Gives (fun c => c.formula.eval env = op.holds x y) (Exec.unsignedOrder op a b) := by
  obtain rfl | ⟨s, rfl, hs⟩ := ha.cases
  · obtain rfl | ⟨t, rfl, ht⟩ := hb.cases
    · exact gives_error _
    · refine gives_ok ?_
      change op.holds (BitVec.ofInt 256 (x.toNat : Int)) (t.eval env) = op.holds x y
      rw [ofInt_toNat, ht]
  · obtain ⟨t, hterm, ht⟩ := hb.asTerm
    rw [Exec.unsignedOrder, unsigned, wordPair, hterm, ← hs, ← ht]
    exact gives_ok rfl

theorem holds_eq (ha : a.Stands env x) (hb : b.Stands env y)
    (hterm : ∀ m n, a ≠ .int m ∨ b ≠ .int n) :
    Gives (fun c => c.formula.eval env = (x == y)) (a.eq b) := by
  obtain rfl | ⟨s, rfl, hs⟩ := ha.cases <;> obtain rfl | ⟨t, rfl, ht⟩ := hb.cases
  · exact absurd rfl ((hterm _ _).resolve_left (not_not.2 rfl))
  · refine gives_pure ?_
    change (t.eval env == BitVec.ofInt 256 (x.toNat : Int)) = (x == y)
    rw [ofInt_toNat, ht, Bool.beq_comm]
  · refine gives_pure ?_
    change (s.eval env == BitVec.ofInt 256 (y.toNat : Int)) = (x == y)
    rw [ofInt_toNat, hs]
  · refine gives_ok ?_
    unfold relate
    split
    · change (t.eval env == s.eval env) = (x == y)
      rw [hs, ht, Bool.beq_comm]
    · change (s.eval env == t.eval env) = (x == y)
      rw [hs, ht]

end Value

end EvmAudit
