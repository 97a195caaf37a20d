import EvmAudit.Proofs.Value.Numbers

/-! Items that stand for a word: numbers in range and symbolic words. Which operations on such items
give such an item again, and what division gives. -/

namespace EvmAudit

open Word

namespace Value

variable {env : Assignment}

def IsWord : Value → Prop
  | .int n => 0 ≤ n ∧ n < Word.count
  | .word _ => True
  | _ => False

instance (v : Value) : Decidable v.IsWord :=
  match v with
  | .int n => inferInstanceAs (Decidable (0 ≤ n ∧ n < Word.count))
  | .word _ => .isTrue trivial
  | .bool _ | .double _ | .text _ | .prop _ | .ratio _ | .record | .conditions _ | .absent =>
    .isFalse id

def IsTerm (v : Value) : Prop := ∃ t, v = .word t

variable {a b v : Value}

theorem IsTerm.isWord (h : v.IsTerm) : v.IsWord := by
  obtain ⟨t, rfl⟩ := h
  trivial

theorem isWord_natCast {n : Nat} (h : n < 2 ^ 256) : (Value.int n).IsWord := by
  refine ⟨Int.natCast_nonneg n, ?_⟩
  have hcount : Word.count = 2 ^ 256 := rfl
  omega

theorem isWord_zero : (Value.int 0).IsWord := isWord_natCast (by decide)

theorem isWord_toNat (w : Word) : (Value.int w.toNat).IsWord := isWord_natCast w.isLt

theorem IsWord.cases (h : v.IsWord) : (∃ w : Word, v = .int w.toNat) ∨ v.IsTerm := by
  cases v with
  | int n =>
    obtain ⟨k, rfl⟩ := Int.eq_ofNat_of_zero_le h.1
    have hlt : k < 2 ^ 256 := by
      have hcount : Word.count = 2 ^ 256 := rfl
      have := h.2
      omega
    exact .inl ⟨BitVec.ofNat 256 k, by rw [BitVec.toNat_ofNat, Nat.mod_eq_of_lt hlt]⟩
  | word t => exact .inr ⟨t, rfl⟩
  | _ => exact h.elim

theorem IsWord.stands (h : v.IsWord) (env : Assignment) : ∃ w, v.Stands env w := by
  obtain ⟨w, rfl⟩ | ⟨t, rfl⟩ := h.cases
  · exact ⟨w, stands_int w⟩
  · exact ⟨_, rfl⟩

theorem Stands.isWord {w : Word} (h : v.Stands env w) : v.IsWord := by
  obtain rfl | ⟨t, rfl, -⟩ := h.cases
  · exact isWord_toNat w
  · trivial

theorem gives_isWord {w : Word} {x : Except Fault Value} (h : Gives (Stands env w) x) :
    Gives IsWord x := fun v hv => (h v hv).isWord

theorem isWord_simplify (s : Simplifier) (v : Value) : (s.value v).IsWord ↔ v.IsWord := by
  cases v <;> exact Iff.rfl

theorem IsWord.lift (h : v.IsWord) : v.lift.IsTerm := by
  obtain ⟨w, rfl⟩ | ⟨t, rfl⟩ := h.cases
  · exact ⟨_, rfl⟩
  · exact ⟨t, rfl⟩

/-! ### Symbolic words -/

theorem gives_apply_term {op : Arithmetic} (h : a.IsTerm ∨ b.IsTerm) :
    Gives IsTerm (op.apply a b) := by
  obtain ⟨t, rfl⟩ | ⟨t, rfl⟩ := h
  · exact gives_bind fun _ => gives_pure ⟨_, rfl⟩
  · cases a <;> exact gives_bind fun _ => gives_pure ⟨_, rfl⟩

theorem gives_bitwise_term {op : Binary} {onInts : Int → Int → Int} (h : a.IsTerm ∨ b.IsTerm) :
    Gives IsTerm (bitwise op onInts a b) := by
  obtain ⟨t, rfl⟩ | ⟨t, rfl⟩ := h
  · exact gives_bind fun _ => gives_pure ⟨_, rfl⟩
  · cases a <;> exact gives_bind fun _ => gives_pure ⟨_, rfl⟩

theorem gives_shift_term {op : Binary} {onInts : Int → Nat → Int} (h : a.IsTerm ∨ b.IsTerm) :
    Gives IsTerm (shift op onInts a b) := by
  obtain ⟨t, rfl⟩ | ⟨t, rfl⟩ := h
  · exact gives_bind fun _ => gives_pure ⟨_, rfl⟩
  · cases a <;> exact gives_bind fun _ => gives_pure ⟨_, rfl⟩

theorem gives_choose_term {c : Condition} (h : a.IsTerm ∨ b.IsTerm) :
    Gives IsTerm (choose c a b) := by
  obtain ⟨t, rfl⟩ | ⟨t, rfl⟩ := h
  · exact gives_bind fun _ => gives_pure ⟨_, rfl⟩
  · cases a <;> exact gives_bind fun _ => gives_pure ⟨_, rfl⟩

theorem gives_onWords_term (op : Binary) (a b : Value) : Gives IsTerm (onWords op a b) :=
  gives_bind fun _ => gives_pure ⟨_, rfl⟩

end Value

open Value

variable {a b v : Value}

/-! ### Numbers -/

namespace Arithmetic

theorem isWord_of_stands {op : Value → Value → Except Fault Value} {f : Word → Word → Word}
    (hop : ∀ {x y}, a.Stands (fun _ => 0) x → b.Stands (fun _ => 0) y →
      Gives (Stands (fun _ => 0) (f x y)) (op a b)) (ha : a.IsWord) (hb : b.IsWord) :
      Gives IsWord (op a b) := by
  obtain ⟨x, hx⟩ := ha.stands fun _ => 0
  obtain ⟨y, hy⟩ := hb.stands fun _ => 0
  exact gives_isWord (hop hx hy)

theorem isWord_remainder (x y : Word) : Gives IsWord (remainder x.toNat y.toNat) := by
  rw [remainder_toNat]
  refine gives_ok (isWord_natCast ?_)
  split
  · decide
  · exact Nat.lt_of_le_of_lt (Nat.mod_le _ _) x.isLt

theorem isWord_wordPower (m n : Int) : Gives (fun k => (Value.int k).IsWord) (wordPower m n) := by
  have hlt (base e : Nat) : (Value.int (powMod base e Word.count)).IsWord :=
    isWord_natCast (powMod_eq base e _ ▸ Nat.mod_lt _ (by decide))
  unfold wordPower
  dsimp only
  split
  · exact gives_ok (hlt _ _)
  · split
    · exact gives_ok (hlt _ _)
    · exact gives_error _

theorem isWord_reduced {k n : Int} (hn : 0 ≤ n) (hn' : n < Word.count) :
    (Value.int (if n = 0 then 0 else k.fmod n)).IsWord := by
  split
  · exact isWord_zero
  · exact ⟨Int.fmod_nonneg_of_pos k
      (by omega), by have := Int.fmod_lt_of_pos k (show 0 < n by omega); omega⟩

theorem isWord_byteOf (x : Word) (shift : Int) :
    Gives IsWord (Exec.byteOf (.int x.toNat) (.int shift)) := by
  rcases lt_or_ge shift 0 with hshift | hshift
  · have herror : (Value.int 255).shiftLeft (.int shift) = .error .badNumeral := if_pos hshift
    rw [Exec.byteOf, herror]
    exact gives_error _
  · obtain ⟨k, rfl⟩ := Int.eq_ofNat_of_zero_le hshift
    rw [Exec.byteOf_natCast]
    exact gives_ok (isWord_natCast ((Nat.mod_lt _ (by decide)).trans (by decide)))

theorem gives_byteOf_term {shift : Value} (h : v.IsTerm) : Gives IsTerm (Exec.byteOf v shift) :=
  gives_bind fun _ => (gives_bitwise_term (.inl h)).bind fun _ h' => gives_shift_term (.inl h')

theorem gives_magnitude_term (h : v.IsTerm) : Gives IsTerm (magnitude v) :=
  gives_bind fun _ => gives_bind fun _ => gives_choose_term (.inl h)

end Arithmetic

/-! ### Division -/

namespace Word

variable (x y : Word)

theorem toSigned_toNat :
    toSigned x.toNat = if 2 ^ 255 < x.toNat then (x.toNat : Int) - 2 ^
    256 else (x.toNat : Int) := by
  have hcount : (Word.count : Int) = 2 ^ 256 := rfl
  have hbound : (Word.signBound : Int) = 2 ^ 255 := rfl
  rw [toSigned]
  split <;> split <;> omega

theorem natAbs_toSigned : (toSigned x.toNat).natAbs = x.toInt.natAbs := by
  have hlt := x.isLt
  rw [toSigned_toNat, BitVec.toInt_eq_toNat_cond]
  split <;> split <;> omega

theorem toSigned_neg_iff : toSigned x.toNat < 0 ↔ 2 ^ 255 < x.toNat := by
  have hlt := x.isLt
  rw [toSigned_toNat]
  split <;> omega

theorem natAbs_toInt_srem : (x.srem y).toInt.natAbs = x.toInt.natAbs % y.toInt.natAbs := by
  rw [BitVec.toInt_srem, Int.natAbs_tmod]

variable {x y}

theorem natAbs_toInt_le (x : Word) : x.toInt.natAbs ≤ 2 ^ 255 := by
  have hlow := BitVec.le_toInt x
  have hhigh := BitVec.toInt_lt (x := x)
  omega

theorem natAbs_toInt_srem_lt (hy : y ≠ 0) : (x.srem y).toInt.natAbs < 2 ^ 255 := by
  have hpos : 0 < y.toInt.natAbs := by
    rw [Int.natAbs_pos]
    exact fun h => hy (BitVec.eq_of_toInt_eq h)
  rw [natAbs_toInt_srem]
  exact (Nat.mod_lt _ hpos).trans_le (natAbs_toInt_le y)

theorem eq_toNat_srem_iff (hy : y ≠ 0) {n : Int} (hn : n.natAbs = (x.srem y).toInt.natAbs)
    (hsign : n ≤ 0 ∨ x.toNat ≤ 2 ^ 255) (hsign' : 0 ≤ n ∨ 2 ^ 255 < x.toNat) :
    n = (x.srem y).toNat ↔ x.toNat < 2 ^ 255 ∨ x.srem y = 0 := by
  have hlt := natAbs_toInt_srem_lt (x := x) hy
  have hdividend := BitVec.toInt_eq_toNat_cond x
  have hcond := BitVec.toInt_eq_toNat_cond (x.srem y)
  have hnonneg : 0 ≤ x.toInt → 0 ≤ (x.srem y).toInt := by
    rw [BitVec.toInt_srem]
    exact Int.tmod_nonneg _
  have hnonpos : x.toInt ≤ 0 → (x.srem y).toInt ≤ 0 := by
    intro h
    have hneg := Int.tmod_nonneg y.toInt (Int.neg_nonneg_of_nonpos h)
    rw [Int.neg_tmod] at hneg
    rw [BitVec.toInt_srem]
    omega
  have hzero : x.srem y = 0 ↔ (x.srem y).toNat = 0 := by rw [BitVec.toNat_eq]; rfl
  rw [hzero]
  have hrange := (x.srem y).isLt
  -- the sign bound itself is read as positive by `n` and as negative by `x.toInt`
  split at hdividend <;> split at hcond <;> omega

end Word

namespace Arithmetic

theorem div_int {a b : Int} (ha : a.natAbs < 2 ^ 256) (hb : b ≠ 0) :
    ∃ q, Double.ofQuotient? a b = some q ∧ (Value.int a).div (.int b) = .ok (.double q) := by
  have hlog : a.natAbs.log2 ≤ 1000 := by
    have hpow : Int.pow 2 256 = ((2 ^ 256 : Nat) : Int) := rfl
    exact @Double.log2_natAbs_le a.natAbs (Int.natCast_nonneg _) (by omega)
  obtain ⟨s, m, e, hfinite⟩ := Double.ofQuotient?_finite hlog b
  refine ⟨_, hfinite, ?_⟩
  unfold Value.div Value.Arithmetic.apply
  simp [Value.toInt?, hb, hfinite]

theorem lt_zero_double (q : Double) : ∃ c, (Value.double q).lt (.int 0) = .ok (.settled c) := by
  cases q <;> exact ⟨_, rfl⟩

theorem sign_mul_double {sign : Int} (h : sign = 1 ∨ sign = -1) (q : Double) :
    ∃ s, (Double.ofInt? 1 = some s ∨ Double.ofInt? (-1) = some s) ∧
      (Value.int sign).mul (.double q) = .ok (.double (s.mul q)) := by
  obtain rfl | rfl := h
  · exact ⟨_, .inl rfl, rfl⟩
  · exact ⟨_, .inr rfl, rfl⟩

theorem quotient_toNat (x y : Word) : ∃ v, quotient x.toNat y.toNat = .ok v ∧
    (∀ s : Simplifier, s.value v = v) ∧
    if y = 0 then v = .int 0 else ∃ q, Double.ofQuotient? x.toNat y.toNat = some q ∧
      v = .double q := by
  rw [quotient, toUnsigned_natCast, toUnsigned_natCast]
  by_cases hy : y = 0
  · rw [if_pos ((toNat_eq_zero_iff y).2 hy)]
    exact ⟨_, rfl, fun _ => rfl, by rw [if_pos hy]⟩
  · have hpos : (y.toNat : Int) ≠ 0 := fun h => hy ((toNat_eq_zero_iff y).1 h)
    obtain ⟨q, hq, hdiv⟩ := @div_int x.toNat y.toNat x.isLt hpos
    rw [if_neg hpos]
    exact ⟨_, hdiv, fun _ => rfl, by rw [if_neg hy]; exact ⟨q, hq, rfl⟩⟩

theorem signedQuotient_toNat (x y : Word) : ∃ v, signedQuotient x.toNat y.toNat = .ok v ∧
    (∀ s : Simplifier, s.value v = v) ∧
    if y = 0 then v = .int 0
    else ∃ sign q, (Double.ofInt? 1 = some sign ∨ Double.ofInt? (-1) = some sign) ∧
      Double.ofQuotient? x.toInt.natAbs y.toInt.natAbs = some q ∧ v = .double (sign.mul q) := by
  have hzero : toSigned y.toNat = 0 ↔ y = 0 := by
    rw [← Int.natAbs_eq_zero, natAbs_toSigned, Int.natAbs_eq_zero]
    exact ⟨fun h => BitVec.eq_of_toInt_eq h, fun h => h ▸ rfl⟩
  have hleast : toSigned x.toNat ≠ leastSigned := by
    have hleast : leastSigned = -(2 ^ 255) := rfl
    rw [toSigned_toNat, hleast]
    split <;> omega
  unfold signedQuotient
  by_cases hy : y = 0
  · dsimp only
    rw [if_pos (hzero.2 hy)]
    exact ⟨_, rfl, fun _ => rfl, by rw [if_pos hy]⟩
  · have hx : (toSigned x.toNat).natAbs < 2 ^ 256 := by
      rw [natAbs_toSigned]
      exact Nat.lt_of_le_of_lt (natAbs_toInt_le x) (by decide)
    obtain ⟨q₀, -, hquotient⟩ := div_int hx fun h => hy (hzero.1 h)
    obtain ⟨q, hq, hmagnitude⟩ := @div_int (toSigned x.toNat).natAbs (toSigned y.toNat).natAbs hx
      (by rw [Ne, Int.natCast_eq_zero, Int.natAbs_eq_zero]; exact fun h => hy (hzero.1 h))
    obtain ⟨c, hc⟩ := lt_zero_double q₀
    simp only [if_neg hy]
    rw [if_neg (fun h => hy (hzero.1 h)), if_neg (fun h => hleast h.1), hquotient, hmagnitude]
    rw [natAbs_toSigned, natAbs_toSigned] at hq
    dsimp only [bind, Except.bind]
    rw [hc]
    cases c with
    | false =>
      obtain ⟨sign, hsign, hmul⟩ := sign_mul_double (.inl rfl) q
      exact ⟨_, hmul, fun _ => rfl, sign, q, hsign, hq, rfl⟩
    | true =>
      obtain ⟨sign, hsign, hmul⟩ := sign_mul_double (.inr rfl) q
      exact ⟨_, hmul, fun _ => rfl, sign, q, hsign, hq, rfl⟩

theorem signedRemainder_toNat (x y : Word) : ∃ n :
    Int, signedRemainder x.toNat y.toNat = .ok (.int n) ∧
    (n = (if y = 0 then 0 else x.srem y).toNat ↔ y = 0 ∨ x.toNat < 2 ^ 255 ∨ x.srem y = 0) ∧
    ((Value.int n).IsWord ↔ ¬ (y ≠ 0 ∧ 2 ^ 255 < x.toNat ∧ x.srem y ≠ 0)) := by
  by_cases hy : y = 0
  · refine ⟨0, ?_, by simp [hy], ?_⟩
    · rw [signedRemainder, if_pos ((toNat_eq_zero_iff y).2 hy)]
      rfl
    · simp [hy, isWord_zero]
  · have hsigned : (x.srem y).toInt.natAbs =
        (toSigned x.toNat).natAbs % (toSigned y.toNat).natAbs := by
      rw [natAbs_toInt_srem, natAbs_toSigned, natAbs_toSigned]
    have hnonzero : (toSigned y.toNat).natAbs ≠ 0 := by
      rw [natAbs_toSigned, Int.natAbs_ne_zero]
      exact fun h => hy (BitVec.eq_of_toInt_eq h)
    have hmod : (Value.int (toSigned x.toNat).natAbs).mod (.int (toSigned y.toNat).natAbs) =
        .ok (.int (x.srem y).toInt.natAbs) := by
      rw [hsigned, Int.natCast_mod, ← Int.fmod_eq_emod_of_nonneg _ (Int.natCast_nonneg _)]
      exact if_neg (by omega)
    have hrem : signedRemainder x.toNat y.toNat =
        .ok (.int ((if toSigned x.toNat < 0 then -1 else 1) * (x.srem y).toInt.natAbs)) := by
      rw [signedRemainder, if_neg (fun h => hy ((toNat_eq_zero_iff y).1 h))]
      dsimp only
      rw [hmod]
      rfl
    have hlt := natAbs_toInt_srem_lt (x := x) hy
    have hneg := toSigned_neg_iff x
    refine ⟨_, hrem, ?_, ?_⟩
    · rw [if_neg hy, or_iff_right hy]
      refine eq_toNat_srem_iff hy ?_ ?_ ?_ <;> split <;> omega
    · have hzero : x.srem y = 0 ↔ (x.srem y).toInt.natAbs = 0 := by
        rw [Int.natAbs_eq_zero]
        exact ⟨fun h => h ▸ rfl, fun h => BitVec.eq_of_toInt_eq h⟩
      have hcount : (Word.count : Int) = 2 ^ 256 := rfl
      rw [Ne, Ne, hzero, Value.IsWord, hcount]
      simp only [hy, not_false_eq_true, true_and]
      split <;> omega

end Arithmetic

end EvmAudit
