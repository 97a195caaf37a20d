import Mathlib
import EvmAudit.Proofs.Double

/-! Quotients that need no rounding: a number of at most 53 bits over a power of two is a double. -/

namespace EvmAudit

theorem roundDiv_mul {den : Nat} (hden : 0 < den) (q : Nat) : roundDiv (q * den) den = q := by
  simp [roundDiv, Nat.mul_div_cancel q hden, hden.ne']

namespace Double

variable {d num : Nat}

theorem pow2_eq_zpow (e : Int) : pow2 e = (2 : ℚ) ^ e := by
  cases e with
  | ofNat k =>
    rw [pow2, Int.ofNat_eq_natCast, zpow_natCast]
    exact Nat.cast_pow 2 k
  | negSucc k =>
    rw [pow2, zpow_negSucc, Rat.mkRat_eq_div, Int.cast_one, one_div]
    exact congrArg _ (Nat.cast_pow 2 (k + 1))

theorem toRat_zero (negative : Bool) : (zero negative).toRat = 0 := by
  rw [zero, toRat]
  simp

theorem exponentFor_two_pow (hnum : num ≠ 0) (h : num < 2 ^ 53) (hd : d ≤ 1000) :
    exponentFor num (2 ^ (d + 1)) = Int.negSucc (d + 52 - num.log2) := by
  have hlog : num.log2 < 53 := (Nat.log2_lt hnum).2 h
  have hguess : (num.log2 : Int) - (d + 1 : Nat) - 52 = Int.negSucc (d + 52 - num.log2) := by omega
  have habove : ¬num * Nat.pow 2 (d + 52 - num.log2 + 1) < 2 ^ (d + 1) * Nat.pow 2 52 := by
    rw [not_lt]
    calc 2 ^ (d + 1) * 2 ^ 52
        = 2 ^ num.log2 * 2 ^ (d + 52 - num.log2 + 1) := by
          rw [← Nat.pow_add, ← Nat.pow_add]
          congr 1
          omega
      _ ≤ num * 2 ^ (d + 52 - num.log2 + 1) := Nat.mul_le_mul_right _ (Nat.log2_self_le hnum)
  unfold exponentFor
  rw [Nat.log2_two_pow, hguess]
  simp only [habove, decide_false, Bool.false_eq_true, if_false]
  omega

theorem toRat_ofRatio_two_pow (negative : Bool) (h : num < 2 ^ 53) (hd : d ≤ 1000) :
    ∃ m e, ofRatio negative num (2 ^ (d + 1)) = .finite negative m e ∧
      (finite negative m e).toRat = (if negative then -1 else 1) * num / 2 ^ (d + 1) := by
  by_cases hnum : num = 0
  · refine ⟨0, -1074, by rw [ofRatio, if_pos hnum, zero], ?_⟩
    rw [← zero, toRat_zero, hnum]
    simp
  · have hlog : num.log2 < 53 := (Nat.log2_lt hnum).2 h
    have hscaled : scaled num (2 ^ (d + 1)) (Int.negSucc (d + 52 - num.log2)) =
        num * 2 ^ (52 - num.log2) := by
      rw [scaled, ← roundDiv_mul (Nat.two_pow_pos (d + 1)) (num * 2 ^ (52 - num.log2)),
        Nat.mul_assoc, ← Nat.pow_add]
      congr 2
      exact congrArg _ (by omega)
    have hsmall : num * 2 ^ (52 - num.log2) < Nat.pow 2 53 := by
      calc num * 2 ^ (52 - num.log2)
          < 2 ^ (num.log2 + 1) * 2 ^ (52 - num.log2) :=
            Nat.mul_lt_mul_of_pos_right Nat.lt_log2_self (Nat.two_pow_pos _)
        _ = 2 ^ 53 := by
          rw [← Nat.pow_add]
          congr 1
          omega
    refine ⟨num * 2 ^ (52 - num.log2), Int.negSucc (d + 52 - num.log2), ?_, ?_⟩
    · rw [ofRatio, if_neg hnum, exponentFor_two_pow hnum h hd]
      dsimp only
      rw [hscaled, if_neg hsmall.ne]
      exact if_neg (by dsimp only; omega)
    · rw [toRat, pow2_eq_zpow, zpow_negSucc, Nat.cast_mul, Nat.cast_pow, Nat.cast_ofNat,
        mul_div_assoc, mul_assoc]
      congr 1
      have hpow : (2 : ℚ) ^ (d + 52 - num.log2 + 1) = 2 ^ (52 - num.log2) * 2 ^ (d + 1) := by
        rw [← pow_add]
        congr 1
        omega
      rw [hpow]
      field_simp

theorem ofQuotient?_two_pow {a : Int} (h : a.natAbs < 2 ^ 53) (hd : d ≤ 1000) :
    ∃ s m e, ofQuotient? a (2 ^ (d + 1) : Nat) = some (.finite s m e) ∧
    (finite s m e).toRat = a / 2 ^ (d + 1) := by
  have hsign : decide (((2 ^ (d + 1) : Nat) : Int) < 0) = false :=
    decide_eq_false (Int.natCast_nonneg _).not_gt
  obtain ⟨m, e, hratio, hrat⟩ := toRat_ofRatio_two_pow (decide (a < 0)) h hd
  refine ⟨_, m, e, by rw [ofQuotient?, hsign, Int.natAbs_natCast, Bool.bne_false, hratio],
    hrat.trans ?_⟩
  congr 1
  rw [Nat.cast_natAbs]
  by_cases ha : a < 0
  · simp [ha, abs_of_neg ha]
  · simp [ha, abs_of_nonneg (not_lt.1 ha)]

end Double

end EvmAudit
