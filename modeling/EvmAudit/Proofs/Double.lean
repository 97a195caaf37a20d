import EvmAudit.Double.Basic

/-! The range of doubles. What is not too large has a nearest double, and the exponent says what
is. -/

namespace EvmAudit.Double

theorem exponentFor_le (num den : Nat) :
    exponentFor num den ≤ max ((num.log2 : Int) - 52) (-1074) := by
  unfold exponentFor
  dsimp only
  grind

theorem ofRatio_finite (negative : Bool) {num : Nat} (h : num.log2 ≤ 1000) (den : Nat) :
    ∃ m e, ofRatio negative num den = .finite negative m e := by
  unfold ofRatio
  split
  · exact ⟨_, _, rfl⟩
  · have hexponent := exponentFor_le num den
    dsimp only
    split
    · rw [if_neg (by dsimp only; omega)]
      exact ⟨_, _, rfl⟩
    · rw [if_neg (by dsimp only; omega)]
      exact ⟨_, _, rfl⟩

theorem log2_natAbs_le {n : Int} (h : 0 ≤ n) (h' : n < Int.pow 2 256) : n.natAbs.log2 ≤ 1000 := by
  rcases Nat.eq_zero_or_pos n.natAbs with h₀ | h₀
  · simp [h₀]
  · have hlt : n.natAbs < 2 ^ 256 := by
      have hpow : Int.pow 2 256 = ((2 ^ 256 : Nat) : Int) := rfl
      omega
    have := (Nat.log2_lt (by omega)).2 hlt
    omega

theorem ofInt?_finite {n : Int} (h : n.natAbs.log2 ≤ 1000) :
    ∃ s m e, ofInt? n = some (.finite s m e) := by
  obtain ⟨m, e, hfinite⟩ := ofRatio_finite (n < 0) h 1
  exact ⟨_, m, e, by rw [ofInt?, hfinite]⟩

theorem ofQuotient?_finite {a : Int} (h : a.natAbs.log2 ≤ 1000) (b : Int) :
    ∃ s m e, ofQuotient? a b = some (.finite s m e) := by
  obtain ⟨m, e, hfinite⟩ := ofRatio_finite ((a < 0) != (b < 0)) h b.natAbs
  exact ⟨_, m, e, by rw [ofQuotient?, hfinite]⟩

end EvmAudit.Double
