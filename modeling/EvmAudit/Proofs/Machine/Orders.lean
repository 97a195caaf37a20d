import EvmAudit.Proofs.Machine.Signs

/-! The signed comparisons. On symbolic words they compare the numbers that the words stand for with
a sign; on numbers they read the least of these as the greatest. -/

namespace EvmAudit

namespace Word

variable (x y : Word)

theorem toInt_least : least.toInt = -2 ^ 255 := BitVec.toInt_intMin_of_pos (by decide)

theorem toSigned_least : toSigned least.toNat = 2 ^ 255 := by decide

theorem toSigned_of_ne_least (hx : x ≠ least) : toSigned x.toNat = x.toInt := by
  have hlt := x.isLt
  have hleast : x.toNat ≠ 2 ^ 255 := fun h => hx (BitVec.eq_of_toNat_eq h)
  rw [toSigned_toNat, BitVec.toInt_eq_toNat_cond]
  split <;> split <;> omega

theorem toSigned_eq_toInt_iff : toSigned x.toNat = x.toInt ↔ x ≠ least := by
  refine ⟨?_, toSigned_of_ne_least x⟩
  rintro h rfl
  rw [toSigned_least, toInt_least] at h
  exact absurd h (by decide)

theorem toInt_bounds (hx : x ≠ least) : -2 ^ 255 < x.toInt ∧ x.toInt < 2 ^ 255 := by
  have hlow := BitVec.le_toInt x
  have hhigh := BitVec.toInt_lt (x := x)
  have hne : x.toInt ≠ -2 ^ 255 := fun h => hx (BitVec.eq_of_toInt_eq (h.trans toInt_least.symm))
  omega

theorem toSigned_lt_iff : (toSigned x.toNat < toSigned y.toNat ↔ x.toInt < y.toInt) ↔
    (x = least ↔ y = least) := by
  by_cases hx : x = least <;> by_cases hy : y = least
  · simp [hx, hy]
  · obtain ⟨hlow, hhigh⟩ := toInt_bounds y hy
    have hread : ¬ (2 : Int) ^ 255 < y.toInt := by omega
    rw [hx, toSigned_least, toInt_least, toSigned_of_ne_least y hy]
    exact iff_of_false (fun h => hread (h.2 hlow)) fun h => hy (h.1 rfl)
  · obtain ⟨hlow, hhigh⟩ := toInt_bounds x hx
    have hmeant : ¬ x.toInt < -2 ^ 255 := by omega
    rw [hy, toSigned_least, toInt_least, toSigned_of_ne_least x hx]
    exact iff_of_false (fun h => hmeant (h.1 hhigh)) fun h => hx (h.2 rfl)
  · simp [hx, hy, toSigned_of_ne_least x hx, toSigned_of_ne_least y hy]

end Word

inductive Compares : Operation → Int → Int → Bool → Prop
  | slt (a b : Int) : Compares .slt a b (a < b)
  | sgt (a b : Int) : Compares .sgt a b (a > b)

theorem Compares.agree_iff {op : Operation} {x y : Word} {read meant : Bool}
    (hread : Compares op (toSigned x.toNat) (toSigned y.toNat) read)
    (hmeant : Compares op x.toInt y.toInt meant) :
    read = meant ↔ (x = Word.least ↔ y = Word.least) := by
  cases hread <;> cases hmeant <;> rw [decide_eq_decide]
  · exact Word.toSigned_lt_iff x y
  · exact (Word.toSigned_lt_iff y x).trans iff_comm

namespace Value

variable {env : Assignment} {a b : Value} {x y : Word}

theorem holds_order (op : Comparison) (hflip : (flip op).holds y x = op.holds x y)
    (ha : a.Stands env x) (hb : b.Stands env y) (hterm : a.IsTerm ∨ b.IsTerm) :
    ∃ c, order op a b = .ok c ∧ c.formula.eval env = op.holds x y := by
  obtain rfl | ⟨s, rfl, hs⟩ := ha.cases <;> obtain rfl | ⟨t, rfl, ht⟩ := hb.cases
  · obtain ⟨t, ht⟩ | ⟨t, ht⟩ := hterm <;> cases ht
  · refine ⟨_, rfl, ?_⟩
    change (flip op).holds (t.eval env) (BitVec.ofInt 256 (x.toNat : Int)) = op.holds x y
    rw [Word.ofInt_toNat, ht, hflip]
  · refine ⟨_, rfl, ?_⟩
    change op.holds (s.eval env) (BitVec.ofInt 256 (y.toNat : Int)) = op.holds x y
    rw [Word.ofInt_toNat, hs]
  · refine ⟨_, rfl, ?_⟩
    unfold relate
    split
    · change (flip op).holds (t.eval env) (s.eval env) = op.holds x y
      rw [hs, ht, hflip]
    · change op.holds (s.eval env) (t.eval env) = op.holds x y
      rw [hs, ht]

end Value

namespace Exec

variable {ctx : Context} {m : Machine} {op : Operation} {rest : List Value} {site : Site}
  {name : String}
variable {instruction : Instruction} {a b : Value} {reading : Int → Int} {onInts : Int → Int → Bool}
  {onSymbols : Value → Value → Except Fault Condition}

theorem puts_compare_numbers (x y : Word)
    (hstack : m.path.stack = .int x.toNat :: .int y.toNat :: rest) :
    Puts (compare ctx reading onInts onSymbols) m
      (.int (if onInts (reading x.toNat) (reading y.toNat) then 1 else 0)) rest := by
  rw [compare, Puts, outcome_binary ctx _ hstack, both_toNat]
  exact ⟨_, rfl, rfl⟩

theorem puts_compare_symbols {c : Condition} (hterm : a.IsTerm ∨ b.IsTerm)
    (hc : onSymbols a b = .ok c) (hstack : m.path.stack = a :: b :: rest) :
    Puts (compare ctx reading onInts onSymbols) m (ctx.simplify.value (oneOrZero c)) rest := by
  rw [compare, Puts, outcome_binary ctx _ hstack, both_of_term hterm, hc]
  exact ⟨_, rfl, rfl⟩

theorem puts_compares {x y : Int} {p : Bool} (h : Compares op x y p) (site : Site) (name : String) :
    ∃ onInts onSymbols, perform ctx site name op = compare ctx toSigned onInts onSymbols ∧
      (∀ x y, Compares op x y (onInts x y)) ∧ ∀ env {a b : Value} {x y : Word}, a.Stands env x →
        b.Stands env y → a.IsTerm ∨ b.IsTerm →
        ∃ c, onSymbols a b = .ok c ∧ Compares op x.toInt y.toInt (c.formula.eval env) := by
  cases h with
  | slt =>
    refine ⟨fun m n => m < n, Value.lt, rfl, .slt, fun env a b x y ha hb hterm => ?_⟩
    obtain ⟨c, hc, hholds⟩ := Value.holds_order .slt rfl ha hb hterm
    refine ⟨c, hc, ?_⟩
    rw [hholds, Comparison.holds, BitVec.slt_eq_decide]
    exact .slt _ _
  | sgt =>
    refine ⟨fun m n => m > n, Value.gt, rfl, .sgt, fun env a b x y ha hb hterm => ?_⟩
    obtain ⟨c, hc, hholds⟩ := Value.holds_order .sgt rfl ha hb hterm
    refine ⟨c, hc, ?_⟩
    rw [hholds, Comparison.holds, BitVec.slt_eq_decide]
    exact .sgt _ _

theorem puts_step_compares {x y : Int} {p : Bool} (h : Compares op x y p)
    (hop : instruction.operation = op) {v : Value} (hperform : ∀ m₁, m₁.path.stack = m.path.stack →
      Puts (perform ctx site instruction.name op) m₁ v rest) :
      Puts (step ctx site instruction) m v rest := by
  subst hop
  obtain ⟨hfee, hfree, hmove, hcall⟩ :
      (∀ m, (Gas.dynamic ctx instruction.operation).outcome m = (.ok 0, m)) ∧
      isFree instruction.operation = false ∧ noteMove ctx instruction.operation = pure () ∧
      instruction.operation ≠ .call := by
    generalize instruction.operation = op at h
    cases h <;> exact ⟨fun _ => rfl, rfl, rfl, by decide⟩
  obtain ⟨m₁, hstep, halike⟩ := step_of_plain (fun m => ⟨0, hfee m⟩) hfree hmove hcall site m
  obtain ⟨m', hm', hput⟩ := hperform m₁ halike.stack
  exact ⟨m', hstep.trans hm', hput⟩

/-- A signed comparison of numbers compares what `toSigned` makes of them, one of symbolic words the
numbers that they stand for with a sign. The two agree unless exactly one of the operands is the
least of these numbers, the only one that `toSigned` misreads. -/
theorem signed_comparisons_agree_iff (hsimplify : ctx.simplify.Sound)
    (hop : instruction.operation = op) {env : Assignment} {x y : Word} {read meant : Bool}
    (hread : Compares op (toSigned x.toNat) (toSigned y.toNat) read)
    (hmeant : Compares op x.toInt y.toInt meant) {numbers words : Machine} {below : List Value}
    (hnumbers : numbers.path.stack = .int x.toNat :: .int y.toNat :: rest) (ha : a.Stands env x)
    (hb : b.Stands env y) (hterm : a.IsTerm ∨ b.IsTerm)
    (hwords : words.path.stack = a :: b :: below) :
    Puts (step ctx site instruction) numbers (.int (if read then 1 else 0)) rest ∧
      (∃ v, Puts (step ctx site instruction) words v below ∧ v.IsWord ∧
        v.meaning env = Word.truth meant) ∧ (read = meant ↔ (x = Word.least ↔ y = Word.least)) ∧
      ∀ w : Word, toSigned w.toNat = w.toInt ↔ w ≠ Word.least := by
  obtain ⟨onInts, onSymbols, hperform, hints, hsymbols⟩ :=
    @puts_compares ctx op _ _ _ hread site instruction.name
  have hsame {u v : Int} {p q : Bool} (hp : Compares op u v p) (hq : Compares op u v q) :
      p = q := by
    cases hp <;> cases hq <;> rfl
  refine ⟨?_, ?_, hread.agree_iff hmeant, Word.toSigned_eq_toInt_iff⟩
  · rw [hsame hread (hints _ _)]
    refine puts_step_compares hread hop fun m₁ hstack => ?_
    rw [hperform]
    exact puts_compare_numbers x y (hstack.trans hnumbers)
  · obtain ⟨c, hc, hholds⟩ := hsymbols env ha hb hterm
    have hstands := (Value.stands_oneOrZero (hsame hholds hmeant)).simplify hsimplify
    refine ⟨_, puts_step_compares hread hop fun m₁ hstack => ?_, hstands.isWord, hstands.meaning⟩
    rw [hperform]
    exact puts_compare_symbols hterm hc (hstack.trans hwords)

theorem signed_comparisons_agree_iff_minusOne :
    Puts (step {} { block := 0 } (.ofText "SLT "))
      { path := { stack := [.int (2 ^ 256 - 1), .int 1, .absent] } } (.int 1) [.absent] ∧
    ∃ v, Puts (step {} { block := 0 } (.ofText "SLT "))
      { path := { stack := [.word (.const (-1)), .word (.const 1)] } } v [] ∧
        v.meaning (fun _ => 0) = 1 := by
  obtain ⟨hnumbers, ⟨v, hput, -, hv⟩, -⟩ :=
    @signed_comparisons_agree_iff {} .slt [.absent] { block := 0 }
    (.ofText "SLT ") (.word (.const (-1))) (.word (.const 1)) Simplifier.sound_default
    (by decide +kernel) (fun _ => 0) (-1) 1 true true
    (.slt _ _) (.slt _ _) { path := { stack := [.int (2 ^ 256 - 1), .int 1, .absent] } }
    { path := { stack := [.word (.const (-1)), .word (.const 1)] } } [] rfl rfl rfl
      (.inl ⟨_, rfl⟩) rfl
  exact ⟨hnumbers, v, hput, hv⟩

/-- The least number is not below zero when it is a number, and is when it is a word. -/
theorem least_not_below_zero :
    Puts (step {} { block := 0 } (.ofText "SLT ")) { path := { stack := [.int (2 ^ 255), .int 0] } }
    (.int 0) [] ∧ ∃ v, Puts (step {} { block := 0 } (.ofText "SLT "))
      { path := { stack := [.word (.const Word.least), .word (.const 0)] } } v [] ∧
        ∀ env, v.meaning env = 1 :=
  ⟨⟨_, rfl, rfl⟩, _, ⟨_, rfl, rfl⟩,
   fun _ => ((Value.stands_oneOrZero (p := true) rfl).simplify Simplifier.sound_default).meaning⟩

end Exec

end EvmAudit
