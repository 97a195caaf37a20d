import EvmAudit.Proofs.Machine.Results

/-! The signed operations and the two that count bytes, on symbolic words. -/

namespace EvmAudit

open Word

namespace Word

def least : Word := BitVec.intMin 256

def signed (negative : Bool) (w : Word) : Word := if negative then -w else w

def signBit (i : Word) : Word := shiftLeft 1 (8 * i + 7)

def bytePlace (i : Word) : Word := 8 * (32 - i - 1)

end Word

/-- What the signed operations put if the solver knows no more than this, where the operands have
the words `x` and `y`. A sign is negative if it can be. -/
inductive Picks (known : List Formula) (x y : Assignment → Word) (env : Assignment) :
    Operation → Word → Prop
  | quotientByZero (hzero : ¬ Allows known fun e => y e ≠ 0) : Picks known x y env .sdiv 0
  | quotientWraps (hdiffer : Allows known fun e => y e ≠ 0)
      (hwraps : ¬ Allows known fun e => y e ≠ 0 ∧ ¬ (x e = Word.least ∧ y e = -1)) :
      Picks known x y env .sdiv Word.least
  | quotient {negative : Bool} (hdiffer : Allows known fun e => y e ≠ 0 ∧
      ¬ (x e = Word.least ∧ y e = -1)) (hsign : negative = true ↔
        Allows known fun e => y e ≠ 0 ∧ ¬ (x e = Word.least ∧ y e = -1) ∧
          ((x e).smtSDiv (y e)).slt 0 = true) :
      Picks known x y env .sdiv (Word.signed negative ((x env).abs.smtSDiv (y env).abs))
  | remainderByZero (hzero : ¬ Allows known fun e => y e ≠ 0) : Picks known x y env .smod 0
  | remainder {negative : Bool} (hdiffer : Allows known fun e => y e ≠ 0)
      (hsign : negative = true ↔ Allows known fun e => y e ≠ 0 ∧ (x e).slt 0 = true) :
      Picks known x y env .smod (Word.signed negative ((x env).abs.smod (y env).abs))
  | unextended (houtside : ¬ Allows known fun e => (x e).toNat < 32) :
      Picks known x y env .signExtend (y env)
  | extendedByOnes (hinside : Allows known fun e => (x e).toNat < 32)
      (hset : ¬ Allows known fun e => (x e).toNat < 32 ∧ y e &&& Word.signBit (x e) = 0) :
      Picks known x y env .signExtend (y env ||| -Word.signBit (x env))
  | extendedByZeros (hclear : Allows known fun e => (x e).toNat < 32 ∧ y e &&& Word.signBit (x e) =
      0) : Picks known x y env .signExtend (y env &&& (Word.signBit (x env) - 1))
  | noByte (houtside : ¬ Allows known fun e => (x e).toNat < 32) : Picks known x y env .byte 0
  | byte (hinside : Allows known fun e => (x e).toNat < 32) :
      Picks known x y env .byte
        (Word.shiftRightSigned (y env &&& Word.shiftLeft 255 (Word.bytePlace (x env)))
          (Word.bytePlace (x env)))

namespace Word

variable {x y w : Word} {negative : Bool} {q : Int}

/-! ### Words with a sign -/

theorem sign_mul (negative : Bool) (w : Word) :
    BitVec.ofInt 256 (if negative then -1 else 1) * w = signed negative w := by
  cases negative with
  | false => exact BitVec.one_mul w
  | true =>
    change -1#256 * w = -w
    rw [BitVec.neg_mul, BitVec.one_mul]

theorem abs_eq (w : Word) : (if (BitVec.ofInt 256 0).sle w = true then w else -w) = w.abs := by
  rw [BitVec.abs, BitVec.msb_eq_toInt, BitVec.sle_eq_decide]
  change (if decide (0 ≤ w.toInt) = true then w else -w) = _
  by_cases h : w.toInt < 0
  · simp [h, Int.not_le.2 h]
  · simp [h, Int.not_lt.1 h]

theorem toInt_abs (hw : w ≠ least) : w.abs.toInt = w.toInt.natAbs := by
  rw [BitVec.toInt_abs_eq_natAbs, if_neg (show ¬ w = BitVec.intMin 256 from hw)]

theorem smtSDiv_of_ne_zero (hy : y ≠ 0) : x.smtSDiv y = x.sdiv y := by
  have hdivide (a b : Word) (hb : b ≠ 0#256) : a.smtUDiv b = a.udiv b := by
    rw [BitVec.smtUDiv_eq, if_neg hb]
    rfl
  have hneg : -y ≠ 0#256 := by simpa using hy
  rw [BitVec.smtSDiv_eq, BitVec.sdiv_eq, hdivide _ _ hy, hdivide _ _ hy, hdivide _ _ hneg,
    hdivide _ _ hneg]

theorem toInt_smtSDiv (hy : y ≠ 0) (hx : x ≠ least) :
    (x.smtSDiv y).toInt = x.toInt.tdiv y.toInt := by
  rw [smtSDiv_of_ne_zero hy, BitVec.toInt_sdiv_of_ne_or_ne x y (.inl hx)]

theorem abs_ne_zero (hy : y ≠ 0) : y.abs ≠ 0 := by
  rw [BitVec.abs]
  split
  · simpa using hy
  · exact hy

theorem abs_ne_least (hx : x ≠ least) : x.abs ≠ least := by
  intro h
  have htoInt := toInt_abs hx
  rw [h] at htoInt
  have hleast : least.toInt < 0 := by decide
  omega

theorem toInt_quotient (hy : y ≠ 0) (hx : x ≠ least) (hy' : y ≠ least) :
    (x.abs.smtSDiv y.abs).toInt = (x.toInt.tdiv y.toInt).natAbs := by
  rw [toInt_smtSDiv (abs_ne_zero hy) (abs_ne_least hx), toInt_abs hx, toInt_abs hy',
    Int.natAbs_tdiv]
  rfl

theorem toInt_remainder (hx : x ≠ least) (hy : y ≠ least) :
    (x.abs.smod y.abs).toInt = (x.toInt.tmod y.toInt).natAbs := by
  rw [BitVec.toInt_smod, toInt_abs hx, toInt_abs hy, Int.natAbs_tmod,
    Int.fmod_eq_emod_of_nonneg _ (Int.natCast_nonneg _), Int.natCast_emod]

theorem signed_eq_iff (hw : w.toInt = q.natAbs) (hneg : q < 0 → negative = true) :
    (signed negative w).toNat = (BitVec.ofInt 256 q).toNat ↔ (negative = true → q ≤ 0) := by
  have hlow := BitVec.le_toInt w
  have hhigh := BitVec.toInt_lt (x := w)
  have hq : (BitVec.ofInt 256 q).toInt = q :=
    BitVec.toInt_ofInt_eq_self (by decide) (by omega) (by omega)
  rw [BitVec.toNat_inj, ← BitVec.toInt_inj, hq]
  cases negative with
  | false =>
    have hpos : ¬ q < 0 := fun h => Bool.false_ne_true (hneg h)
    simp only [signed, Bool.false_eq_true, if_false, false_implies, iff_true]
    omega
  | true =>
    have hmsb : w.msb = false := by
      rw [BitVec.msb_eq_toInt]
      exact decide_eq_false (by omega)
    simp only [signed, if_true, true_implies]
    rw [BitVec.toInt_neg_eq_of_msb hmsb]
    omega

/-! ### Bytes -/

theorem inside_iff (w : Word) :
    (!((BitVec.ofInt 256 32).sle w || w.slt (BitVec.ofInt 256 0))) = true ↔ w.toNat < 32 := by
  have hlt := w.isLt
  have htoInt := BitVec.toInt_eq_toNat_cond w
  rw [Bool.not_eq_true', Bool.or_eq_false_iff, BitVec.sle_eq_decide, BitVec.slt_eq_decide,
    decide_eq_false_iff_not, decide_eq_false_iff_not]
  change ¬ 32 ≤ w.toInt ∧ ¬ w.toInt < 0 ↔ _
  split at htoInt <;> omega

theorem signBit_eq (hx : x.toNat < 32) : signBit x = BitVec.twoPow 256 (8 * x.toNat + 7) := by
  have hplace : (8 * x + 7).toNat = 8 * x.toNat + 7 := by
    rw [BitVec.toNat_add, BitVec.toNat_mul]
    change ((8 * x.toNat) % 2 ^ 256 + 7) % 2 ^ 256 = _
    omega
  rw [signBit, shiftLeft, hplace, if_pos (by omega), BitVec.twoPow_eq]
  rfl

theorem toNat_bytePlace (hx : x.toNat < 32) : (bytePlace x).toNat = 8 * (31 - x.toNat) := by
  rw [bytePlace, BitVec.toNat_mul, BitVec.toNat_sub, BitVec.toNat_sub]
  change 8 * ((2 ^ 256 - 1 + ((2 ^ 256 - x.toNat + 32) % 2 ^ 256)) % 2 ^ 256) % 2 ^ 256 = _
  omega

theorem toNat_byteMask (hx : x.toNat < 32) :
    (shiftLeft 255 (bytePlace x)).toNat = 255 * 2 ^ (8 * (31 - x.toNat)) := by
  rw [shiftLeft, toNat_bytePlace hx, if_pos (by omega), BitVec.toNat_shiftLeft, Nat.shiftLeft_eq]
  refine Nat.mod_eq_of_lt
    (Nat.lt_of_lt_of_le (Nat.mul_lt_mul_of_pos_right (by decide : 255 < 2 ^ 8) (Nat.two_pow_pos _))
      ?_)
  rw [← Nat.pow_add]
  exact Nat.pow_le_pow_right (by decide) (by omega)

theorem msb_byteMask (hx : x.toNat < 32) : (shiftLeft 255 (bytePlace x)).msb = decide (x = 0) := by
  rw [BitVec.msb_eq_decide, toNat_byteMask hx, decide_eq_decide]
  constructor
  · intro h
    have hlt : 255 * 2 ^ (8 * (31 - x.toNat)) < 2 ^ (8 + 8 * (31 - x.toNat)) := by
      rw [Nat.pow_add]
      exact Nat.mul_lt_mul_of_pos_right (by decide) (Nat.two_pow_pos _)
    have hplace := (Nat.pow_lt_pow_iff_right (by decide)).1 (Nat.lt_of_le_of_lt h hlt)
    exact BitVec.eq_of_toNat_eq (show x.toNat = 0 by omega)
  · rintro rfl
    decide

theorem byte_eq_iff (hx : x.toNat < 32) :
    (shiftRightSigned (y &&& shiftLeft 255 (bytePlace x)) (bytePlace x)).toNat =
      y.toNat / 2 ^ (8 * (31 - x.toNat)) % 256 ↔ (x = 0 → y.msb = false) := by
  have hplace : min (bytePlace x).toNat 255 = 8 * (31 - x.toNat) := by
    rw [toNat_bytePlace hx]
    omega
  have hmsb : (y &&& shiftLeft 255 (bytePlace x)).msb = (decide (x = 0) && y.msb) := by
    rw [BitVec.msb_and, msb_byteMask hx, Bool.and_comm]
  rw [shiftRightSigned, hplace]
  cases h : (y &&& shiftLeft 255 (bytePlace x)).msb with
  | true =>
    have hsigned :=
      @BitVec.msb_sshiftRight 256 (8 * (31 - x.toNat)) (y &&& shiftLeft 255 (bytePlace x))
    rw [h, BitVec.msb_eq_decide, decide_eq_true_iff] at hsigned
    rw [h] at hmsb
    obtain ⟨hzero, hy⟩ : x = 0 ∧ y.msb = true := by simpa using hmsb.symm
    have hbyte := Nat.mod_lt (y.toNat / 2 ^ (8 * (31 - x.toNat))) (by decide : 0 < 256)
    exact iff_of_false (by omega) fun hclear => Bool.false_ne_true ((hclear hzero).symm.trans hy)
  | false =>
    rw [h] at hmsb
    rw [BitVec.sshiftRight_eq_of_msb_false h, BitVec.toNat_ushiftRight, Nat.shiftRight_eq_div_pow,
      BitVec.toNat_and, toNat_byteMask hx, and_byte_div]
    simpa using hmsb.symm

end Word

theorem Picks.of_magnitudes {known : List Formula} {x y : Assignment → Word} {env : Assignment}
    {op : Operation} {u v : Word} (hu : u = (x env).abs) (hv : v = (y env).abs)
    (f : Word → Word → Word) (negative : Bool)
    (h : Picks known x y env op (Word.signed negative (f (x env).abs (y env).abs))) :
    Picks known x y env op (BitVec.ofInt 256 (if negative then -1 else 1) * f u v) := by
  rwa [sign_mul, hu, hv]

/-! ### What the solver is asked -/

namespace Inquiry

variable {ctx : Context} {known : List Formula} {env : Assignment} {P : Word → Prop}

def Answers (ctx : Context) (known : List Formula) (i : Inquiry Value) (env : Assignment)
    (P : Word → Prop) : Prop :=
  Undecided ctx known i ∨ ∃ v, (i.eval ctx.decide known).1 = .ok v ∧ v.lift.IsTerm ∧
  P (v.meaning env)

theorem Answers.of_eval {i j : Inquiry Value} {f : Formula} (h : Answers ctx (known ++ [f]) j env P)
    (heval : (i.eval ctx.decide known).1 = (j.eval ctx.decide (known ++ [f])).1) :
    Answers ctx known i env P := by
  obtain ⟨asked, hd, hj⟩ | ⟨v, hv, h⟩ := h
  · exact .inl ⟨f :: asked, by simpa using hd, heval.trans hj⟩
  · exact .inr ⟨v, heval.trans hv, h⟩

theorem answers_ask (hsound : ctx.Sound) {question : Except Fault Formula} {Q : Assignment → Prop}
    (hquestion : Asks question Q) {refuted possible : Inquiry Value}
    (hrefuted : ¬ Allows known Q → ∀ known', Answers ctx known' refuted env P)
    (hpossible : Allows known Q → ∀ known', Adds known known' Q →
      Answers ctx known' possible env P) :
    Answers ctx known (ask question refuted possible) env P := by
  obtain ⟨f, hadds, ⟨h, heval⟩ | ⟨h, heval⟩ | hgivesUp⟩ :=
    @eval_ask ctx known Q _ hsound _ hquestion refuted possible
  · exact (hpossible h _ hadds).of_eval heval
  · exact (hrefuted h _).of_eval heval
  · exact .inl hgivesUp

theorem answers_ok {x : Except Fault Value} {v : Value} (hx : x = .ok v) (hv : v.lift.IsTerm)
    (hP : P (v.meaning env)) : Answers ctx known (.answer x) env P :=
  .inr ⟨v, hx, hv, hP⟩

theorem eval_andThen {first : Inquiry Value} {f : Value → Except Fault Value}
    {r : Except Fault Value} (h : (first.eval ctx.decide known).1 = r) :
    ((andThen first f).eval ctx.decide known).1 = r.bind f := by
  rw [eval, ← h]
  obtain ⟨_ | _, _⟩ := first.eval ctx.decide known <;> rfl

theorem magnitude_word (t : Term) :
    ∃ u, Arithmetic.magnitude (.word t) = .ok (.word u) ∧ ∀ env, u.eval env = (t.eval env).abs :=
  ⟨_, rfl, fun env => abs_eq (t.eval env)⟩

theorem asks_nonzero_word (t : Term) :
    Asks (do return (← (Value.word t).eq (.int 0)).not) fun e => t.eval e ≠ 0 :=
    asks_nonzero trivial

theorem answers_signedQuotient (hsound : ctx.Sound) (s t : Term) :
    Answers ctx known (signedQuotient (.word s) (.word t)) env
      (Picks known (s.eval ·) (t.eval ·) env .sdiv) := by
  obtain ⟨u, hu, hmagnitude⟩ := magnitude_word s
  obtain ⟨u', hu', hmagnitude'⟩ := magnitude_word t
  have hpicked := @Picks.of_magnitudes known (s.eval ·) (t.eval ·) env .sdiv _ _ (hmagnitude env)
    (hmagnitude' env) BitVec.smtSDiv
  have hwraps : Asks (do
      let least ← (Value.word s).eq (.int Arithmetic.leastSigned)
      let minusOne ← (Value.word t).eq (.int (-1))
      return .not (.and least.formula minusOne.formula)) fun e =>
        ¬ (s.eval e = Word.least ∧ t.eval e = -1) := by
    refine ⟨_, rfl, fun e => ?_⟩
    change (!(s.eval e == Word.least && t.eval e == -1)) = true ↔ _
    rw [Bool.not_eq_true', ← Bool.not_eq_true, Bool.and_eq_true, beq_iff_eq, beq_iff_eq]
  have hsign : Asks (do return (← (← (Value.word s).div (.word t)).lt (.int 0)).formula) fun e =>
      ((s.eval e).smtSDiv (t.eval e)).slt 0 = true := ⟨_, rfl, fun e => Iff.rfl⟩
  rw [signedQuotient, hu, hu']
  refine answers_ask hsound (asks_nonzero_word t) (fun hzero _ => ?_) fun hdiffer known₁ hadds₁ =>
    ?_
  · exact answers_ok rfl ⟨_, rfl⟩ (.quotientByZero hzero)
  refine answers_ask hsound hwraps (fun h _ => ?_) fun h known₂ hadds₂ => ?_
  · exact answers_ok rfl ⟨_, rfl⟩ (.quotientWraps hdiffer (mt hadds₁.allows.2 h))
  rw [hadds₁.allows] at h
  refine answers_ask hsound hsign (fun hneg _ => ?_) fun hneg known₃ _ => ?_ <;>
    rw [hadds₂.allows, hadds₁.allows] at hneg
  · exact answers_ok rfl ⟨_, rfl⟩
      (hpicked false (.quotient h (iff_of_false Bool.false_ne_true hneg)))
  · exact answers_ok rfl ⟨_, rfl⟩ (hpicked true (.quotient h (iff_of_true rfl hneg)))

theorem answers_signedRemainder (hsound : ctx.Sound) (s t : Term) :
    Answers ctx known (signedRemainder (.word s) (.word t)) env
      (Picks known (s.eval ·) (t.eval ·) env .smod) := by
  obtain ⟨u, hu, hmagnitude⟩ := magnitude_word s
  obtain ⟨u', hu', hmagnitude'⟩ := magnitude_word t
  have hpicked := @Picks.of_magnitudes known (s.eval ·) (t.eval ·) env .smod _ _ (hmagnitude env)
    (hmagnitude' env) BitVec.smod
  have hsign : Asks (do return (← (Value.word s).lt (.int 0)).formula) fun e =>
      (s.eval e).slt 0 = true :=
    ⟨_, rfl, fun e => Iff.rfl⟩
  rw [signedRemainder, hu, hu']
  refine answers_ask hsound (asks_nonzero_word t) (fun hzero _ => ?_) fun hdiffer known₁ hadds₁ =>
    ?_
  · exact answers_ok rfl ⟨_, rfl⟩ (.remainderByZero hzero)
  obtain ⟨f, -, ⟨hneg, heval⟩ | ⟨hneg, heval⟩ | ⟨asked, hd, heval⟩⟩ :=
    @eval_ask ctx known₁ _ _ hsound _ hsign
    (.answer (.ok (Value.int 1).lift)) (.answer (.ok (Value.int (-1)).lift))
  · exact .inr ⟨_, eval_andThen heval, ⟨_, rfl⟩,
      hpicked true (.remainder hdiffer (iff_of_true rfl (hadds₁.allows.1 hneg)))⟩
  · exact .inr ⟨_, eval_andThen heval, ⟨_, rfl⟩,
      hpicked false
        (.remainder hdiffer (iff_of_false Bool.false_ne_true (mt hadds₁.allows.2 hneg)))⟩
  · exact .inl ⟨asked, hd, eval_andThen heval⟩

theorem asks_inside (s : Term) :
    Asks (do return .not (← Arithmetic.outsideWord (.word s))) fun e => (s.eval e).toNat < 32 :=
  ⟨_, rfl, fun e => inside_iff (s.eval e)⟩

theorem answers_signExtension (hsound : ctx.Sound) (s t : Term) :
    Answers ctx known (signExtension (.word s) (.word t)) env
      (Picks known (s.eval ·) (t.eval ·) env .signExtend) := by
  have hclear : Asks (do
      let place ← (← (Value.int 8).mul (.word s)).add (.int 7)
      return (← (← (Value.word t).bitAnd (← (Value.int 1).shiftLeft place)).eq (.int 0)).formula)
        fun e => t.eval e &&& Word.signBit (s.eval e) = 0 := by
    refine ⟨_, rfl, fun e => ?_⟩
    change (t.eval e &&& Word.signBit (s.eval e) == 0) = true ↔ _
    exact beq_iff_eq
  refine answers_ask hsound (asks_inside s) (fun houtside _ => ?_) fun hinside known₁ hadds₁ => ?_
  · exact answers_ok rfl ⟨_, rfl⟩ (.unextended houtside)
  refine answers_ask hsound hclear (fun hset _ => ?_) fun hset known₂ _ => ?_ <;>
    rw [hadds₁.allows] at hset
  · refine answers_ok rfl ⟨_, rfl⟩ ?_
    have hpick := @Picks.extendedByOnes known (s.eval ·) (t.eval ·) env hinside hset
    rwa [← BitVec.zero_sub] at hpick
  · exact answers_ok rfl ⟨_, rfl⟩ (.extendedByZeros hset)

theorem byteOf_word (t : Term) {w : Word} (hw : w.toNat < 32) :
    ∃ q, Exec.byteOf (.word t) (.int (8 * (32 - w.toNat - 1))) = .ok (.word q) ∧ ∀ env, q.eval env =
      Word.shiftRightSigned (t.eval env &&& Word.shiftLeft 255 (Word.bytePlace w))
      (Word.bytePlace w) := by
  have hplace : 8 * (32 - (w.toNat : Int) - 1) = (8 * (31 - w.toNat) : Nat) := by omega
  have hshift : (Value.int 255).shiftLeft (.int (8 * (31 - w.toNat) : Nat)) =
      .ok (.int (255 * 2 ^ (8 * (31 - w.toNat)) : Nat)) := Value.shiftLeft_natCast 255 _
  refine ⟨_, by rw [hplace, Exec.byteOf, hshift]; rfl, fun env => ?_⟩
  change Word.shiftRightSigned (t.eval env &&& BitVec.ofInt 256 _) (BitVec.ofInt 256 _) = _
  rw [← toNat_byteMask hw, ← toNat_bytePlace hw, ofInt_toNat, ofInt_toNat]

theorem answers_byte (hsound : ctx.Sound) {a : Value} (ha : a.IsWord) (t : Term) :
    ∃ index, (do (← (Value.int 32).sub a).sub (.int 1) : Except Fault Value) = .ok index ∧
      Answers ctx known (Exec.byteInquiry a.lift (.word t) ((Value.int 8).mul index)) env
        (Picks known a.meaning (t.eval ·) env .byte) := by
  obtain ⟨w, rfl⟩ | ⟨s, rfl⟩ := ha.cases
  · have hmeaning (e : Assignment) : (Value.int w.toNat).meaning e = w :=
      (Value.stands_int w).meaning
    refine ⟨_, rfl, answers_ask hsound (asks_inside _) (fun houtside _ => ?_) fun hinside _ _ => ?_⟩
    · exact answers_ok rfl ⟨_, rfl⟩ (.noByte houtside)
    · obtain ⟨e, -, hw⟩ := id hinside
      rw [show Term.eval e _ = w from hmeaning e] at hw
      obtain ⟨q, hq, heval⟩ := byteOf_word t hw
      have hpick := @Picks.byte known (Value.int w.toNat).meaning (t.eval ·) env hinside
      rw [hmeaning, ← heval] at hpick
      exact answers_ok hq ⟨q, rfl⟩ hpick
  · refine ⟨_, rfl, answers_ask hsound (asks_inside s) (fun houtside _ => ?_) fun hinside _ _ => ?_⟩
    · exact answers_ok rfl ⟨_, rfl⟩ (.noByte houtside)
    · exact answers_ok rfl ⟨_, rfl⟩ (.byte hinside)

end Inquiry

/-! ### Results -/

def Regular (x y : Word) : Operation → Prop
  | .sdiv | .smod => x ≠ Word.least ∧ y ≠ Word.least ∧ y ≠ 0
  | .signExtend | .byte => x.toNat < 32
  | _ => True

/-- What is picked fits the operands: a sign that can be negative is so or makes no difference, a
sign bit that can be clear is clear, and the first byte has no sign. -/
def Fits (known : List Formula) (x y : Assignment → Word) (env : Assignment) : Operation → Prop
  | .sdiv =>
    (Allows known fun e => y e ≠ 0 ∧ ¬ (x e = Word.least ∧ y e = -1) ∧
      ((x e).smtSDiv (y e)).slt 0 = true) → (x env).toInt.tdiv (y env).toInt ≤ 0
  | .smod =>
    (Allows known fun e => y e ≠ 0 ∧ (x e).slt 0 = true) → (x env).toInt.tmod (y env).toInt ≤ 0
  | .signExtend => (Allows known fun e => (x e).toNat < 32 ∧ y e &&& Word.signBit (x e) = 0) →
      y env &&& Word.signBit (x env) = 0
  | .byte => x env = 0 → (y env).msb = false
  | _ => True

theorem Picks.eq_result_iff {known : List Formula} {x y : Assignment → Word} {env : Assignment}
    {op : Operation} {w : Word} {r : Nat} (h : Picks known x y env op w)
    (hresult : Result op [x env, y env] r) (hregular : Regular (x env) (y env) op)
    (hknown : allHold env known = true) : w.toNat = r ↔ Fits known x y env op := by
  cases h with
  | quotientByZero hzero => exact absurd ⟨env, hknown, hregular.2.2⟩ hzero
  | quotientWraps _ hwraps =>
    exact absurd ⟨env, hknown, hregular.2.2, fun h => hregular.1 h.1⟩ hwraps
  | quotient _ hsign =>
    obtain ⟨hx, hy, hzero⟩ := hregular
    cases hresult
    rw [signed_eq_iff (toInt_quotient hzero hx hy) fun hneg => ?_, hsign]
    · rfl
    · refine hsign.2 ⟨env, hknown, hzero, fun h => hx h.1, ?_⟩
      rw [BitVec.slt_eq_decide, toInt_smtSDiv hzero hx]
      exact decide_eq_true hneg
  | remainderByZero hzero => exact absurd ⟨env, hknown, hregular.2.2⟩ hzero
  | remainder _ hsign =>
    obtain ⟨hx, hy, hzero⟩ := hregular
    cases hresult
    rw [if_neg hzero, signed_eq_iff (toInt_remainder hx hy) fun hneg => ?_, hsign]
    · rfl
    · refine hsign.2 ⟨env, hknown, hzero, ?_⟩
      rw [BitVec.slt_eq_decide]
      exact decide_eq_true
        (Int.not_le.1 fun hnonneg => Int.not_le.2 hneg (Int.tmod_nonneg _ hnonneg))
  | unextended houtside => exact absurd ⟨env, hknown, hregular⟩ houtside
  | extendedByOnes _ hset =>
    have hk : 8 * (x env).toNat + 7 < 256 := by
      have hx : (x env).toNat < 32 := hregular
      omega
    have hbit : ¬ y env &&& Word.signBit (x env) = 0 :=
      fun hclear => hset ⟨env, hknown, hregular, hclear⟩
    cases hresult
    rw [signBit_eq hregular, and_bit_eq_zero hk, Bool.not_eq_false] at hbit
    rw [extended_byte hregular, signBit_eq hregular, or_neg_bit hk hbit]
    exact iff_of_true rfl fun hclear => absurd hclear hset
  | extendedByZeros hclear =>
    have hk : 8 * (x env).toNat + 7 < 256 := by
      have hx : (x env).toNat < 32 := hregular
      omega
    cases hresult
    rw [extended_byte hregular, BitVec.toNat_inj, signBit_eq hregular, and_lowMask_iff hk,
      ← and_bit_eq_zero hk, ← signBit_eq hregular]
    exact ⟨fun h _ => h, fun h => h hclear⟩
  | noByte houtside => exact absurd ⟨env, hknown, hregular⟩ houtside
  | byte =>
    cases hresult
    rw [if_pos (show (x env).toNat < 32 from hregular)]
    exact byte_eq_iff hregular

namespace Exec

variable {ctx : Context} {m : Machine} {op : Operation} {env : Assignment} {rest : List Value}
  {a b v : Value}
variable {site : Site} {name : String}

theorem answered_byte (hstack : m.path.stack = a :: b :: rest) (hterm : a.IsTerm ∨ b.IsTerm)
    {index : Value}
    (hindex : (do (← (Value.int 32).sub a).sub (.int 1) : Except Fault Value) = .ok index) :
    Answered ctx (byte ctx) m rest
      ((byteInquiry a.lift b.lift ((Value.int 8).mul index)).eval ctx.decide
        m.shared.solver.assertions).1 := by
  refine .congr ?_
    (answered_inquire (byteInquiry a.lift b.lift ((Value.int 8).mul index)) (m.taken rest))
  rw [byte, outcome_need_advance _ (by simp [hstack]), hstack, outcome_pop_taken, hindex,
    outcome_bind, outcome_ofExcept]
  dsimp only
  rw [outcome_pop_taken]
  split
  · obtain ⟨t, rfl⟩ | ⟨t, rfl⟩ := hterm <;> contradiction
  · rfl

def PutsPicked (ctx : Context) (x : Exec Unit) (m : Machine) (rest : List Value) (env : Assignment)
    (op : Operation) (a b : Value) : Prop :=
  Undecided ctx x m ∨ ∃ v : Value, Puts x m v rest ∧ v.lift.IsTerm ∧
    Picks m.shared.solver.assertions a.meaning b.meaning env op (v.meaning env)

theorem putsPicked_of_answers (hsimplify : ctx.simplify.Sound) {x : Exec Unit} {i : Inquiry Value}
    (h : i.Answers ctx m.shared.solver.assertions env
      (Picks m.shared.solver.assertions a.meaning b.meaning env op))
    (hx : Answered ctx x m rest (i.eval ctx.decide m.shared.solver.assertions).1) :
    PutsPicked ctx x m rest env op a b := by
  obtain hgivesUp | ⟨v, heval, hterm, hpick⟩ := h
  · exact .inl (hx.undecided hgivesUp)
  obtain ⟨hterm, hmeaning⟩ : (ctx.simplify.value v).lift.IsTerm ∧
      (ctx.simplify.value v).meaning env = v.meaning env := by
    cases v with
    | word t => exact ⟨⟨_, rfl⟩, hsimplify.eval env t⟩
    | prop => obtain ⟨t, ⟨⟩⟩ := hterm
    | _ => exact ⟨hterm, rfl⟩
  rw [heval] at hx
  exact .inr ⟨_, hx, hterm, hmeaning ▸ hpick⟩

theorem putsPicked_perform (hsound : ctx.Sound) (hop : op ∈ [.sdiv, .smod, .signExtend, .byte])
    (ha : a.IsWord) (hb : b.IsWord) (hterm : a.IsTerm ∨ b.IsTerm) (env : Assignment)
    (hstack : m.path.stack = a :: b :: rest) :
    PutsPicked ctx (perform ctx site name op) m rest env op a b := by
  obtain ⟨s, hs, -⟩ := (ha.stands_meaning env).lift
  obtain ⟨t, ht, -⟩ := (hb.stands_meaning env).lift
  have hx : a.meaning = (s.eval ·) := funext fun e => by rw [Value.meaning, hs]
  have hy : b.meaning = (t.eval ·) := funext fun e => by rw [Value.meaning, ht]
  have hsettle {onInts : Int → Int → Except Fault Value} {onSymbols : Value → Value → Inquiry Value}
      (h : Inquiry.Answers ctx m.shared.solver.assertions (onSymbols (.word s) (.word t)) env
        (Picks m.shared.solver.assertions (s.eval ·) (t.eval ·) env op)) :
      PutsPicked ctx (settle ctx onInts onSymbols) m rest env op a b := by
    rw [← hs, ← ht, ← hx, ← hy] at h
    exact putsPicked_of_answers hsound.simplify h (answered_settle hstack (both_of_term hterm))
  simp only [List.mem_cons, List.not_mem_nil, or_false] at hop
  obtain rfl | rfl | rfl | rfl := hop
  · exact hsettle (Inquiry.answers_signedQuotient hsound s t)
  · exact hsettle (Inquiry.answers_signedRemainder hsound s t)
  · exact hsettle (Inquiry.answers_signExtension hsound s t)
  · obtain ⟨index, hindex, h⟩ :=
      @Inquiry.answers_byte ctx m.shared.solver.assertions env hsound a ha t
    rw [← ht, ← hy] at h
    exact putsPicked_of_answers hsound.simplify h (answered_byte hstack hterm hindex)

theorem putsPicked_step (hsound : ctx.Sound) (hop : op ∈ [.sdiv, .smod, .signExtend, .byte])
    {instruction : Instruction} (hinstruction : instruction.operation = op) {words : List Word}
    {r : Nat} (hresult : Result op words r) (ha : a.IsWord) (hb : b.IsWord)
    (hterm : a.IsTerm ∨ b.IsTerm) (env : Assignment) (hstack : m.path.stack = a :: b :: rest) :
    PutsPicked ctx (step ctx site instruction) m rest env op a b := by
  obtain ⟨m₁, hstep, hstack₁, hsolver₁⟩ := @step_of_result ctx _ _ _ _ hresult hinstruction site m
  have hperform :=
    @putsPicked_perform ctx m₁ op rest a b site instruction.name hsound hop ha hb hterm env
    (hstack₁.trans hstack)
  simpa only [PutsPicked, Undecided, Puts, hstep, hsolver₁] using hperform

/-- The signed operations and those on bytes put a word that is picked from the answers of the
solver, unless it gives up. Under an assignment that satisfies the assertions the word is the result
of the integers exactly if what is picked fits the operands. -/
theorem signed_results (hsound : ctx.Sound) (hop : op ∈ [.sdiv, .smod, .signExtend, .byte])
    {instruction : Instruction} (hinstruction : instruction.operation = op) (ha : a.IsWord)
    (hb : b.IsWord) (hterm : a.IsTerm ∨ b.IsTerm) (hstack : m.path.stack = a :: b :: rest)
    (hknown : allHold env m.shared.solver.assertions = true) {r : Nat}
    (hresult : Result op [a.meaning env, b.meaning env] r) :
    Undecided ctx (step ctx site instruction) m ∨
    ∃ v : Value, Puts (step ctx site instruction) m v rest ∧ v.lift.IsTerm ∧
      Picks m.shared.solver.assertions a.meaning b.meaning env op (v.meaning env) ∧
      (Regular (a.meaning env) (b.meaning env) op →
        ((v.meaning env).toNat = r ↔
          Fits m.shared.solver.assertions a.meaning b.meaning env op)) := by
  refine (putsPicked_step hsound hop hinstruction hresult ha hb hterm env hstack).imp_right ?_
  rintro ⟨v, hput, hv, hpick⟩
  exact ⟨v, hput, hv, hpick, fun hregular => hpick.eq_result_iff hresult hregular hknown⟩

theorem signed_results_smod :
    ∃ v : Value, Puts (step (exactly 0) { block := 0 } (.ofText "SMOD "))
      { path := { stack := [.var "a", .int 3] } } v [] ∧
        (v.meaning fun _ => -5).toNat = 2 ^ 256 - 2 := by
  obtain ⟨v, hput, -, -, hiff⟩ :=
    (@signed_results (exactly 0) { path := { stack := [.var "a", .int 3] } } .smod
      (fun _ => -5) [] (.var "a") (.int 3) { block := 0 } (exact_exactly 0).toSound (by decide)
    (.ofText "SMOD ")
    (by decide +kernel) trivial (by decide) (.inl ⟨_, rfl⟩) rfl rfl _ (.smod (-5) 3)).resolve_left
    (not_undecided (exact_exactly 0) _ _)
  exact ⟨v, hput, (hiff ⟨by decide, by decide, by decide⟩).2 fun _ => by decide⟩

/-- The remainder of two positive words has the wrong sign if the dividend can be negative. -/
theorem smod_unfit :
    ∃ v : Value, Puts (step (exactly 0) { block := 0 } (.ofText "SMOD "))
      { path := { stack := [.var "a", .var "b"] } } v [] ∧ Result .smod [7, 5] 2 ∧
      (v.meaning fun x => if x = "a" then 7 else 5).toNat ≠ 2 := by
  have hresult : Result .smod [7, 5] 2 := .smod 7 5
  obtain ⟨v, hput, -, hpick⟩ :=
    (@putsPicked_step (exactly 0) { path := { stack := [.var "a", .var "b"] } } .smod []
      (.var "a") (.var "b") { block := 0 } (exact_exactly 0).toSound (by decide) (.ofText "SMOD ")
      (by decide +kernel)
    _ _ hresult trivial trivial (.inl ⟨_, rfl⟩) (fun x => if x = "a" then 7 else 5)
    rfl).resolve_left
    (not_undecided (exact_exactly 0) _ _)
  refine ⟨v, hput, hresult, fun h => ?_⟩
  have hfits := (hpick.eq_result_iff hresult ⟨by decide, by decide, by decide⟩ rfl).1 h
  exact absurd (hfits ⟨fun _ => -1, rfl, by decide⟩) (by decide)

end Exec

end EvmAudit
