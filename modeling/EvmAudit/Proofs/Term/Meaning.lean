import Mathlib.Tactic.Ring
import EvmAudit.Proofs.Term.Over

/-! The normal form keeps the meaning: under every assignment it has the value of the term or
formula it was made from. -/

namespace EvmAudit

open Word

variable (env : Assignment)

namespace Linear

def sum : List (Word × Term) → Word
  | [] => 0
  | p :: ps => p.1 * p.2.eval env + sum ps

def eval (l : Linear) : Word := l.constant + sum env l.summands

theorem sum_insert (c : Word) (t : Term) (ps : List (Word × Term)) :
    sum env (insert c t ps) = c * t.eval env + sum env ps := by
  induction ps with
  | nil => simp [insert, sum]
  | cons p ps ih =>
    rw [insert]
    split
    next h =>
      rw [sum, sum, ← h]
      ring
    · rw [sum, sum, ih]
      ring

theorem sum_foldl_insert (ps acc : List (Word × Term)) :
    sum env (ps.foldl (fun acc p => insert p.1 p.2 acc) acc) = sum env acc + sum env ps := by
  induction ps generalizing acc with
  | nil => simp [sum]
  | cons p ps ih =>
    rw [List.foldl_cons, ih, sum_insert, sum]
    ring

theorem eval_add (l m : Linear) : (l.add m).eval env = l.eval env + m.eval env := by
  simp only [eval, add, sum_foldl_insert]
  ring

theorem sum_scale (c : Word) (ps : List (Word × Term)) :
    sum env (ps.map fun p => (c * p.1, p.2)) = c * sum env ps := by
  induction ps with
  | nil => simp [sum]
  | cons p ps ih =>
    rw [List.map_cons, sum, sum, ih]
    ring

theorem eval_scale (c : Word) (l : Linear) : (l.scale c).eval env = c * l.eval env := by
  simp only [eval, scale, sum_scale]
  ring

theorem eval_ofTerm (t : Term) : (ofTerm t).eval env = t.eval env := by
  fun_induction ofTerm t with
  | case1 w => simp [eval, sum, Term.eval]
  | case2 a b iha ihb => rw [eval_add, iha, ihb, Term.eval, Binary.apply]
  | case3 c t => simp [eval, sum, Term.eval, Binary.apply]
  | case4 t => simp [eval, sum]

theorem eval_summand (p : Word × Term) : (summand p).eval env = p.1 * p.2.eval env := by
  unfold summand
  split
  next h =>
    simp [h]
  · rfl

theorem eval_foldl_add (ts : List Term) (first : Term) :
    (ts.foldl (fun acc t => .binary .add acc t) first).eval env =
      first.eval env + (ts.map (Term.eval env)).sum := by
  induction ts generalizing first with
  | nil => simp
  | cons t ts ih =>
    rw [List.foldl_cons, ih, Term.eval, Binary.apply, List.map_cons, List.sum_cons]
    ring

theorem sum_parts (ps : List (Word × Term)) :
    (((ps.filter (·.1 ≠ 0)).map summand).map (Term.eval env)).sum = sum env ps := by
  induction ps with
  | nil => simp [sum]
  | cons p ps ih =>
    by_cases h : p.1 = 0
    · simpa [sum, h] using ih
    · rw [List.filter_cons_of_pos (by simpa using h), List.map_cons, List.map_cons, List.sum_cons,
        ih, eval_summand, sum]

theorem eval_total (ts : List Term) : (total ts).eval env = (ts.map (Term.eval env)).sum := by
  cases ts with
  | nil => simp [total, Term.eval]
  | cons t ts => rw [total, eval_foldl_add, List.map_cons, List.sum_cons]

theorem eval_toTerm (l : Linear) : l.toTerm.eval env = l.eval env := by
  unfold toTerm
  refine (eval_total env _).trans ?_
  split
  next h =>
    rw [sum_parts, eval, h, zero_add]
  · rw [List.map_cons, List.sum_cons, sum_parts, Term.eval, eval]

end Linear

namespace Word

theorem move_zero (a : Word) : move 0 a = a := by
  simp [move]

theorem and_ones (a : Word) : a &&& ones = a := BitVec.and_allOnes

theorem or_zero (a : Word) : a ||| 0 = a := BitVec.or_zero

theorem mask_slices (x mask fill w : Word) :
    (x &&& (mask &&& w)) ||| (fill &&& w) = w &&& ((x &&& mask) ||| fill) := by
  refine BitVec.eq_of_getLsbD_eq fun i _ => ?_
  simp only [BitVec.getLsbD_and, BitVec.getLsbD_or]
  cases w.getLsbD i <;> simp

theorem fill_slices (x mask fill w : Word) :
    (x &&& (mask &&& ~~~w)) ||| (fill ||| w) = w ||| ((x &&& mask) ||| fill) := by
  refine BitVec.eq_of_getLsbD_eq fun i hi => ?_
  simp only [BitVec.getLsbD_and, BitVec.getLsbD_or, BitVec.getLsbD_not, hi, decide_true,
    Bool.true_and]
  cases w.getLsbD i <;> simp

theorem fill_word (x w : Word) : (x &&& ~~~w) ||| w = w ||| x := by
  refine BitVec.eq_of_getLsbD_eq fun i hi => ?_
  simp only [BitVec.getLsbD_and, BitVec.getLsbD_or, BitVec.getLsbD_not, hi, decide_true,
    Bool.true_and]
  cases w.getLsbD i <;> simp

theorem getLsbD_move (n : Int) (a : Word) {i : Nat} (hi : i < 256) :
    (move n a).getLsbD i = (decide (n ≤ i) && a.getLsbD ((i : Int) - n).toNat) := by
  unfold move
  cases n with
  | ofNat n =>
    have hsub : ((i : Int) - Int.ofNat n).toNat = i - n := by
      simp only [Int.ofNat_eq_natCast]
      omega
    have hle : decide (Int.ofNat n ≤ (i : Int)) = decide (n ≤ i) := by simp
    dsimp only
    rw [hsub, hle]
    split
    · rw [BitVec.getLsbD_shiftLeft]
      by_cases hin : n ≤ i
      · simp [hi, hin]
      · simp [hin, Nat.lt_of_not_le hin]
    · have hin : ¬ n ≤ i := by omega
      simp [hin]
  | negSucc n =>
    have hsub : ((i : Int) - Int.negSucc n).toNat = n + 1 + i := by omega
    have hle : Int.negSucc n ≤ (i : Int) := by omega
    dsimp only
    rw [hsub]
    split
    · rw [BitVec.getLsbD_ushiftRight]
      simp [hle]
    · have hge : 256 ≤ n + 1 + i := by omega
      simp [BitVec.getLsbD_of_ge a _ hge]

theorem move_ofNat {n : Nat} (h : n < 256) (a : Word) : move n a = a <<< n := if_pos h

theorem move_neg {n : Nat} (h : n < 256) (a : Word) : move (-(n : Int)) a = a >>> n := by
  cases n with
  | zero => rw [Nat.cast_zero, neg_zero, move_zero, BitVec.ushiftRight_zero]
  | succ n => exact if_pos h

theorem move_move_and (n s : Int) (a mask : Word) :
    move n (move s a) &&& move n mask = move (s + n) a &&& move n mask := by
  refine BitVec.eq_of_getLsbD_eq fun i hi => ?_
  simp only [BitVec.getLsbD_and, getLsbD_move _ _ hi]
  by_cases hn : n ≤ i
  · by_cases hj : ((i : Int) - n).toNat < 256
    · have hcast : ((((i : Int) - n).toNat : Nat) : Int) = (i : Int) - n := by omega
      have hsub : ((((i : Int) - n).toNat : Nat) : Int) - s = (i : Int) - (s + n) := by omega
      have hle : decide (s ≤ ((((i : Int) - n).toNat : Nat) : Int)) = decide (s + n ≤ i) :=
        decide_eq_decide.2 (by omega)
      rw [getLsbD_move _ _ hj, hsub, hle]
      simp [hn]
    · simp [BitVec.getLsbD_of_ge mask _ (Nat.le_of_not_lt hj)]
  · simp [hn]

end Word

namespace Term

variable {a b m : Term} (w : Word)
variable {n : Nat}

theorem eval_mkAdd (a b : Term) : (mkAdd a b).eval env = a.eval env + b.eval env := by
  rw [mkAdd, Linear.eval_toTerm, Linear.eval_add, Linear.eval_ofTerm, Linear.eval_ofTerm]

theorem eval_mkScale (a : Term) : (mkScale w a).eval env = w * a.eval env := by
  rw [mkScale, Linear.eval_toTerm, Linear.eval_scale, Linear.eval_ofTerm]

theorem eval_coefficient (a : Term) :
    a.eval env = (coefficient a).1 * ((coefficient a).2.elim 1 (Term.eval env)) := by
  unfold coefficient
  split <;> simp [Term.eval, Binary.apply]

theorem eval_mkMul (a b : Term) : (mkMul a b).eval env = a.eval env * b.eval env := by
  have ha := eval_coefficient env a
  have hb := eval_coefficient env b
  unfold mkMul
  split
  · rw [eval_mkScale, Term.eval]
  · rw [eval_mkScale, Term.eval, mul_comm]
  · split <;> rename_i hca hcb <;> rw [ha, hb, hca, hcb]
    · simp only [eval_mkScale, Term.eval, Binary.apply, Option.elim_some]
      ring
    · simp only [eval_mkScale, Option.elim_some, Option.elim_none]
      ring
    · simp only [eval_mkScale, Option.elim_some, Option.elim_none]
      ring
    · simp only [Term.eval, Option.elim_none]
      ring

theorem eval_mkSlices (shift : Int) (mask fill : Word) (a : Term) :
    (mkSlices shift mask fill a).eval env = (Word.move shift (a.eval env) &&& mask) ||| fill := by
  unfold mkSlices
  split
  next h =>
    simp [Term.eval, h]
  · split
    next h =>
      obtain ⟨rfl, rfl, rfl⟩ := h
      rw [move_zero, and_ones, or_zero]
    · rfl

theorem eval_mkNot (a : Term) : (mkNot a).eval env = ~~~a.eval env := by
  unfold mkNot
  split <;> simp [Term.eval]

theorem eval_maskBy (a : Term) : (maskBy w a).eval env = w &&& a.eval env := by
  unfold maskBy
  split
  · rfl
  · rw [eval_mkSlices, Term.eval, mask_slices]
  · rw [eval_mkSlices, move_zero, or_zero, BitVec.and_comm]

theorem eval_fillBy (a : Term) : (fillBy w a).eval env = w ||| a.eval env := by
  unfold fillBy
  split
  · rfl
  · rw [eval_mkSlices, Term.eval, fill_slices]
  · rw [eval_mkSlices, move_zero, fill_word]

theorem eval_moveBy (n : Int) (a : Term) : (moveBy n a).eval env = Word.move n (a.eval env) := by
  unfold moveBy
  split
  · rfl
  · rw [eval_mkSlices, Term.eval, move_or, move_and, move_move_and]
  · rw [eval_mkSlices, or_zero, ← move_and, and_ones]

theorem eval_mkOr (a b : Term) : (mkOr a b).eval env = a.eval env ||| b.eval env := by
  unfold mkOr
  split
  · rw [eval_fillBy, Term.eval]
  · rw [eval_fillBy, Term.eval, BitVec.or_comm]
  · split
    next h =>
      rw [h, BitVec.or_self]
    · rfl

theorem eval_mkAnd (a b : Term) : (mkAnd a b).eval env = a.eval env &&& b.eval env := by
  unfold mkAnd
  split
  · rw [eval_maskBy, Term.eval]
  · rw [eval_maskBy, Term.eval, BitVec.and_comm]
  · split
    next h =>
      rw [h, BitVec.and_self]
    · rw [eval_mkNot, eval_mkOr, eval_mkNot, eval_mkNot, ← BitVec.not_and, BitVec.not_not]

theorem xor_ones (x : Word) : Word.ones ^^^ x = ~~~x := by
  rw [Word.ones, BitVec.allOnes_xor]

theorem eval_mkXor (a b : Term) : (mkXor a b).eval env = a.eval env ^^^ b.eval env := by
  have hconst : ∀ c t, (if c = 0 then t else if c = Word.ones then mkNot t
      else Term.binary .xor (.const c) t).eval env = c ^^^ t.eval env := by
    intro c t
    split
    next h =>
      simp [h]
    · split
      next h =>
        rw [h, eval_mkNot, xor_ones]
      · rfl
  unfold mkXor
  split
  · rfl
  · rw [hconst, Term.eval]
  · rw [hconst, Term.eval, BitVec.xor_comm]
  · split
    next h =>
      simp [h, Term.eval]
    · rfl

theorem powerOfTwo?_eq_some {w : Word} (h : powerOfTwo? w = some n) :
    w.toNat = 2 ^ n ∧ n < 256 := by
  unfold powerOfTwo? at h
  dsimp only at h
  split at h
  next hw =>
    simp only [Option.some.injEq] at h
    subst h
    refine ⟨hw.2.symm, ?_⟩
    have hlt : w.toNat < 2 ^ 256 := w.isLt
    exact (Nat.log2_lt hw.1).2 hlt
  · simp at h

theorem smtUDiv_eq_shift {a d : Word} (h : d.toNat = 2 ^ n) : a.smtUDiv d = a >>> n := by
  have hd : d ≠ 0#256 := by
    rintro rfl
    exact absurd h.symm (Nat.pos_iff_ne_zero.1 (Nat.two_pow_pos n))
  rw [BitVec.smtUDiv_eq, if_neg hd]
  apply BitVec.eq_of_toNat_eq
  rw [BitVec.toNat_udiv, BitVec.toNat_ushiftRight, h, Nat.shiftRight_eq_div_pow]

theorem umod_eq_mask {a d : Word} (h : d.toNat = 2 ^ n) : a.umod d = (d - 1) &&& a := by
  apply BitVec.eq_of_toNat_eq
  have hpos : 1 ≤ d.toNat := h ▸ Nat.two_pow_pos n
  have hsub : (d - 1).toNat = 2 ^ n - 1 := by
    rw [BitVec.toNat_sub_of_le (by simpa [BitVec.le_def] using hpos), h]
    rfl
  change (a % d).toNat = _
  rw [BitVec.toNat_umod, BitVec.toNat_and, hsub, h, Nat.and_comm, Nat.and_two_pow_sub_one_eq_mod]

theorem eval_mkUdiv (a b : Term) :
    (mkUdiv a b).eval env = Binary.udiv.apply (a.eval env) (b.eval env) := by
  unfold mkUdiv
  split
  · rfl
  next d _ =>
    split
    next h =>
      rw [h]
      exact BitVec.smtUDiv_zero.symm
    · split
      next n hn =>
        obtain ⟨hd, hn⟩ := powerOfTwo?_eq_some hn
        rw [eval_moveBy, move_neg hn]
        exact (smtUDiv_eq_shift hd).symm
      · rfl
  · rfl

theorem eval_mkUrem (a b : Term) :
    (mkUrem a b).eval env = Binary.urem.apply (a.eval env) (b.eval env) := by
  unfold mkUrem
  split
  · rfl
  next d _ =>
    split
    next h =>
      rw [h]
      exact BitVec.umod_zero.symm
    · split
      next n hn =>
        rw [eval_maskBy]
        exact (umod_eq_mask (powerOfTwo?_eq_some hn).1).symm
      · rfl
  · rfl

theorem smtUDiv_one (a : Word) : a.smtUDiv 1 = a := by
  rw [BitVec.smtUDiv_eq, if_neg (by decide)]
  exact BitVec.udiv_one

theorem smtSDiv_one (a : Word) : a.smtSDiv 1 = a := by
  have hone : (1 : Word).msb = false := by decide
  rw [BitVec.smtSDiv, hone]
  cases a.msb with
  | false => exact smtUDiv_one a
  | true => exact (congrArg BitVec.neg (smtUDiv_one _)).trans (BitVec.neg_neg)

theorem smod_one (a : Word) : a.smod 1 = 0 := by
  have hone : (1 : Word).msb = false := by decide
  rw [BitVec.smod, hone]
  cases a.msb with
  | false => exact BitVec.umod_one
  | true => exact (if_pos BitVec.umod_one).trans BitVec.umod_one

theorem eval_mkSdiv (a b : Term) :
    (mkSdiv a b).eval env = Binary.sdiv.apply (a.eval env) (b.eval env) := by
  unfold mkSdiv
  split
  · rfl
  · split
    next h =>
      rw [h]
      exact (smtSDiv_one _).symm
    · rfl
  · rfl

theorem eval_mkSmod (a b : Term) :
    (mkSmod a b).eval env = Binary.smod.apply (a.eval env) (b.eval env) := by
  unfold mkSmod
  split
  · rfl
  · split
    next h =>
      rw [h]
      exact (smod_one _).symm
    · split
      next h =>
        rw [h]
        exact BitVec.smod_zero.symm
      · rfl
  · rfl

theorem eval_mkShl (a b : Term) :
    (mkShl a b).eval env = Word.shiftLeft (a.eval env) (b.eval env) := by
  unfold mkShl
  split
  · rfl
  · split
    next h =>
      rw [eval_moveBy, move_ofNat h]
      exact (if_pos h).symm
    next h =>
      exact (if_neg h).symm
  · rfl

theorem eval_mkLshr (a b : Term) :
    (mkLshr a b).eval env = Word.shiftRight (a.eval env) (b.eval env) := by
  unfold mkLshr
  split
  · rfl
  · split
    next h =>
      rw [eval_moveBy, move_neg h]
      exact (if_pos h).symm
    next h =>
      exact (if_neg h).symm
  · rfl

theorem eval_mkAshr (a b : Term) :
    (mkAshr a b).eval env = Word.shiftRightSigned (a.eval env) (b.eval env) := by
  unfold mkAshr
  split
  · rfl
  · split
    next h =>
      rw [h]
      exact BitVec.sshiftRight_zero.symm
    · rfl
  · rfl

theorem eval_mkBinary (op : Binary) (a b : Term) :
    (mkBinary op a b).eval env = op.apply (a.eval env) (b.eval env) := by
  cases op with
  | add => exact eval_mkAdd env a b
  | sub =>
    change (mkAdd a (mkScale (-1) b)).eval env = a.eval env - b.eval env
    rw [eval_mkAdd, eval_mkScale]
    ring
  | mul => exact eval_mkMul env a b
  | udiv | udivTotal => exact eval_mkUdiv env a b
  | sdiv | sdivTotal => exact eval_mkSdiv env a b
  | urem | uremTotal => exact eval_mkUrem env a b
  | smod | smodTotal => exact eval_mkSmod env a b
  | and => exact eval_mkAnd env a b
  | or => exact eval_mkOr env a b
  | xor => exact eval_mkXor env a b
  | shl => exact eval_mkShl env a b
  | ashr => exact eval_mkAshr env a b
  | lshr => exact eval_mkLshr env a b

theorem eval_mkChoose (c : Formula) (a b : Term) :
    (mkChoose c a b).eval env = if c.eval env then a.eval env else b.eval env := by
  unfold mkChoose
  split
  · rfl
  · rfl
  · split
    next h =>
      rw [h, ite_self]
    next c _ =>
      rw [Term.eval, Formula.eval]
      cases c.eval env <;> rfl
  · split
    next h =>
      rw [h, ite_self]
    · rfl

theorem eval_mkAddMod (a b m : Term) :
    (mkAddMod a b m).eval env = Word.addMod (a.eval env) (b.eval env) (m.eval env) := by
  unfold mkAddMod
  split <;> rfl

theorem eval_mkMulMod (a b m : Term) :
    (mkMulMod a b m).eval env = Word.mulMod (a.eval env) (b.eval env) (m.eval env) := by
  unfold mkMulMod
  split <;> rfl

end Term

namespace Formula

variable {P : String → Prop}

theorem eval_mkNot (f : Formula) : (mkNot f).eval env = !f.eval env := by
  unfold mkNot
  split <;> simp [Formula.eval]

theorem eval_mkAnd (f g : Formula) : (mkAnd f g).eval env = (f.eval env && g.eval env) := by
  unfold mkAnd
  split <;> try simp [Formula.eval]
  split
  next h =>
    simp [h]
  · rfl

theorem eval_mkOr (f g : Formula) : (mkOr f g).eval env = (f.eval env || g.eval env) := by
  unfold mkOr
  split <;> try simp [Formula.eval]
  split
  next h =>
    simp [h]
  · rfl

theorem eval_mkIff (f g : Formula) : (mkIff f g).eval env = (f.eval env == g.eval env) := by
  unfold mkIff
  split <;> try simp [Formula.eval, eval_mkNot]
  split
  next h =>
    simp [h, Formula.eval]
  · rfl

theorem slices_ne {x mask fill w : Word} (hfine : fill &&& mask = 0) (h : w &&& ~~~mask ≠ fill) :
    (x &&& mask) ||| fill ≠ w := by
  rintro rfl
  apply h
  refine BitVec.eq_of_getLsbD_eq fun i hi => ?_
  have hbit : (fill.getLsbD i && mask.getLsbD i) = false := by
    simpa using congrArg (BitVec.getLsbD · i) hfine
  simp only [BitVec.getLsbD_and, BitVec.getLsbD_or, BitVec.getLsbD_not, hi, decide_true,
    Bool.true_and]
  cases hf : fill.getLsbD i <;> cases hm : mask.getLsbD i <;> simp_all

theorem eval_mkEqConst (ha : a.Fine P) (w : Word) :
    (mkEqConst a w).eval env = (a.eval env == w) := by
  unfold mkEqConst
  split
  · rfl
  next c v u =>
    rw [Term.eval, Term.eval, Term.eval]
    by_cases hv : v = w <;> by_cases hu : u = w <;> cases hc : c.eval env <;>
      simp [hv, hu, hc, eval_mkNot, Formula.eval]
  next shift mask fill t =>
    split
    · rfl
    next h =>
      have hfine : fill &&& mask = 0 := ha.1
      simpa [Formula.eval, Term.eval] using slices_ne hfine h
  · dsimp only
    split
    · rfl
    next h =>
      rw [Formula.eval, Linear.eval_toTerm, ← Linear.eval_ofTerm env a]
      simp only [Linear.eval, Term.eval, Comparison.holds, beq_eq_beq, zero_add]
      exact eq_sub_iff_add_eq'

theorem eval_mkEq (ha : a.Fine P) (hb : b.Fine P) :
    (mkEq a b).eval env = (a.eval env == b.eval env) := by
  unfold mkEq
  split
  · rw [eval_mkEqConst env hb, Term.eval, Bool.beq_comm]
  · rw [eval_mkEqConst env ha, Term.eval]
  · split
    next h =>
      simp [h, Formula.eval]
    · rfl

theorem ule_zero (x : Word) : x.ule 0 = (x == 0) := by
  rw [Bool.eq_iff_iff, beq_iff_eq, BitVec.ule_iff_toNat_le, BitVec.toNat_eq]
  exact Nat.le_zero

theorem ule_ones (x : Word) : x.ule Word.ones = true :=
  decide_eq_true (Nat.le_of_lt_succ (by simpa [Word.ones] using x.isLt))

theorem ones_ule (x : Word) : Word.ones.ule x = (x == Word.ones) := by
  rw [Bool.eq_iff_iff, beq_iff_eq, BitVec.ule_iff_le]
  exact BitVec.allOnes_le_iff

theorem zero_ule (x : Word) : (0 : Word).ule x = true :=
  decide_eq_true (Nat.zero_le _)

theorem eval_mkUle (ha : a.Fine P) (hb : b.Fine P) :
    (mkUle a b).eval env = (a.eval env).ule (b.eval env) := by
  unfold mkUle
  split
  · rfl
  · split
    next h =>
      rw [eval_mkEqConst env ha, h, Term.eval, ule_zero]
    · split
      next h =>
        rw [h, Term.eval, ule_ones, Formula.eval]
      · rfl
  · split
    next h =>
      rw [h, Term.eval, zero_ule, Formula.eval]
    · split
      next h =>
        rw [h, eval_mkEqConst env hb, Term.eval, ones_ule]
      · rfl
  · split
    next h =>
      exact h ▸ (decide_eq_true (Nat.le_refl _)).symm
    · rfl

theorem ult_eq_not_ule (x y : Word) : x.ult y = !y.ule x := by
  rw [Bool.eq_iff_iff, Bool.not_eq_true', ← Bool.not_eq_true, BitVec.ult_iff_toNat_lt,
    BitVec.ule_iff_toNat_le]
  omega

theorem slt_eq_not_sle (x y : Word) : x.slt y = !y.sle x := by
  rw [Bool.eq_iff_iff, Bool.not_eq_true', ← Bool.not_eq_true, BitVec.slt_iff_toInt_lt,
    BitVec.sle_iff_toInt_le]
  omega

theorem toInt_bounds (x : Word) : (BitVec.intMin 256).toInt ≤ x.toInt ∧
    x.toInt ≤ (BitVec.intMax 256).toInt := by
  have hmin : (BitVec.intMin 256).toInt = -2 ^ 255 := by decide
  have hmax : (BitVec.intMax 256).toInt = 2 ^ 255 - 1 := by decide
  have hle := BitVec.le_toInt x
  have hlt := BitVec.toInt_lt (x := x)
  rw [hmin, hmax]
  exact ⟨hle, Int.le_sub_one_of_lt hlt⟩

theorem sle_intMin (x : Word) : x.sle (BitVec.intMin 256) = (x == BitVec.intMin 256) := by
  rw [Bool.eq_iff_iff, beq_iff_eq, BitVec.sle_iff_toInt_le, ← BitVec.toInt_inj]
  have := (toInt_bounds x).1
  omega

theorem intMax_sle (x : Word) : (BitVec.intMax 256).sle x = (x == BitVec.intMax 256) := by
  rw [Bool.eq_iff_iff, beq_iff_eq, BitVec.sle_iff_toInt_le, ← BitVec.toInt_inj]
  have := (toInt_bounds x).2
  omega

theorem eval_mkSle (ha : a.Fine P) (hb : b.Fine P) :
    (mkSle a b).eval env = (a.eval env).sle (b.eval env) := by
  unfold mkSle
  split
  · rfl
  · split
    next h =>
      rw [eval_mkEqConst env ha, h, Term.eval, sle_intMin]
    · split
      next h =>
        rw [h, Term.eval, Formula.eval]
        exact (BitVec.sle_iff_toInt_le.2 (toInt_bounds _).2).symm
      · rfl
  · split
    next h =>
      rw [h, Term.eval, Formula.eval]
      exact (BitVec.sle_iff_toInt_le.2 (toInt_bounds _).1).symm
    · split
      next h =>
        rw [h, eval_mkEqConst env hb, Term.eval, intMax_sle]
      · rfl
  · split
    next h =>
      exact h ▸ (decide_eq_true (Int.le_refl _)).symm
    · rfl

theorem eval_mkCompare (op : Comparison) (ha : a.Fine P) (hb : b.Fine P) :
    (mkCompare op a b).eval env = op.holds (a.eval env) (b.eval env) := by
  cases op with
  | eq => exact eval_mkEq env ha hb
  | ne =>
    rw [mkCompare, eval_mkNot, eval_mkEq env ha hb]
    rfl
  | ult =>
    rw [mkCompare, eval_mkNot, eval_mkUle env hb ha]
    exact (ult_eq_not_ule _ _).symm
  | ule => exact eval_mkUle env ha hb
  | ugt =>
    rw [mkCompare, eval_mkNot, eval_mkUle env ha hb]
    exact (ult_eq_not_ule _ _).symm
  | uge => exact eval_mkUle env hb ha
  | slt =>
    rw [mkCompare, eval_mkNot, eval_mkSle env hb ha]
    exact (slt_eq_not_sle _ _).symm
  | sle => exact eval_mkSle env ha hb
  | sgt =>
    rw [mkCompare, eval_mkNot, eval_mkSle env ha hb]
    exact (slt_eq_not_sle _ _).symm
  | sge => exact eval_mkSle env hb ha

end Formula

mutual

theorem Term.eval_normal : ∀ t : Term, t.normal.eval env = t.eval env
  | .var _ | .const _ => rfl
  | .neg a => by rw [Term.normal, Term.eval_mkScale, a.eval_normal, Term.eval, neg_one_mul]
  | .not a => by rw [Term.normal, Term.eval_mkNot, a.eval_normal, Term.eval]
  | .binary op a b => by
    rw [Term.normal, Term.eval_mkBinary, a.eval_normal, b.eval_normal, Term.eval]
  | .choose c a b => by
    rw [Term.normal, Term.eval_mkChoose, c.eval_normal, a.eval_normal, b.eval_normal, Term.eval]
  | .addMod a b m => by
    rw [Term.normal, Term.eval_mkAddMod, a.eval_normal, b.eval_normal, m.eval_normal, Term.eval]
  | .mulMod a b m => by
    rw [Term.normal, Term.eval_mkMulMod, a.eval_normal, b.eval_normal, m.eval_normal, Term.eval]
  | .slices shift mask fill a => by
    rw [Term.normal, Term.eval_fillBy, Term.eval_maskBy, Term.eval_moveBy, a.eval_normal, Term.eval,
      BitVec.and_comm, BitVec.or_comm]

theorem Formula.eval_normal : ∀ f : Formula, f.normal.eval env = f.eval env
  | .literal _ => rfl
  | .compare op a b => by
    rw [Formula.normal, Formula.eval_mkCompare env op (a.fine_normal a.over_true)
      (b.fine_normal b.over_true), a.eval_normal, b.eval_normal, Formula.eval]
  | .not f => by rw [Formula.normal, Formula.eval_mkNot, f.eval_normal, Formula.eval]
  | .and f g => by
    rw [Formula.normal, Formula.eval_mkAnd, f.eval_normal, g.eval_normal, Formula.eval]
  | .or f g => by
    rw [Formula.normal, Formula.eval_mkOr, f.eval_normal, g.eval_normal, Formula.eval]
  | .iff f g => by
    rw [Formula.normal, Formula.eval_mkIff, f.eval_normal, g.eval_normal, Formula.eval]
  | .xor f g => by
    rw [Formula.normal, Formula.eval_mkNot, Formula.eval_mkIff, f.eval_normal, g.eval_normal,
      Formula.eval]
    rfl

end

theorem Simplifier.sound_default : ({} : Simplifier).Sound :=
  ⟨Term.eval_normal, fun h => (Term.fine_normal _ h).over⟩

end EvmAudit
