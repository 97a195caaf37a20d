import EvmAudit.Machine.Memory
import EvmAudit.Proofs.Double
import EvmAudit.Proofs.Value.Words

/-! What the instructions compute of numbers in the range of words. Remainders, powers, bytes and
sign extensions are the ones of unbounded integers. -/

namespace EvmAudit

open Word

namespace Word

/-! ### Double width -/

theorem toNat_wide (w : Word) : (w.setWidth 512).toNat = w.toNat :=
  BitVec.toNat_setWidth_of_le (by decide)

theorem addMod_eq (a b m : Word) :
    addMod a b m = BitVec.ofNat 256 ((a.toNat + b.toNat) % m.toNat) := by
  have ha := a.isLt
  have hb := b.isLt
  have hm := m.isLt
  have hsum : (a.setWidth 512 + b.setWidth 512).toNat = a.toNat + b.toNat := by
    rw [BitVec.toNat_add, toNat_wide, toNat_wide, Nat.mod_eq_of_lt (by omega)]
  have hpositive (x : BitVec 512) (h : x.toNat < 2 ^ 511) : x.msb = false := by
    rw [BitVec.msb_eq_false_iff_two_mul_lt]
    omega
  have hsmod : (a.setWidth 512 + b.setWidth 512).smod (m.setWidth 512) =
      (a.setWidth 512 + b.setWidth 512).umod (m.setWidth 512) := by
    rw [BitVec.smod, hpositive _ (by omega), hpositive (m.setWidth 512) (by rw [toNat_wide]; omega)]
  apply BitVec.eq_of_toNat_eq
  rw [addMod, hsmod, BitVec.toNat_setWidth, BitVec.umod_eq, BitVec.toNat_umod, hsum, toNat_wide,
    BitVec.toNat_ofNat]

theorem mulMod_eq (a b m : Word) :
    mulMod a b m = BitVec.ofNat 256 (a.toNat * b.toNat % m.toNat) := by
  have hproduct : (a.setWidth 512 * b.setWidth 512).toNat = a.toNat * b.toNat := by
    have hlt : a.toNat * b.toNat < 2 ^ 256 * 2 ^ 256 := Nat.mul_lt_mul'' a.isLt b.isLt
    rw [BitVec.toNat_mul, toNat_wide, toNat_wide, Nat.mod_eq_of_lt (by omega)]
  apply BitVec.eq_of_toNat_eq
  rw [mulMod, BitVec.toNat_setWidth, BitVec.umod_eq, BitVec.toNat_umod, hproduct, toNat_wide,
    BitVec.toNat_ofNat]

/-! ### Bits -/

variable {k s : Nat}

theorem toNat_bit (hk : k < 256) : (BitVec.twoPow 256 k).toNat = 2 ^ k := by
  rw [BitVec.toNat_twoPow, Nat.mod_eq_of_lt (Nat.pow_lt_pow_right (by decide) hk)]

theorem toNat_lowMask (hk : k < 256) : (BitVec.twoPow 256 k - 1).toNat = 2 ^ k - 1 := by
  rw [BitVec.toNat_sub_of_le, toNat_bit hk]
  · rfl
  · rw [BitVec.le_def, toNat_bit hk]
    exact Nat.two_pow_pos k

theorem getLsbD_lowMask (hk : k < 256) (i : Nat) :
    (BitVec.twoPow 256 k - 1).getLsbD i = decide (i < k) := by
  rw [BitVec.getLsbD, toNat_lowMask hk, Nat.testBit_two_pow_sub_one]

theorem neg_bit (k : Nat) : -BitVec.twoPow 256 k = ~~~(BitVec.twoPow 256 k - 1) := by
  rw [BitVec.neg_eq_not_add]
  exact BitVec.not_sub_one_eq_not_add_one.symm

def extended (w : Word) (k : Nat) : Word := (w.setWidth (k + 1)).signExtend 256

theorem getLsbD_extended (w : Word) (k : Nat) {i : Nat} (hi : i < 256) :
    (w.extended k).getLsbD i = if i ≤ k then w.getLsbD i else w.getLsbD k := by
  have hmsb : (w.setWidth (k + 1)).msb = w.getLsbD k := by
    rw [BitVec.msb_eq_getLsbD_last, BitVec.getLsbD_setWidth]
    simp
  rw [extended, BitVec.getLsbD_signExtend, BitVec.getLsbD_setWidth, hmsb]
  by_cases h : i ≤ k
  · simp [hi, h, Nat.lt_succ_of_le h]
  · simp [hi, h, mt Nat.le_of_lt_succ h]

theorem or_neg_bit {w : Word} (hk : k < 256) (h : w.getLsbD k = true) :
    w ||| -BitVec.twoPow 256 k = w.extended k := by
  apply BitVec.eq_of_getLsbD_eq
  intro i hi
  rw [getLsbD_extended w k hi, BitVec.getLsbD_or, neg_bit, BitVec.getLsbD_not, getLsbD_lowMask hk]
  rcases Nat.lt_trichotomy i k with hlt | rfl | hlt
  · simp [hi, hlt, hlt.le]
  · simp [h]
  · simp [hi, h, hlt.not_gt, hlt.not_ge]

theorem and_lowMask_iff {w : Word} (hk : k < 256) :
    w &&& (BitVec.twoPow 256 k - 1) = w.extended k ↔ w.getLsbD k = false := by
  constructor
  · intro h
    have hbit : (w &&& (BitVec.twoPow 256 k - 1)).getLsbD k = (w.extended k).getLsbD k := by rw [h]
    rw [getLsbD_extended w k hk, BitVec.getLsbD_and, getLsbD_lowMask hk] at hbit
    simpa using hbit
  · intro h
    apply BitVec.eq_of_getLsbD_eq
    intro i hi
    rw [getLsbD_extended w k hi, BitVec.getLsbD_and, getLsbD_lowMask hk]
    rcases Nat.lt_trichotomy i k with hlt | rfl | hlt
    · simp [hlt, hlt.le]
    · simp [h]
    · simp [h, hlt.not_gt, hlt.not_ge]

theorem and_bit_eq_zero {w : Word} (hk : k < 256) : w &&& BitVec.twoPow 256 k = 0 ↔
    w.getLsbD k = false := by
  rw [BitVec.and_twoPow]
  cases w.getLsbD k with
  | false => simp
  | true =>
    have hpos : BitVec.twoPow 256 k ≠ 0 := fun h => by
      have htoNat := congrArg BitVec.toNat h
      rw [toNat_bit hk] at htoNat
      exact absurd htoNat (Nat.two_pow_pos k).ne'
    simpa using hpos

theorem extended_last (w : Word) : w.extended 255 = w := by
  apply BitVec.eq_of_getLsbD_eq
  intro i hi
  rw [getLsbD_extended w 255 hi, if_pos (Nat.le_of_lt_succ hi)]

theorem extended_byte {i : Word} (hi : i.toNat < 32) (w : Word) :
    (if i.toNat < 31 then w.extended (8 * i.toNat + 7) else w) = w.extended (8 * i.toNat + 7) := by
  by_cases hlast : i.toNat < 31
  · rw [if_pos hlast]
  · rw [if_neg hlast, show i.toNat = 31 by omega, extended_last]

theorem and_byte_div (n s : Nat) : (n &&& 255 * 2 ^ s) / 2 ^ s = n / 2 ^ s % 256 := by
  rw [← Nat.shiftRight_eq_div_pow, Nat.shiftRight_and_distrib, Nat.shiftRight_eq_div_pow,
    Nat.shiftRight_eq_div_pow, Nat.mul_div_cancel _ (Nat.two_pow_pos s)]
  exact Nat.and_two_pow_sub_one_eq_mod _ 8

end Word

/-! ### Powers -/

theorem powMod_eq (base e m : Nat) : powMod base e m = base ^ e % m := by
  induction base, e using powMod.induct m with
  | case1 base => rw [powMod, dif_pos rfl, Nat.pow_zero]
  | case2 base e he hodd ih =>
    have hpow : base ^ e = base * (base * base) ^ (e / 2) := by
      rw [← Nat.pow_two, ← Nat.pow_mul, ← Nat.pow_succ', Nat.succ_eq_add_one,
        show 2 * (e / 2) + 1 = e by omega]
    rw [powMod, dif_neg he, if_pos hodd, ih, hpow, ← Nat.pow_mod, Nat.mul_mod_mod]
  | case3 base e he hodd ih =>
    have hpow : base ^ e = (base * base) ^ (e / 2) := by
      rw [← Nat.pow_two, ← Nat.pow_mul, show 2 * (e / 2) = e by omega]
    rw [powMod, dif_neg he, if_neg hodd, ih, hpow, ← Nat.pow_mod]

theorem wordPower_toNat (x y : Word) :
    wordPower x.toNat y.toNat = .ok ((x.toNat ^ y.toNat % 2 ^ 256 : Nat) : Int) := by
  have hbase : ((x.toNat : Int).fmod Word.count).toNat = x.toNat := by
    rw [Int.fmod_eq_emod_of_nonneg _ (Int.natCast_nonneg _), ← Int.natCast_emod, Int.toNat_natCast]
    exact Nat.mod_eq_of_lt x.isLt
  unfold wordPower
  dsimp only
  rw [if_pos (Int.natCast_nonneg _), hbase, Int.toNat_natCast, powMod_eq]
  rfl

theorem intPow_two (k : Nat) : Int.pow 2 k = ((2 ^ k : Nat) : Int) := by
  rw [Nat.cast_pow]
  rfl

namespace Arithmetic

theorem toUnsigned_natCast (n : Nat) : toUnsigned n = n :=
  if_neg (Int.not_lt.2 (Int.natCast_nonneg n))

theorem toNat_eq_zero_iff (y : Word) : (y.toNat : Int) = 0 ↔ y = 0 := by
  rw [Int.natCast_eq_zero, BitVec.toNat_eq]
  rfl

theorem remainder_toNat (x y : Word) :
    remainder x.toNat y.toNat = .ok (.int (if y = 0 then 0 else x.toNat % y.toNat : Nat)) := by
  unfold remainder
  by_cases hy : y = 0
  · rw [if_pos ((toNat_eq_zero_iff y).2 hy), if_pos hy]
    rfl
  · have hmod : (Value.int x.toNat).mod (.int y.toNat) =
        .ok (.int ((x.toNat % y.toNat : Nat) : Int)) := by
      rw [Int.natCast_emod, ← Int.fmod_eq_emod_of_nonneg _ (Int.natCast_nonneg _)]
      exact if_neg fun h => hy ((toNat_eq_zero_iff y).1 h)
    have hlt := Nat.lt_of_le_of_lt (Nat.mod_le x.toNat y.toNat) x.isLt
    rw [if_neg fun h => hy ((toNat_eq_zero_iff y).1 h), if_neg hy, toUnsigned_natCast,
      toUnsigned_natCast, hmod]
    change Except.ok (Value.int (Value.intAnd _ _)) = _
    rw [intAnd_mask, Nat.mod_eq_of_lt hlt]

theorem signExtension_toNat (i y : Word) : signExtension i.toNat y.toNat =
    .int (if i.toNat < 31 then y.extended (8 * i.toNat + 7) else y).toNat := by
  unfold signExtension
  by_cases hi : i.toNat < 32
  · have hk : 8 * i.toNat + 7 < 256 := by omega
    have hplace : (8 * (i.toNat : Int) + 7).toNat = 8 * i.toNat + 7 := by omega
    have hpow : Int.pow 2 (8 * i.toNat + 7) =
        ((BitVec.twoPow 256 (8 * i.toNat + 7)).toNat : Int) := by
      rw [toNat_bit hk, intPow_two]
    have hlow : Int.pow 2 (8 * i.toNat + 7) - 1 =
        ((BitVec.twoPow 256 (8 * i.toNat + 7) - 1).toNat : Int) := by
      have hpos := Nat.two_pow_pos (8 * i.toNat + 7)
      rw [hpow, toNat_bit hk, toNat_lowMask hk]
      omega
    have hhigh : (Word.count : Int) - Int.pow 2 (8 * i.toNat + 7) =
        ((-BitVec.twoPow 256 (8 * i.toNat + 7)).toNat : Int) := by
      have hpos := Nat.two_pow_pos (8 * i.toNat + 7)
      have hlt : 2 ^ (8 * i.toNat + 7) < 2 ^ 256 := Nat.pow_lt_pow_right (by decide) hk
      have hcount : Word.count = 2 ^ 256 := rfl
      rw [hpow, BitVec.toNat_neg, toNat_bit hk, Nat.mod_eq_of_lt (by omega)]
      omega
    rw [if_neg (by omega), hplace, extended_byte hi]
    dsimp only
    rw [hhigh, hlow, hpow, intAnd_toNat, intOr_toNat, intAnd_toNat]
    by_cases hbit : y.getLsbD (8 * i.toNat + 7) = true
    · rw [if_pos fun h => ?_, or_neg_bit hk hbit]
      rw [toNat_eq_zero_iff, and_bit_eq_zero hk, hbit] at h
      cases h
    · rw [Bool.not_eq_true] at hbit
      rw [if_neg (not_not.2 ((toNat_eq_zero_iff _).2 ((and_bit_eq_zero hk).2 hbit))),
        (and_lowMask_iff hk).2 hbit]
  · rw [if_pos (by omega), if_neg (by omega)]

end Arithmetic

theorem Value.shift_natCast (op : Binary) (onInts : Int → Nat → Int) (m : Int) (k : Nat) :
    shift op onInts (.int m) (.int k) = .ok (.int (onInts m k)) := rfl

theorem Value.shiftLeft_natCast (n k : Nat) :
    (Value.int n).shiftLeft (.int k) = .ok (.int ((n * 2 ^ k : Nat) : Int)) := by
  rw [shiftLeft, shift_natCast, intPow_two, Nat.cast_mul]

theorem Exec.byteOf_natCast (n s : Nat) :
    Exec.byteOf (.int n) (.int s) = .ok (.int ((n / 2 ^ s % 256 : Nat) : Int)) := by
  have hright : (Value.int ((n &&& 255 * 2 ^ s : Nat) : Int)).shiftRight (.int s) =
      .ok (.int ((n / 2 ^ s % 256 : Nat) : Int)) := by
    rw [Value.shiftRight, Value.shift_natCast, intPow_two,
      Int.fdiv_eq_ediv_of_nonneg _ (Int.natCast_nonneg _), ← Int.natCast_ediv, and_byte_div]
  rw [Exec.byteOf, show Value.int 255 = .int (255 : Nat) from rfl, Value.shiftLeft_natCast]
  exact hright

theorem Exec.growTo_ok (current : Int) {limit : Int} (h : limit.natAbs.log2 ≤ 1000) :
    ∃ n, growTo current limit = .ok (.int n) := by
  obtain ⟨s, m, e, hlimit⟩ := Double.ofInt?_finite h
  rw [growTo, wordsTo, hlimit]
  exact ⟨_, rfl⟩

end EvmAudit
