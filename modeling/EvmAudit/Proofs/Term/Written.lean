import EvmAudit.Proofs.Numeral
import EvmAudit.Proofs.Term.Meaning
import EvmAudit.Term.Text

/-! Terms that are written as numerals. Such a term has the value of the numeral, whatever its
variables stand for, as long as no variable is named like a numeral. -/

namespace EvmAudit

namespace Numeral

variable {s : String}

def isForeign (c : Char) : Bool :=
  !Text.isBlank c && c != '_' && c != '+' && c != '-' && (digit? 10 c).isNone

def Broken (s : String) : Prop :=
  (∃ c ∈ s.toList, isForeign c = true) ∨
    ∃ before sign c after, s.toList = before ++ sign :: c :: after ∧ (sign = '+' ∨ sign = '-') ∧
      digit? 10 c = none

theorem Broken.surround (h : Broken s) (before after : String) : Broken (before ++ s ++ after) := by
  rcases h with ⟨c, hc, hf⟩ | ⟨front, sign, c, back, hs, hsign, hc⟩
  · exact .inl ⟨c, by simp [hc], hf⟩
  · exact .inr ⟨before.toList ++ front, sign, c, back ++ after.toList, by simp [hs], hsign, hc⟩

theorem Broken.append (h : Broken s) (after : String) : Broken (s ++ after) := by
  simpa using h.surround "" after

theorem Broken.behind (h : Broken s) (before : String) : Broken (before ++ s) := by
  simpa using h.surround before ""

/-- The characters of a numeral that are no signs. -/
def Plain (c : Char) : Prop := Text.isBlank c = true ∨ c = '_' ∨ (digit? 10 c).isSome = true

theorem plain_of_restDigits {acc n : Nat} {cs : List Char} (h : restDigits 10 acc cs = some n) :
    ∀ c ∈ cs, Plain c := by
  fun_induction restDigits 10 acc cs with
  | case1 => simp
  | case2 acc c cs ih =>
    obtain ⟨d, hd, hrest⟩ := Option.bind_eq_some_iff.1 h
    simpa [Plain, hd] using ih d hrest
  | case3 acc c cs _ ih =>
    obtain ⟨d, hd, hrest⟩ := Option.bind_eq_some_iff.1 h
    simpa [Plain, hd] using ih d hrest

theorem plain_of_magnitude {n : Nat} {cs : List Char} (h : magnitude 10 cs = some n) :
    ∃ d ds, cs = d :: ds ∧ (digit? 10 d).isSome = true ∧ ∀ c ∈ ds, Plain c := by
  unfold magnitude at h
  split at h
  · cases h
  · rw [dropMark_ten] at h
    cases cs with
    | nil => cases h
    | cons d ds =>
      obtain ⟨k, hk, hrest⟩ := Option.bind_eq_some_iff.1 h
      exact ⟨d, ds, rfl, by simp [hk], plain_of_restDigits hrest⟩

theorem exists_trim (s : String) : ∃ before after : List Char,
    s.toList = before ++ (Text.trim s).toList ++ after ∧ (∀ c ∈ before, Text.isBlank c = true) ∧
      ∀ c ∈ after, Text.isBlank c = true := by
  refine ⟨s.toList.takeWhile Text.isBlank,
    ((s.toList.dropWhile Text.isBlank).reverse.takeWhile Text.isBlank).reverse, ?_, ?_, ?_⟩
  · rw [Text.trim, Text.strip, String.toList_ofList, Text.dropEndWhile, List.append_assoc,
      ← List.reverse_append, List.takeWhile_append_dropWhile, List.reverse_reverse,
      List.takeWhile_append_dropWhile]
  · exact List.all_eq_true.1 List.all_takeWhile
  · exact fun c hc => List.all_eq_true.1 List.all_takeWhile c (List.mem_reverse.1 hc)

theorem exists_of_read {n : Int} (h : read 10 s = some n) :
    ∃ before sign d rest, s.toList = before ++ (sign ++ d :: rest) ∧
    (sign = [] ∨ sign = ['+'] ∨ sign = ['-']) ∧
      (digit? 10 d).isSome = true ∧ ∀ c ∈ before ++ d :: rest, Plain c := by
  obtain ⟨before, after, hs, hbefore, hafter⟩ := exists_trim s
  obtain ⟨sign, cs, k, htrim, hsign, hk⟩ : ∃ sign cs k, (Text.trim s).toList = sign ++ cs ∧
      (sign = [] ∨ sign = ['+'] ∨ sign = ['-']) ∧ magnitude 10 cs = some k := by
    unfold read at h
    split at h <;> obtain ⟨v, hv, -⟩ := Option.map_eq_some_iff.1 h <;>
      obtain ⟨k, hk, -⟩ := Option.bind_eq_some_iff.1 hv
    next cs hcs => exact ⟨['-'], cs, k, hcs, by decide, hk⟩
    next cs hcs => exact ⟨['+'], cs, k, hcs, by decide, hk⟩
    · exact ⟨[], _, k, (List.nil_append _).symm, .inl rfl, hk⟩
  obtain ⟨d, ds, rfl, hd, hds⟩ := plain_of_magnitude hk
  refine ⟨before, sign, d, ds ++ after, by simp [hs, htrim], hsign, hd, fun c hc => ?_⟩
  simp only [List.mem_append, List.mem_cons] at hc
  rcases hc with hc | rfl | hc | hc
  · exact .inl (hbefore c hc)
  · exact .inr (.inr hd)
  · exact hds c hc
  · exact .inl (hafter c hc)

theorem read_of_broken (h : Broken s) : read 10 s = none := by
  rw [Option.eq_none_iff_forall_ne_some]
  intro n hn
  obtain ⟨before, mark, d, rest, hs, hmark, hd, hplain⟩ := exists_of_read hn
  rcases h with ⟨c, hc, hforeign⟩ | ⟨front, sign, c, back, hs', hsign, hc⟩
  · rw [hs] at hc
    have hnot : ¬ Plain c := by simp_all [Plain, isForeign]
    rcases hmark with rfl | rfl | rfl
    · exact hnot (hplain c hc)
    · simp_all [isForeign]
    · simp_all [isForeign]
  · have hnot : sign ∉ before ++ d :: rest := by
      intro hmem
      rcases hsign with rfl | rfl <;> exact absurd (hplain _ hmem) (by unfold Plain; decide)
    rw [List.mem_append, not_or] at hnot
    rw [hs'] at hs
    -- the sign of the text is the one sign of the numeral, and the digit follows it
    rcases hmark with rfl | rfl | rfl
    · exact absurd (show sign ∈ before ++ d :: rest from hs ▸ by simp) (by simpa using hnot)
    all_goals
      obtain ⟨-, -, hback⟩ := (List.append_cons_inj_of_notMem hnot.1 hnot.2).1 hs.symm
      cases hback
      rw [hc] at hd
      cases hd

theorem broken_of_any (h : s.toList.any isForeign = true) : Broken s :=
  .inl (List.any_eq_true.1 h)

theorem broken_intercalate {sep : String} (h : Broken sep) {xs ys : List String} (hx : xs ≠ [])
    (hy : ys ≠ []) : Broken (sep.intercalate (xs ++ ys)) := by
  obtain ⟨x, xs, rfl⟩ := List.exists_cons_of_ne_nil hx
  obtain ⟨y, ys, rfl⟩ := List.exists_cons_of_ne_nil hy
  obtain ⟨z, zs, hzs⟩ : ∃ z zs, xs ++ y :: ys = z :: zs := List.exists_cons_of_ne_nil (by simp)
  rw [List.cons_append, hzs, String.intercalate_cons_cons]
  exact h.surround x _

end Numeral

open Numeral

/-! ### Slices -/

namespace Word

def runsBelow (mask : Word) (n : Nat) : List (Bool × Nat × Nat) :=
  (List.range n).foldl (fun acc i =>
    let kept := mask.getLsbD i
    match acc with
    | (k, lo, n) :: rest => if k = kept then (k, lo, n + 1) :: rest else (kept, i, 1) :: acc
    | [] => [(kept, i, 1)]) []

theorem runsBelow_cons (mask : Word) (n : Nat) : ∃ k lo len rest,
    runsBelow mask (n + 1) = (k, lo, len) :: rest ∧ lo + len = n + 1 ∧
      (∀ i, lo ≤ i → i < n + 1 → mask.getLsbD i = k) ∧ (rest = [] → lo = 0) := by
  induction n with
  | zero =>
    refine ⟨mask.getLsbD 0, 0, 1, [], rfl, rfl, fun i _ hi => ?_, fun _ => rfl⟩
    rw [show i = 0 by omega]
  | succ n ih =>
    obtain ⟨k, lo, len, rest, hruns, hlen, hsame, hlow⟩ := ih
    rw [runsBelow, List.range_succ, List.foldl_append, ← runsBelow, hruns]
    dsimp only [List.foldl]
    split
    next hk =>
      refine ⟨k, lo, len + 1, rest, rfl, by omega, fun i hlo hi => ?_, hlow⟩
      by_cases hlast : i = n + 1
      · rw [hlast, hk]
      · exact hsame i hlo (by omega)
    · refine ⟨_, n + 1, 1, (k, lo, len) :: rest, rfl, rfl, fun i hlo hi => ?_, fun h => by cases h⟩
      rw [show i = n + 1 by omega]

theorem single_run {mask : Word} {k : Bool} {lo n : Nat} (h : runs mask = [(k, lo, n)]) :
    lo = 0 ∧ n = 256 ∧ mask = if k then ones else 0 := by
  obtain ⟨k', lo', len, rest, hruns, hlen, hsame, hlow⟩ := runsBelow_cons mask 255
  have heq : [(k, lo, n)] = (k', lo', len) :: rest := h.symm.trans hruns
  obtain ⟨hfirst, rfl⟩ := List.cons.inj heq
  cases hfirst
  have hlo : lo = 0 := hlow rfl
  refine ⟨hlo, by omega, BitVec.eq_of_getLsbD_eq fun i hi => ?_⟩
  rw [hsame i (by omega) hi]
  cases k with
  | false => exact (BitVec.getLsbD_zero).symm
  | true => exact (BitVec.getLsbD_allOnes.trans (decide_eq_true hi)).symm

end Word

theorem slicesText_cases (shift : Int) (mask fill : Word) (inner : String) :
    Broken (slicesText shift mask fill inner) ∨ mask = 0 ∧
    slicesText shift mask fill inner = toString fill.toNat ∨
      mask = Word.ones ∧ shift = 0 ∧ fill = 0 ∧ slicesText shift mask fill inner = inner := by
  have hconcat (s : String) : Broken ("Concat(" ++ s ++ ")") :=
    ((broken_of_any (by decide) : Broken "Concat(").append s).append ")"
  unfold slicesText
  rcases hruns : Word.runs mask with _ | ⟨⟨k, lo, n⟩, _ | ⟨second, rest⟩⟩
  · exact .inl (hconcat _)
  · obtain ⟨rfl, rfl, rfl⟩ := Word.single_run hruns
    cases k with
    | false =>
      refine .inr (.inl ⟨rfl, ?_⟩)
      have hfield : Word.field fill 0 256 = fill.toNat := by
        rw [Word.field, Nat.shiftRight_zero]
        exact Nat.mod_eq_of_lt fill.isLt
      simp [hfield]
    | true =>
      by_cases hwhole : shift = 0 ∧ fill = 0
      · obtain ⟨rfl, rfl⟩ := hwhole
        exact .inr (.inr ⟨rfl, rfl, rfl, by simp⟩)
      · refine .inl ?_
        have hne : ¬ (((0 : Nat) : Int) - shift = 0 ∧ ((0 : Nat) : Int) - shift + (256 : Nat) - 1 =
            255 ∧ fill = 0) := fun h => hwhole ⟨by omega, h.2.2⟩
        simp only [List.map_cons, List.map_nil, hne, if_false, if_true]
        exact ((broken_of_any (by decide) : Broken "Extract(").append _).append ")"
  · exact .inl (hconcat _)

/-! ### Terms -/

theorem broken_bracket (s : String) : Broken (bracket s) :=
  ((broken_of_any (by decide) : Broken "(").append s).append ")"

theorem Binary.broken_sign {op : Binary} {sign : String} {spaced : Bool} {level : Nat}
    (h : op.spelling = .between sign spaced level) :
    Broken (if spaced then " " ++ sign ++ " " else sign) := by
  cases op with
  | add =>
    cases h
    exact .inr ⟨[' '], '+', ' ', [], by decide, .inl rfl, by decide⟩
  | sub =>
    cases h
    exact .inr ⟨[' '], '-', ' ', [], by decide, .inr rfl, by decide⟩
  | _ => cases h <;> exact broken_of_any (by decide)

namespace Term

def writtenAt (d : Nat) (t : Term) : String := "".intercalate (t.pieces d none)

theorem pieces_ne_nil (d : Nat) : ∀ (t : Term) (around : Option Around), t.pieces d around ≠ []
  | .var _, _ | .const _, _ | .neg _, _ | .not _, _ | .choose _ _ _, _ | .addMod _ _ _, _
  | .mulMod _ _ _, _ | .slices _ _ _ _, _ => by simp [pieces]
  | .binary op a b, around => by
    rw [pieces]
    split
    · split
      · exact List.append_ne_nil_of_left_ne_nil (pieces_ne_nil d a _) _
      · simp
    · simp

theorem broken_cut : Broken "..." := broken_of_any (by decide)

variable {P : String → Prop} {env : Assignment}

theorem writtenAt_cases (hP : ∀ x, P x → Broken x) : ∀ (t : Term) (d : Nat), t.Over P →
    Broken (t.writtenAt d) ∨ (∃ w, t.writtenAt d = toString w.toNat ∧ t.eval env = w) ∨
      ∃ w, t.writtenAt d = "-" ++ toString w.toNat ∧ t.eval env = -w
  | .var name, d, h => by
    left
    rw [writtenAt, pieces, String.intercalate_singleton]
    split
    · exact broken_cut
    · exact hP name h
  | .const w, d, _ => by
    rw [writtenAt, pieces, String.intercalate_singleton]
    split
    · exact .inl broken_cut
    · exact .inr (.inl ⟨w, rfl, rfl⟩)
  | .neg a, 0, _ => .inl broken_cut
  | .neg a, d + 1, h => by
    have hshown : (neg a).writtenAt (d + 1) = "-" ++ signOperand Term.isNeg a (a.writtenAt d) :=
      String.intercalate_singleton
    have hoperand : signOperand Term.isNeg a (a.writtenAt d) = a.writtenAt d ∨
        signOperand Term.isNeg a (a.writtenAt d) = bracket (a.writtenAt d) := by
      unfold signOperand
      split
      · exact .inl rfl
      · split
        · exact .inr rfl
        · exact .inl rfl
    rw [hshown]
    rcases hoperand with hplain | hbracket
    · rw [hplain]
      rcases writtenAt_cases hP a d h with hb | ⟨w, hw, he⟩ | ⟨w, hw, -⟩
      · exact .inl (hb.behind "-")
      · exact .inr (.inr ⟨w, by rw [hw], by rw [eval, he]⟩)
      · -- two signs in a row
        refine .inl (.inr ⟨[], '-', '-', (toString w.toNat).toList, ?_, .inr rfl, by decide⟩)
        rw [hw]
        simp
    · rw [hbracket]
      exact .inl ((broken_bracket _).behind "-")
  | .not a, d, _ => by
    left
    cases d with
    | zero => exact broken_cut
    | succ d => exact (broken_of_any (by decide) : Broken "~").append _
  | .binary op a b, d, _ => by
    left
    rw [writtenAt, pieces]
    split
    next sign spaced level hop =>
      rw [if_neg (by simp [Around.joins]), String.intercalate_singleton]
      change Broken (if d = 0 then _ else _)
      split
      · exact broken_cut
      · exact broken_intercalate (Binary.broken_sign hop) (pieces_ne_nil _ a _)
          (pieces_ne_nil _ b _)
    · rw [String.intercalate_singleton]
      split
      · exact broken_cut
      · exact (broken_bracket _).behind _
  | .choose _ _ _, d, _ | .addMod _ _ _, d, _ | .mulMod _ _ _, d, _ => by
    left
    rw [writtenAt, pieces, String.intercalate_singleton]
    split
    · exact broken_cut
    · exact (broken_bracket _).behind _
  | .slices _ _ _ _, 0, _ => .inl broken_cut
  | .slices shift mask fill a, d + 1, h => by
    have hshown : (slices shift mask fill a).writtenAt (d + 1) =
        slicesText shift mask fill (a.writtenAt (d - 1)) := by
      rw [writtenAt, pieces, String.intercalate_singleton, if_neg (Nat.succ_ne_zero d),
        show d + 1 - 2 = d - 1 by omega, writtenAt]
    rw [hshown, eval]
    rcases slicesText_cases shift mask fill (a.writtenAt (d - 1)) with
      hb | ⟨rfl, htext⟩ | ⟨rfl, rfl, rfl, htext⟩
    · exact .inl hb
    · exact .inr (.inl ⟨fill, htext, (congrArg (· ||| fill) BitVec.and_zero).trans BitVec.zero_or⟩)
    · rw [htext, Word.move_zero, Word.and_ones, Word.or_zero]
      exact writtenAt_cases hP a (d - 1) h.2

theorem length_toDigits (w : Word) : (Nat.toDigits 10 w.toNat).length ≤ decimalLimit := by
  have hlt : w.toNat < 10 ^ 256 := Nat.lt_of_lt_of_le w.isLt (Nat.pow_le_pow_left (by omega) 256)
  have hlen : (Nat.toDigits 10 w.toNat).length ≤ 256 :=
    (Nat.length_toDigits_le_iff (by omega) (by omega)).2 hlt
  exact Nat.le_trans hlen (by decide)

theorem toNat_eval_of_read {t : Term} (ht : t.Over Broken) {n : Int}
    (h : Numeral.read 10 t.text = some n) (hn : 0 ≤ n) : n = (t.eval env).toNat := by
  change Numeral.read 10 (t.writtenAt (textDepth + 1)) = some n at h
  rcases @writtenAt_cases Broken env (fun _ h => h) t (textDepth + 1)
    ht with hb | ⟨w, hw, he⟩ | ⟨w, hw, he⟩
  · rw [read_of_broken hb] at h
    cases h
  · have hread := (congrArg (Numeral.read 10) hw).trans (read_repr (length_toDigits w))
    rw [hread, Option.some.injEq] at h
    rw [he, h]
  · have hread := (congrArg (Numeral.read 10) hw).trans (read_neg_repr (length_toDigits w))
    rw [hread, Option.some.injEq] at h
    have hzero : w = 0 := BitVec.eq_of_toNat_eq (by simp; omega)
    rw [he, hzero, ← h, hzero]
    simp

end Term

/-- Constants are written in decimals. A term that is written like a number has its value, unless
one of its variables is named like a number. -/
structure Printer.Sound (p : Printer) : Prop where
  const (c : Word) : p.term (.const c) = toString c.toNat
  numeral {env : Assignment} {t : Term} {n : Int} (ht : t.Over Broken)
    (h : Numeral.read 10 (p.term t) = some n) (hn : 0 ≤ n) : n = (t.eval env).toNat

theorem Printer.sound_default : ({} : Printer).Sound where
  const c := @String.intercalate_singleton "" (toString c.toNat)
  numeral ht h hn := Term.toNat_eval_of_read ht h hn

end EvmAudit
