import Mathlib.Data.BitVec
import EvmAudit.Term.Normal

/-! Terms over a class of variables. The value of a term depends on its variables only, and the
normal form has no others; besides, the filling of its slices lies outside the mask. -/

namespace EvmAudit

namespace Word

variable {fill mask w : Word}

theorem move_and (n : Int) (a b : Word) : move n (a &&& b) = move n a &&& move n b := by
  unfold move
  cases n with
  | ofNat n =>
    dsimp only
    split
    · exact BitVec.shiftLeft_and_distrib ..
    · simp
  | negSucc n =>
    dsimp only
    split
    · exact BitVec.ushiftRight_and_distrib ..
    · simp

theorem move_or (n : Int) (a b : Word) : move n (a ||| b) = move n a ||| move n b := by
  unfold move
  cases n with
  | ofNat n =>
    dsimp only
    split
    · exact BitVec.shiftLeft_or_distrib ..
    · simp
  | negSucc n =>
    dsimp only
    split
    · exact BitVec.ushiftRight_or_distrib ..
    · simp

theorem move_zero_word (n : Int) : move n 0 = 0 := by
  unfold move
  cases n <;> simp

theorem fill_mask (h : fill &&& mask = 0) : (fill ||| w) &&& (mask &&& ~~~w) = 0 := by
  refine BitVec.eq_of_getLsbD_eq fun i hi => ?_
  have hbit : (fill.getLsbD i && mask.getLsbD i) = false := by
    rw [← BitVec.getLsbD_and, h]
    exact BitVec.getLsbD_zero
  simp only [BitVec.getLsbD_and, BitVec.getLsbD_or, BitVec.getLsbD_not, hi, decide_true,
    Bool.true_and]
  cases hf : fill.getLsbD i <;> cases hw : w.getLsbD i <;> simp_all

theorem mask_mask (h : fill &&& mask = 0) : (fill &&& w) &&& (mask &&& w) = 0 := by
  rw [BitVec.and_assoc, ← BitVec.and_assoc w, BitVec.and_comm w mask, BitVec.and_assoc mask,
    ← BitVec.and_assoc fill, h]
  simp
end Word

mutual

/-- All variables satisfy `P`, and mask and filling of all slices satisfy `S`. -/
def Term.Holds (P : String → Prop) (S : Word → Word → Prop) : Term → Prop
  | .var name => P name
  | .const _ => True
  | .neg a | .not a => a.Holds P S
  | .binary _ a b => a.Holds P S ∧ b.Holds P S
  | .choose c a b => c.Holds P S ∧ a.Holds P S ∧ b.Holds P S
  | .addMod a b m | .mulMod a b m => a.Holds P S ∧ b.Holds P S ∧ m.Holds P S
  | .slices _ mask fill a => S mask fill ∧ a.Holds P S

def Formula.Holds (P : String → Prop) (S : Word → Word → Prop) : Formula → Prop
  | .literal _ => True
  | .compare _ a b => a.Holds P S ∧ b.Holds P S
  | .not f => f.Holds P S
  | .and f g | .or f g | .iff f g | .xor f g => f.Holds P S ∧ g.Holds P S

end

def Term.Over (P : String → Prop) : Term → Prop := Term.Holds P fun _ _ => True

def Formula.Over (P : String → Prop) : Formula → Prop := Formula.Holds P fun _ _ => True

def Term.Fine (P : String → Prop) : Term → Prop := Term.Holds P fun mask fill => fill &&& mask = 0

def Formula.Fine (P : String → Prop) : Formula → Prop :=
  Formula.Holds P fun mask fill => fill &&& mask = 0

/-- A simplified term has the value of the term, whatever the variables stand for, and no other
variables. -/
structure Simplifier.Sound (s : Simplifier) : Prop where
  eval (env : Assignment) (t : Term) : (s.term t).eval env = t.eval env
  vars {P : String → Prop} {t : Term} (h : t.Over P) : (s.term t).Over P

section

variable {P Q : String → Prop} {S T : Word → Word → Prop}

mutual

theorem Term.holds_imp (hP : ∀ x, P x → Q x) (hS : ∀ m f, S m f → T m f) :
    ∀ t : Term, t.Holds P S → t.Holds Q T
  | .var _, h => hP _ h
  | .const _, _ => trivial
  | .neg a, h | .not a, h => Term.holds_imp hP hS a h
  | .binary _ a b, h => ⟨Term.holds_imp hP hS a h.1, Term.holds_imp hP hS b h.2⟩
  | .choose c a b, h =>
    ⟨Formula.holds_imp hP hS c h.1, Term.holds_imp hP hS a h.2.1, Term.holds_imp hP hS b h.2.2⟩
  | .addMod a b m, h | .mulMod a b m, h =>
    ⟨Term.holds_imp hP hS a h.1, Term.holds_imp hP hS b h.2.1, Term.holds_imp hP hS m h.2.2⟩
  | .slices _ _ _ a, h => ⟨hS _ _ h.1, Term.holds_imp hP hS a h.2⟩

theorem Formula.holds_imp (hP : ∀ x, P x → Q x) (hS : ∀ m f, S m f → T m f) :
    ∀ f : Formula, f.Holds P S → f.Holds Q T
  | .literal _, _ => trivial
  | .compare _ a b, h => ⟨Term.holds_imp hP hS a h.1, Term.holds_imp hP hS b h.2⟩
  | .not f, h => Formula.holds_imp hP hS f h
  | .and f g, h | .or f g, h | .iff f g, h | .xor f g, h =>
    ⟨Formula.holds_imp hP hS f h.1, Formula.holds_imp hP hS g h.2⟩

end

theorem Term.Fine.over {t : Term} (h : t.Fine P) : t.Over P :=
  Term.holds_imp (fun _ hx => hx) (fun _ _ _ => trivial) t h

mutual

theorem Term.eval_congr {env env' : Assignment} (h : ∀ x, P x → env x = env' x) :
    ∀ t : Term, t.Holds P S → t.eval env = t.eval env'
  | .var _, ht => h _ ht
  | .const _, _ => rfl
  | .neg a, ht | .not a, ht => by
    rw [Term.eval, Term.eval, Term.eval_congr h a ht]
  | .binary _ a b, ht => by
    rw [Term.eval, Term.eval, Term.eval_congr h a ht.1, Term.eval_congr h b ht.2]
  | .choose c a b, ht => by
    rw [Term.eval, Term.eval, Formula.eval_congr h c ht.1, Term.eval_congr h a ht.2.1,
      Term.eval_congr h b ht.2.2]
  | .addMod a b m, ht | .mulMod a b m, ht => by
    rw [Term.eval, Term.eval, Term.eval_congr h a ht.1, Term.eval_congr h b ht.2.1,
      Term.eval_congr h m ht.2.2]
  | .slices _ _ _ a, ht => by rw [Term.eval, Term.eval, Term.eval_congr h a ht.2]

theorem Formula.eval_congr {env env' : Assignment} (h : ∀ x, P x → env x = env' x) :
    ∀ f : Formula, f.Holds P S → f.eval env = f.eval env'
  | .literal _, _ => rfl
  | .compare _ a b, hf => by
    rw [Formula.eval, Formula.eval, Term.eval_congr h a hf.1, Term.eval_congr h b hf.2]
  | .not f, hf => by rw [Formula.eval, Formula.eval, Formula.eval_congr h f hf]
  | .and f g, hf | .or f g, hf | .iff f g, hf | .xor f g, hf => by
    rw [Formula.eval, Formula.eval, Formula.eval_congr h f hf.1, Formula.eval_congr h g hf.2]

end

end

section

variable {P : String → Prop}

namespace Linear

variable {t : Term}

def Fine (P : String → Prop) (ps : List (Word × Term)) : Prop := ∀ p ∈ ps, p.2.Fine P

theorem fine_insert {c : Word} {ps : List (Word × Term)} (ht : t.Fine P)
    (hps : Fine P ps) : Fine P (insert c t ps) := by
  induction ps with
  | nil =>
    intro p hp
    rw [insert, List.mem_singleton] at hp
    exact hp ▸ ht
  | cons q ps ih =>
    have hq := hps q (by simp)
    have hrest : Fine P ps := fun p hp => hps p (by simp [hp])
    intro p hp
    rw [insert] at hp
    split at hp <;> rcases List.mem_cons.1 hp with rfl | hp
    · exact hq
    · exact hrest p hp
    · exact hq
    · exact ih hrest p hp

theorem fine_add {l m : Linear} (hl : Fine P l.summands) (hm : Fine P m.summands) :
    Fine P (l.add m).summands := by
  rw [add]
  generalize l.summands = acc at hl
  generalize m.summands = ps at hm
  induction ps generalizing acc with
  | nil => exact hl
  | cons p ps ih =>
    exact ih _ (fine_insert (hm p (by simp)) hl) fun q hq => hm q (by simp [hq])

theorem fine_ofTerm (h : t.Fine P) : Fine P (ofTerm t).summands := by
  fun_induction ofTerm t with
  | case1 w => intro p hp; simp at hp
  | case2 a b iha ihb => exact fine_add (iha h.1) (ihb h.2)
  | case3 c t =>
    intro p hp
    rw [List.mem_singleton] at hp
    exact hp ▸ h.2
  | case4 t =>
    intro p hp
    rw [List.mem_singleton] at hp
    exact hp ▸ h

theorem fine_scale {c : Word} {l : Linear} (h : Fine P l.summands) :
    Fine P (l.scale c).summands := by
  intro p hp
  obtain ⟨q, hq, rfl⟩ := List.mem_map.1 hp
  exact h q hq

theorem fine_foldl {ts : List Term} (ht : t.Fine P) (hts : ∀ u ∈ ts, u.Fine P) :
    (ts.foldl (fun acc t => .binary .add acc t) t).Fine P := by
  induction ts generalizing t with
  | nil => exact ht
  | cons u us ih => exact ih ⟨ht, hts u (by simp)⟩ fun v hv => hts v (by simp [hv])

def total : List Term → Term
  | [] => .const 0
  | first :: rest => rest.foldl (fun acc t => .binary .add acc t) first

theorem fine_total {ts : List Term} (h : ∀ u ∈ ts, u.Fine P) : (total ts).Fine P := by
  cases ts with
  | nil => trivial
  | cons t ts => exact fine_foldl (h t (by simp)) fun u hu => h u (by simp [hu])

theorem fine_toTerm {l : Linear} (h : Fine P l.summands) : l.toTerm.Fine P := by
  have hparts : ∀ u ∈ (l.summands.filter (·.1 ≠ 0)).map summand, u.Fine P := by
    intro u hu
    obtain ⟨q, hq, rfl⟩ := List.mem_map.1 hu
    have hfine := h q (List.mem_of_mem_filter hq)
    unfold summand
    split
    · exact hfine
    · exact ⟨trivial, hfine⟩
  unfold toTerm
  refine fine_total ?_
  split
  · exact hparts
  · intro u hu
    rcases List.mem_cons.1 hu with rfl | hu
    · trivial
    · exact hparts u hu

end Linear

namespace Term

variable {a b m : Term} {w : Word}

theorem fine_ite {c : Prop} [Decidable c] (ha : a.Fine P) (hb : b.Fine P) :
    (if c then a else b).Fine P := by
  split
  · exact ha
  · exact hb

theorem fine_mkSlices {shift : Int} {mask fill : Word} (h : fill &&& mask = 0) (ha : a.Fine P) :
    (mkSlices shift mask fill a).Fine P := by
  unfold mkSlices
  split
  · trivial
  · exact fine_ite ha ⟨h, ha⟩

section

variable (ha : a.Fine P)
include ha

theorem fine_mkScale : (mkScale w a).Fine P :=
  Linear.fine_toTerm (Linear.fine_scale (Linear.fine_ofTerm ha))

theorem fine_coefficient : ∀ x, (coefficient a).2 = some x → x.Fine P := by
  intro x hx
  unfold coefficient at hx
  split at hx
  · simp at hx
  · simp only [Option.some.injEq] at hx
    exact hx ▸ ha.2
  · simp only [Option.some.injEq] at hx
    exact hx ▸ ha

theorem fine_mkNot : (mkNot a).Fine P := by
  unfold mkNot
  split
  · trivial
  · exact ha
  · exact ha

theorem fine_maskBy : (maskBy w a).Fine P := by
  unfold maskBy
  split
  · trivial
  · refine fine_mkSlices ?_ ha.2
    exact Word.mask_mask ha.1
  · exact fine_mkSlices (by simp) ha

theorem fine_fillBy : (fillBy w a).Fine P := by
  unfold fillBy
  split
  · trivial
  · refine fine_mkSlices ?_ ha.2
    exact Word.fill_mask ha.1
  · exact fine_mkSlices (by simp) ha

theorem fine_moveBy {n : Int} : (moveBy n a).Fine P := by
  unfold moveBy
  split
  · trivial
  · refine fine_mkSlices ?_ ha.2
    rw [← Word.move_and, ha.1]
    exact Word.move_zero_word n
  · exact fine_mkSlices (by simp) ha

variable (hb : b.Fine P)
include hb

theorem fine_mkAdd : (mkAdd a b).Fine P :=
  Linear.fine_toTerm (Linear.fine_add (Linear.fine_ofTerm ha) (Linear.fine_ofTerm hb))

theorem fine_mkMul : (mkMul a b).Fine P := by
  have hca := fine_coefficient ha
  have hcb := fine_coefficient hb
  unfold mkMul
  split
  · exact fine_mkScale hb
  · exact fine_mkScale ha
  · split <;> simp_all only [Option.some.injEq, forall_eq']
    · exact fine_mkScale ⟨hca, hcb⟩
    · exact fine_mkScale hca
    · exact fine_mkScale hcb
    · trivial

theorem fine_mkOr : (mkOr a b).Fine P := by
  unfold mkOr
  split
  · exact fine_fillBy hb
  · exact fine_fillBy ha
  · exact fine_ite ha ⟨ha, hb⟩

theorem fine_mkAnd : (mkAnd a b).Fine P := by
  unfold mkAnd
  split
  · exact fine_maskBy hb
  · exact fine_maskBy ha
  · exact fine_ite ha (fine_mkNot (fine_mkOr (fine_mkNot ha) (fine_mkNot hb)))

theorem fine_mkXor : (mkXor a b).Fine P := by
  unfold mkXor
  split
  · trivial
  · exact fine_ite hb (fine_ite (fine_mkNot hb) ⟨ha, hb⟩)
  · exact fine_ite ha (fine_ite (fine_mkNot ha) ⟨hb, ha⟩)
  · exact fine_ite trivial ⟨ha, hb⟩

theorem fine_mkUdiv : (mkUdiv a b).Fine P := by
  unfold mkUdiv
  split
  · trivial
  · refine fine_ite trivial ?_
    split
    · exact fine_moveBy ha
    · exact ⟨ha, hb⟩
  · exact ⟨ha, hb⟩

theorem fine_mkUrem : (mkUrem a b).Fine P := by
  unfold mkUrem
  split
  · trivial
  · refine fine_ite ha ?_
    split
    · exact fine_maskBy ha
    · exact ⟨ha, hb⟩
  · exact ⟨ha, hb⟩

theorem fine_mkSdiv : (mkSdiv a b).Fine P := by
  unfold mkSdiv
  split
  · trivial
  · exact fine_ite ha ⟨ha, hb⟩
  · exact ⟨ha, hb⟩

theorem fine_mkSmod : (mkSmod a b).Fine P := by
  unfold mkSmod
  split
  · trivial
  · exact fine_ite trivial (fine_ite ha ⟨ha, hb⟩)
  · exact ⟨ha, hb⟩

theorem fine_mkShl : (mkShl a b).Fine P := by
  unfold mkShl
  split
  · trivial
  · exact fine_ite (fine_moveBy ha) trivial
  · exact ⟨ha, hb⟩

theorem fine_mkLshr : (mkLshr a b).Fine P := by
  unfold mkLshr
  split
  · trivial
  · exact fine_ite (fine_moveBy ha) trivial
  · exact ⟨ha, hb⟩

theorem fine_mkAshr : (mkAshr a b).Fine P := by
  unfold mkAshr
  split
  · trivial
  · exact fine_ite ha ⟨ha, hb⟩
  · exact ⟨ha, hb⟩

end

theorem fine_mkBinary (op : Binary) (ha : a.Fine P) (hb : b.Fine P) : (mkBinary op a b).Fine P := by
  cases op with
  | add => exact fine_mkAdd ha hb
  | sub => exact fine_mkAdd ha (fine_mkScale hb)
  | mul => exact fine_mkMul ha hb
  | udiv | udivTotal => exact fine_mkUdiv ha hb
  | sdiv | sdivTotal => exact fine_mkSdiv ha hb
  | urem | uremTotal => exact fine_mkUrem ha hb
  | smod | smodTotal => exact fine_mkSmod ha hb
  | and => exact fine_mkAnd ha hb
  | or => exact fine_mkOr ha hb
  | xor => exact fine_mkXor ha hb
  | shl => exact fine_mkShl ha hb
  | ashr => exact fine_mkAshr ha hb
  | lshr => exact fine_mkLshr ha hb

theorem fine_mkChoose {c : Formula} (hc : c.Fine P) (ha : a.Fine P) (hb : b.Fine P) :
    (mkChoose c a b).Fine P := by
  unfold mkChoose
  split
  · exact ha
  · exact hb
  · exact fine_ite ha ⟨hc, hb, ha⟩
  · exact fine_ite ha ⟨hc, ha, hb⟩

theorem fine_mkAddMod (ha : a.Fine P) (hb : b.Fine P) (hm : m.Fine P) :
    (mkAddMod a b m).Fine P := by
  unfold mkAddMod
  split
  · trivial
  · exact ⟨ha, hb, hm⟩

theorem fine_mkMulMod (ha : a.Fine P) (hb : b.Fine P) (hm : m.Fine P) :
    (mkMulMod a b m).Fine P := by
  unfold mkMulMod
  split
  · trivial
  · exact ⟨ha, hb, hm⟩

end Term

namespace Formula

variable {f g : Formula} {a b : Term} {w : Word}

theorem fine_ite {c : Prop} [Decidable c] (hf : f.Fine P) (hg : g.Fine P) :
    (if c then f else g).Fine P := by
  split
  · exact hf
  · exact hg

theorem fine_mkNot (hf : f.Fine P) : (mkNot f).Fine P := by
  unfold mkNot
  split
  · trivial
  · exact hf
  · exact hf

theorem fine_mkAnd (hf : f.Fine P) (hg : g.Fine P) : (mkAnd f g).Fine P := by
  unfold mkAnd
  split
  · exact hg
  · exact hf
  · trivial
  · trivial
  · exact fine_ite hf ⟨hf, hg⟩

theorem fine_mkOr (hf : f.Fine P) (hg : g.Fine P) : (mkOr f g).Fine P := by
  unfold mkOr
  split
  · exact hg
  · exact hf
  · trivial
  · trivial
  · exact fine_ite hf ⟨hf, hg⟩

theorem fine_mkIff (hf : f.Fine P) (hg : g.Fine P) : (mkIff f g).Fine P := by
  unfold mkIff
  split
  · exact hg
  · exact hf
  · exact fine_mkNot hg
  · exact fine_mkNot hf
  · exact fine_ite trivial ⟨hf, hg⟩

theorem fine_mkEqConst (ha : a.Fine P) : (mkEqConst a w).Fine P := by
  unfold mkEqConst
  split
  · trivial
  · exact fine_ite (fine_ite trivial ha.1) (fine_ite (fine_mkNot ha.1) trivial)
  · exact fine_ite ⟨ha, trivial⟩ trivial
  · dsimp only
    exact fine_ite ⟨ha, trivial⟩ ⟨Linear.fine_toTerm (Linear.fine_ofTerm ha), trivial⟩

theorem fine_mkEq (ha : a.Fine P) (hb : b.Fine P) : (mkEq a b).Fine P := by
  unfold mkEq
  split
  · exact fine_mkEqConst hb
  · exact fine_mkEqConst ha
  · exact fine_ite trivial ⟨ha, hb⟩

theorem fine_mkUle (ha : a.Fine P) (hb : b.Fine P) : (mkUle a b).Fine P := by
  unfold mkUle
  split
  · trivial
  · exact fine_ite (fine_mkEqConst ha) (fine_ite trivial ⟨ha, hb⟩)
  · exact fine_ite trivial (fine_ite (fine_mkEqConst hb) ⟨ha, hb⟩)
  · exact fine_ite trivial ⟨ha, hb⟩

theorem fine_mkSle (ha : a.Fine P) (hb : b.Fine P) : (mkSle a b).Fine P := by
  unfold mkSle
  split
  · trivial
  · exact fine_ite (fine_mkEqConst ha) (fine_ite trivial ⟨ha, hb⟩)
  · exact fine_ite trivial (fine_ite (fine_mkEqConst hb) ⟨ha, hb⟩)
  · exact fine_ite trivial ⟨ha, hb⟩

theorem fine_mkCompare (op : Comparison) (ha : a.Fine P) (hb : b.Fine P) :
    (mkCompare op a b).Fine P := by
  cases op with
  | eq => exact fine_mkEq ha hb
  | ne => exact fine_mkNot (fine_mkEq ha hb)
  | ult => exact fine_mkNot (fine_mkUle hb ha)
  | ule => exact fine_mkUle ha hb
  | ugt => exact fine_mkNot (fine_mkUle ha hb)
  | uge => exact fine_mkUle hb ha
  | slt => exact fine_mkNot (fine_mkSle hb ha)
  | sle => exact fine_mkSle ha hb
  | sgt => exact fine_mkNot (fine_mkSle ha hb)
  | sge => exact fine_mkSle hb ha

end Formula

mutual

theorem Term.fine_normal : ∀ t : Term, t.Over P → t.normal.Fine P
  | .var _, h => h
  | .const _, _ => trivial
  | .neg a, h => Term.fine_mkScale (a.fine_normal h)
  | .not a, h => Term.fine_mkNot (a.fine_normal h)
  | .binary op a b, h => Term.fine_mkBinary op (a.fine_normal h.1) (b.fine_normal h.2)
  | .choose c a b, h =>
    Term.fine_mkChoose (c.fine_normal h.1) (a.fine_normal h.2.1) (b.fine_normal h.2.2)
  | .addMod a b m, h =>
    Term.fine_mkAddMod (a.fine_normal h.1) (b.fine_normal h.2.1) (m.fine_normal h.2.2)
  | .mulMod a b m, h =>
    Term.fine_mkMulMod (a.fine_normal h.1) (b.fine_normal h.2.1) (m.fine_normal h.2.2)
  | .slices _ _ _ a, h =>
    Term.fine_fillBy (Term.fine_maskBy (Term.fine_moveBy (a.fine_normal h.2)))

theorem Formula.fine_normal : ∀ f : Formula, f.Over P → f.normal.Fine P
  | .literal _, _ => trivial
  | .compare op a b, h => Formula.fine_mkCompare op (a.fine_normal h.1) (b.fine_normal h.2)
  | .not f, h => Formula.fine_mkNot (f.fine_normal h)
  | .and f g, h => Formula.fine_mkAnd (f.fine_normal h.1) (g.fine_normal h.2)
  | .or f g, h => Formula.fine_mkOr (f.fine_normal h.1) (g.fine_normal h.2)
  | .iff f g, h => Formula.fine_mkIff (f.fine_normal h.1) (g.fine_normal h.2)
  | .xor f g, h =>
    Formula.fine_mkNot (Formula.fine_mkIff (f.fine_normal h.1) (g.fine_normal h.2))

end

mutual

theorem Term.over_true : ∀ t : Term, t.Over fun _ => True
  | .var _ | .const _ => trivial
  | .neg a | .not a => a.over_true
  | .binary _ a b => ⟨a.over_true, b.over_true⟩
  | .choose c a b => ⟨c.over_true, a.over_true, b.over_true⟩
  | .addMod a b m | .mulMod a b m => ⟨a.over_true, b.over_true, m.over_true⟩
  | .slices _ _ _ a => ⟨trivial, a.over_true⟩

theorem Formula.over_true : ∀ f : Formula, f.Over fun _ => True
  | .literal _ => trivial
  | .compare _ a b => ⟨a.over_true, b.over_true⟩
  | .not f => f.over_true
  | .and f g | .or f g | .iff f g | .xor f g => ⟨f.over_true, g.over_true⟩

end

end

end EvmAudit
