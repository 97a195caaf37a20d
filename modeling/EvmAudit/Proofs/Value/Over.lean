import EvmAudit.Machine.Comparison
import EvmAudit.Machine.Memory
import EvmAudit.Proofs.Term.Over

/-! Items over a class of variables. Operations on items bring in no other variables, and no formula
becomes an item. -/

namespace EvmAudit

open Condition

def Gives {α : Type} (Q : α → Prop) (x : Except Fault α) : Prop := ∀ a, x = .ok a → Q a

section Gives

variable {α β : Type} {Q : α → Prop} {R : β → Prop}

@[grind ←] theorem gives_ok {a : α} (h : Q a) : Gives Q (.ok a) := by
  rintro _ ⟨⟩
  exact h

@[grind ←] theorem gives_pure {a : α} (h : Q a) : Gives Q (pure a) := gives_ok h

@[grind ←] theorem gives_error (e : Fault) : Gives Q (.error e) := by
  rintro _ ⟨⟩

theorem gives_trivial (x : Except Fault α) : Gives (fun _ => True) x := fun _ _ => trivial

theorem Gives.bind {x : Except Fault α} {f : α → Except Fault β} (hx : Gives Q x)
    (hf : ∀ a, Q a → Gives R (f a)) : Gives R (x >>= f) := by
  intro b hb
  cases x with
  | error e => cases hb
  | ok a => exact hf a (hx a rfl) b hb

theorem gives_bind {x : Except Fault α} {f : α → Except Fault β} (hf : ∀ a, Gives R (f a)) :
    Gives R (x >>= f) :=
  (gives_trivial x).bind fun a _ => hf a

end Gives

variable {P : String → Prop}

/-- The words among items have variables in `P` only; formulas are not items. -/
def Value.Over (P : String → Prop) : Value → Prop
  | .word t => t.Over P
  | .prop _ => False
  | _ => True

def Condition.Over (P : String → Prop) (c : Condition) : Prop := c.formula.Over P

theorem Formula.over_literal (b : Bool) : (Formula.literal b).Over P := trivial

theorem Condition.over_settled (b : Bool) : (Condition.settled b).Over P := Formula.over_literal b

namespace Value

variable {a b v : Value}

theorem over_var {name : String} (h : P name) : (Value.var name).Over P := h

theorem over_int (n : Int) : (Value.int n).Over P := trivial

theorem over_simplify {s : Simplifier} (hs : s.Sound) (h : v.Over P) : (s.value v).Over P := by
  cases v with
  | word t => exact hs.vars h
  | prop f => exact h.elim
  | _ => exact trivial

theorem over_lift (h : v.Over P) : v.lift.Over P := by
  unfold lift
  split
  · exact trivial
  · exact h

theorem gives_asTerm (h : v.Over P) : Gives (Term.Over P) v.asTerm := by
  cases v with
  | word t => exact gives_ok h
  | int n => exact gives_ok trivial
  | bool x => exact gives_ok trivial
  | double x => exact gives_bind fun _ => gives_ok trivial
  | text s =>
    unfold asTerm
    dsimp only
    split
    · exact gives_ok trivial
    · exact gives_error _
  | _ => exact gives_error _

theorem gives_apply (op : Arithmetic) (ha : a.Over P) (hb : b.Over P)
    (hints : ∀ m n, Gives (Value.Over P) (op.onInts m n)) :
    Gives (Value.Over P) (op.apply a b) := by
  have hratio (x : Except Fault Rat) : Gives (Value.Over P) (do return .ratio (← x)) :=
    gives_bind fun _ => gives_pure trivial
  unfold Arithmetic.apply
  split
  · exact (gives_asTerm hb).bind fun _ ht => gives_pure ⟨ha, ht⟩
  · exact (gives_asTerm ha).bind fun _ ht => gives_pure ⟨ht, hb⟩
  · exact gives_bind fun _ => hratio _
  · exact gives_bind fun _ => hratio _
  · split
    · exact hints _ _
    · exact gives_bind fun _ => gives_bind fun _ =>
        gives_bind fun _ => gives_pure trivial

theorem gives_add (ha : a.Over P) (hb : b.Over P) : Gives (Value.Over P) (a.add b) :=
  gives_apply _ ha hb fun _ _ => gives_ok trivial

theorem gives_sub (ha : a.Over P) (hb : b.Over P) : Gives (Value.Over P) (a.sub b) :=
  gives_apply _ ha hb fun _ _ => gives_ok trivial

theorem gives_mul (ha : a.Over P) (hb : b.Over P) : Gives (Value.Over P) (a.mul b) := by
  unfold mul
  split
  · exact ha.elim
  · exact hb.elim
  · exact gives_apply _ ha hb fun _ _ => gives_ok trivial

theorem gives_div (ha : a.Over P) (hb : b.Over P) : Gives (Value.Over P) (a.div b) := by
  refine gives_apply _ ha hb fun m n => ?_
  dsimp only
  split
  · exact gives_error _
  · split
    · exact gives_ok trivial
    · exact gives_error _

theorem gives_mod (ha : a.Over P) (hb : b.Over P) : Gives (Value.Over P) (a.mod b) := by
  refine gives_apply _ ha hb fun m n => ?_
  dsimp only
  split
  · exact gives_error _
  · exact gives_ok trivial

theorem gives_bitwise (op : Binary) (onInts : Int → Int → Int) (ha : a.Over P) (hb : b.Over P) :
    Gives (Value.Over P) (bitwise op onInts a b) := by
  unfold bitwise
  split
  · exact (gives_asTerm hb).bind fun _ ht => gives_pure ⟨ha, ht⟩
  · exact (gives_asTerm ha).bind fun _ ht => gives_pure ⟨ht, hb⟩
  · exact gives_ok trivial
  · split
    · exact gives_ok trivial
    · exact gives_error _

theorem gives_bitNot (h : v.Over P) : Gives (Value.Over P) v.bitNot := by
  unfold bitNot
  split
  · exact gives_ok h
  · split
    · exact gives_ok trivial
    · exact gives_error _

theorem gives_negate (h : v.Over P) : Gives (Value.Over P) v.negate := by
  unfold negate
  split
  · exact gives_ok h
  · exact gives_ok trivial
  · exact gives_ok trivial
  · split
    · exact gives_ok trivial
    · exact gives_error _

theorem gives_shift (op : Binary) (onInts : Int → Nat → Int) (ha : a.Over P) (hb : b.Over P) :
    Gives (Value.Over P) (shift op onInts a b) := by
  unfold shift
  split
  · exact (gives_asTerm hb).bind fun _ ht => gives_pure ⟨ha, ht⟩
  · exact (gives_asTerm ha).bind fun _ ht => gives_pure ⟨ht, hb⟩
  · split
    · split
      · exact gives_error _
      · exact gives_ok trivial
    · exact gives_error _

/-! ### Comparisons -/

theorem over_relate (op : Comparison) {x y : Term} (hx : x.Over P) (hy : y.Over P) :
    (relate op x y).Over P := by
  unfold relate
  split
  · exact ⟨hy, hx⟩
  · exact ⟨hx, hy⟩

theorem gives_order (op : Comparison) (ha : a.Over P) (hb : b.Over P) :
    Gives (Condition.Over P) (order op a b) := by
  unfold order
  split
  · exact gives_ok (over_relate op ha hb)
  · exact (gives_asTerm hb).bind fun _ ht => gives_pure ⟨ha, ht⟩
  · exact (gives_asTerm ha).bind fun _ ht => gives_pure ⟨hb, ht⟩
  · exact gives_ok (over_settled _)
  · exact gives_bind fun _ => gives_pure (Formula.over_literal _)
  · exact gives_bind fun _ => gives_pure (Formula.over_literal _)
  · split
    · exact gives_ok (over_settled _)
    · exact gives_ok (over_settled _)
    · exact gives_error _

def ratioEq (p : Rat) (v : Value) : Except Fault Condition :=
  match v.asRatio with
  | .ok q => return .symbolic (.literal (p == q))
  | .error _ => .error .illSorted

theorem gives_ratioEq (p : Rat) (v : Value) : Gives (Condition.Over P) (ratioEq p v) := by
  unfold ratioEq
  split
  · exact gives_pure (Formula.over_literal _)
  · exact gives_error _

theorem gives_eq (ha : a.Over P) (hb : b.Over P) : Gives (Condition.Over P) (a.eq b) := by
  unfold eq
  split
  · exact gives_ok (over_settled _)
  · exact gives_ok (over_settled _)
  · exact gives_ok (over_relate .eq ha hb)
  · exact (gives_asTerm hb).bind fun _ ht => gives_pure ⟨ha, ht⟩
  · exact (gives_asTerm ha).bind fun _ ht => gives_pure ⟨hb, ht⟩
  · exact ha.elim
  · exact ha.elim
  · exact hb.elim
  · exact ha.elim
  · exact hb.elim
  · exact gives_ratioEq _ _
  · exact gives_ratioEq _ _
  · exact gives_ok (over_settled _)

theorem gives_ne (ha : a.Over P) (hb : b.Over P) : Gives (Condition.Over P) (a.ne b) := by
  unfold ne
  split
  · exact gives_ok (over_settled _)
  · exact gives_ok (over_settled _)
  · exact gives_ok (over_relate .ne ha hb)
  · exact (gives_asTerm hb).bind fun _ ht => gives_pure ⟨ha, ht⟩
  · exact (gives_asTerm ha).bind fun _ ht => gives_pure ⟨hb, ht⟩
  · exact ha.elim
  · exact ha.elim
  · exact hb.elim
  · refine (gives_eq ha hb).bind fun c hc => ?_
    cases c with
    | settled b => exact gives_pure (over_settled _)
    | symbolic f => exact gives_pure hc

theorem gives_wordPair (ha : a.Over P) (hb : b.Over P) :
    Gives (fun p => p.1.Over P ∧ p.2.Over P) (wordPair a b) := by
  unfold wordPair
  split
  · exact (gives_asTerm hb).bind fun _ ht => gives_pure ⟨ha, ht⟩
  · exact (gives_asTerm ha).bind fun _ ht => gives_pure ⟨ht, hb⟩
  · exact gives_error _

theorem gives_unsigned (op : Comparison) (ha : a.Over P) (hb : b.Over P) :
    Gives (Formula.Over P) (unsigned op a b) :=
  (gives_wordPair ha hb).bind fun _ hp => gives_pure hp

theorem gives_onWords (op : Binary) (ha : a.Over P) (hb : b.Over P) :
    Gives (Value.Over P) (onWords op a b) :=
  (gives_wordPair ha hb).bind fun _ hp => gives_pure hp

theorem gives_choose {c : Condition} (hc : c.Over P) (ha : a.Over P) (hb : b.Over P) :
    Gives (Value.Over P) (choose c a b) := by
  unfold choose
  split
  · exact (gives_asTerm hb).bind fun _ ht => gives_pure ⟨hc, ha, ht⟩
  · exact (gives_asTerm ha).bind fun _ ht => gives_pure ⟨hc, ht, hb⟩
  · refine gives_bind fun _ => gives_bind fun _ => ?_
    split
    · exact gives_pure trivial
    · exact gives_pure trivial
    · exact gives_error _

theorem exists_eq_int (h : v.Over P) (n : Int) : ∃ c, v.eq (.int n) = .ok c := by
  cases v with
  | prop f => exact h.elim
  | _ => exact ⟨_, rfl⟩

theorem exists_ne_int (h : v.Over P) (n : Int) : ∃ c, v.ne (.int n) = .ok c := by
  cases v with
  | prop f => exact h.elim
  | _ => exact ⟨_, rfl⟩

end Value

end EvmAudit
