import EvmAudit.Fault

/-! Positions in a list that may be counted from either end. -/

namespace EvmAudit

def itemAt {α : Type} (xs : List α) (i : Int) : Except Fault α :=
  let j := if i < 0 then i + xs.length else i
  match (if j < 0 then none else xs[j.toNat]?) with
  | some x => .ok x
  | none => .error .missingItem

theorem itemAt_natCast {α : Type} (xs : List α) (i : Nat) :
    itemAt xs i = (xs[i]?).elim (.error .missingItem) .ok := by
  have h : ¬ ((i : Int) < 0) := by omega
  simp only [itemAt, h, if_false, Int.toNat_natCast]
  cases xs[i]? <;> rfl

end EvmAudit
