import EvmAudit.Renaming

/-! Two paths that move money: whether their transfers differ, and whether one path can follow the
other. -/

namespace EvmAudit

/-- The truth of a comparison outside of the solver. An equation between expressions holds if both
sides are the same expression; other formulas have no truth of their own. -/
def Condition.truth : Condition → Except Fault Bool
  | .settled b => .ok b
  | .symbolic (.literal b) => .ok b
  | .symbolic (.compare .eq a b) => .ok (a = b)
  | .symbolic (.iff f g) => .ok (f = g)
  | .symbolic _ => .error .illSorted

def sameTransfer : List Value → List Value → Except Fault Bool
  | [], [] => .ok true
  | a :: as, b :: bs => do
    if as.length ≠ bs.length then return false
    if ← (← a.eq b).truth then sameTransfer as bs
    else return false
  | _, _ => .ok false

def differFormula (a b : List Value) : Except Fault Formula := do
  let part (i : Nat) : Except Fault Formula := do
    return (← (← itemAt a i).eq (← itemAt b i)).not
  return .or (.or (← part 0) (← part 1)) (← part 2)

/-- Whether two lists of transfers can differ. Transfers that cannot be compared count as
different. -/
def flowsDiffer (decide : List Formula → Verdict) :
    List (List Value) → List (List Value) → Except Fault Bool
  | [], [] => .ok false
  | a :: as, b :: bs => do
    if as.length ≠ bs.length then return true
    if ← sameTransfer a b then flowsDiffer decide as bs
    else
      match differFormula a b with
      | .error _ => return true
      | .ok f => if (decide [f]).isSat then return true else flowsDiffer decide as bs
  | _, _ => .ok true

/-- Whether a path with the conditions `next` can follow one that left this storage and these
conditions: every storage word that `next` mentions has the value that was left in it. -/
def isFeasible (decide : List Formula → Verdict) (previous : List Value)
    (storage : Table Key Value) (next : List Value) : Except Fault Bool := do
  let equations ← storageEquations storage (next.flatMap Value.vars)
  let given ← next.mapM Value.asCondition
  let before ← previous.mapM Value.asCondition
  return !(decide ((given ++ equations ++ before).map Condition.formula)).isUnsat

def isFalseAlarm (decide : List Formula → Verdict) (first : List Value)
    (storage : Table Key Value) (second : List Value) : Except Fault Bool := do
  let (conditions, storage) ← renamePath first storage
  return !(← isFeasible decide conditions storage second)

end EvmAudit
