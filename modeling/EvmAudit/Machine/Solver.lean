import EvmAudit.Sat.Decide
import EvmAudit.Value

/-! The solver of a run: assertions in nested scopes, and whether the last question left a model. -/

namespace EvmAudit

structure Solver where
  /-- Assertions outside every scope, the last one first. -/
  base : List Formula := []
  /-- Assertions of the open scopes, the innermost scope first. -/
  scopes : List (List Formula) := []
  /-- The last question found a model, and the assertions are still the same. -/
  hasModel : Bool := false
  deriving Inhabited

namespace Solver

def push (s : Solver) : Solver := { s with scopes := [] :: s.scopes, hasModel := false }

def add (s : Solver) (f : Formula) : Solver :=
  match s.scopes with
  | [] => { s with base := f :: s.base, hasModel := false }
  | scope :: rest => { s with scopes := (f :: scope) :: rest, hasModel := false }

def pop? (s : Solver) : Option Solver :=
  match s.scopes with
  | [] => none
  | _ :: rest => some { s with scopes := rest, hasModel := false }

def depth (s : Solver) : Nat := s.scopes.length

def assertions (s : Solver) : List Formula :=
  s.base.reverse ++ (s.scopes.reverse.flatMap List.reverse)

def modelIsOpen (simplify : Simplifier) (s : Solver) : Bool :=
  s.hasModel && !(s.assertions.foldl (fun seen f => (simplify.formula f).varsFrom seen) []).isEmpty

@[simp] theorem pop?_push (s : Solver) : s.push.pop? = some { s with hasModel := false } := rfl

theorem assertions_push (s : Solver) : s.push.assertions = s.assertions := by
  simp [assertions, push]

theorem assertions_add (s : Solver) (f : Formula) :
    (s.add f).assertions = s.assertions ++ [f] := by
  unfold add
  split <;> rename_i h <;> simp [assertions, h]

end Solver

end EvmAudit
