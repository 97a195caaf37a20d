import EvmAudit.Machine.Basic

/-! Answers that depend on questions to the solver. A question is put in a scope of its own, which
is closed when the answer is there. A failure in between leaves it open. -/

namespace EvmAudit

inductive Inquiry (α : Type) where
  | answer (result : Except Fault α)
  /-- Goes on with the first part if the question cannot hold, and else with the second. -/
  | ask (question : Except Fault Formula) (refuted possible : Inquiry α)
  /-- Works on an answer when its questions are closed. -/
  | andThen (first : Inquiry α) (f : α → Except Fault α)

namespace Inquiry

def whether (question : Except Fault Formula) : Inquiry Bool :=
  .ask question (.answer (.ok false)) (.answer (.ok true))

end Inquiry

namespace Exec

def inquire {α : Type} (ctx : Context) : Inquiry α → Exec α
  | .answer result => ofExcept result
  | .ask question refuted possible => do
    pushScope
    assert (← ofExcept question)
    let v ← if ← isUnsat ctx then inquire ctx refuted else inquire ctx possible
    popScope
    return v
  | .andThen first f => do ofExcept (f (← inquire ctx first))

end Exec

end EvmAudit
