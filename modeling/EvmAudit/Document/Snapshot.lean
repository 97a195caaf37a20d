import EvmAudit.Document.Basic

/-! Copies of records. A copy is taken of a record, of the records in it and of the lists in it;
what stands inside a list is shared with the record, so a later change of the record shows there. -/

namespace EvmAudit.Document

def mark : String := "X"

mutual

def changed : Document → Document
  | .array items => .array (changedItems items ++ [.text mark])
  | .object members => .object (put mark (.text mark) (changedMembers members))
  | d => d

def changedItems : List Document → List Document
  | [] => []
  | d :: rest => changed d :: changedItems rest

def changedMembers : List (String × Document) → List (String × Document)
  | [] => []
  | (name, d) :: rest => (name, changed d) :: changedMembers rest

end

mutual

/-- The copy of a record, as it reads after the record has been changed everywhere. -/
def copyAfterChange : Document → Document
  | .array items => .array (changedItems items)
  | .object members => .object (copyMembers members)
  | d => d

def copyMembers : List (String × Document) → List (String × Document)
  | [] => []
  | (name, d) :: rest => (name, copyAfterChange d) :: copyMembers rest

end

def snapshot : Document → Except Fault Document
  | .object members => .ok (.object (copyMembers members))
  | .array [] | .text "" => .ok (.object [])
  | _ => .error .unsupportedOperand

end EvmAudit.Document
