import EvmAudit.Document.Writer
import EvmAudit.Text.Quoted

/-! Documents as they stand in printed collections: texts in single quotes, and words for the
constants. -/

namespace EvmAudit.Document

mutual

def printed : Document → String
  | .null => "None"
  | .bool b => if b then "True" else "False"
  | .text s => Text.quoted s
  | .array items => "[" ++ ", ".intercalate (printedItems items) ++ "]"
  | .object members => "\x7b" ++ ", ".intercalate (printedMembers members) ++ "\x7d"
  | .int n => toString n
  | .double x => (Document.double x).line

def printedItems : List Document → List String
  | [] => []
  | d :: rest => printed d :: printedItems rest

def printedMembers : List (String × Document) → List String
  | [] => []
  | (name, d) :: rest => (Text.quoted name ++ ": " ++ printed d) :: printedMembers rest

end

def printedTuple (ds : List Document) : String := "(" ++ ", ".intercalate (printedItems ds) ++ ")"

end EvmAudit.Document
