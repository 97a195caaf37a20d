import EvmAudit.Text.Blank

/-! Rows of fields with commas between. A field with a comma, a quote or a line break stands in
quotes, and its own quotes are doubled. -/

namespace EvmAudit.Csv

def needsQuotes (field : List Char) : Bool :=
  field.any fun c => c = ',' || c = '"' || c = '\n' || c = '\r'

def doubled : List Char → List Char
  | [] => []
  | c :: cs => if c = '"' then '"' :: '"' :: doubled cs else c :: doubled cs

def field (s : String) : String :=
  if needsQuotes s.toList then "\"" ++ String.ofList (doubled s.toList) ++ "\"" else s

def row (fields : List String) : String :=
  match fields with
  | [""] => "\"\"\r\n"
  | fields => ",".intercalate (fields.map field) ++ "\r\n"

end EvmAudit.Csv
