import EvmAudit.Document.Basic
import EvmAudit.Table
import EvmAudit.Text.Numeral
import EvmAudit.Value

/-! Values written as documents: numbers and numerals stand for integers, and a list for an
operation with its arguments. -/

namespace EvmAudit.Value

def binaryNamed? (name : String) : Option (Value → Value → Except Fault Value) :=
  [("add", add), ("sub", sub), ("mul", mul), ("sdiv", div), ("smod", mod), ("udiv", onWords .udiv),
    ("urem", onWords .urem), ("lshr", onWords .lshr), ("shl", shiftLeft), ("ashr", shiftRight),
    ("and", bitAnd), ("or", bitOr), ("xor", bitXor)].lookup name

def relationNamed? (name : String) : Option (Value → Value → Except Fault Condition) :=
  let unsigned (op : Comparison) (a b : Value) : Except Fault Condition := do
    return .symbolic (← Value.unsigned op a b)
  [("eq", eq), ("ne", ne), ("slt", lt), ("sle", le), ("sgt", gt), ("sge", ge),
    ("ult", unsigned .ult), ("ule", unsigned .ule), ("ugt", unsigned .ugt),
    ("uge", unsigned .uge)].lookup name

def joined (op : Formula → Formula → Formula) (first : Value) (rest : List Value) :
    Except Fault Value := do
  let formula (v : Value) : Except Fault Formula := do return (← v.asCondition).formula
  return .prop (← rest.foldlM (fun f v => do return op f (← formula v)) (← formula first))

def operation (name : String) (args : List Value) : Except Fault Value := do
  match name, args with
  | "const", [a] => return .word (← a.asTerm)
  | "true", _ => return .prop (.literal true)
  | "false", _ => return .prop (.literal false)
  | "not", [a] => a.bitNot
  | "neg", [a] => a.negate
  | "if", [c, a, b] => choose (← c.asCondition) a b
  | "lnot", [a] => return .prop (← a.asCondition).not
  | "land", a :: rest => joined .and a rest
  | "lor", a :: rest => joined .or a rest
  | name, [a, b] =>
    match binaryNamed? name, relationNamed? name with
    | some f, _ => f a b
    | _, some f => return ofCondition (← f a b)
    | _, _ => throw .missingKey
  | _, _ => throw .missingKey

mutual

def read : Document → Except Fault Value
  | .int n => .ok (.int n)
  | .bool b => .ok (.bool b)
  | .null => .ok .absent
  | .double x => .ok (.double x)
  | .text s => (Numeral.readMarked s).elim (.error .badNumeral) (.ok ∘ .int)
  | .object members =>
    match Document.lookup "f" members, Document.lookup "s" members with
    | some (.text f), _ => .ok (.double (.ofBits ((Numeral.read 16 f).getD 0).toNat))
    | _, some (.text s) => .ok (.text s)
    | _, _ => .ok .record
  | .array [] => .error .missingItem
  | .array [.text "var", .text name] => .ok (.var name)
  | .array (.text name :: rest) => do operation name (← readAll rest)
  | .array _ => .error .missingKey

def readAll : List Document → Except Fault (List Value)
  | [] => .ok []
  | d :: rest => do
    let v ← read d
    return v :: (← readAll rest)

end

def readItems (d : Document) : Except Fault (List Value) := readAll d.items

def readConditions (d : Document) : Except Fault (List Condition) := do
  (← readItems d).mapM asCondition

end EvmAudit.Value
