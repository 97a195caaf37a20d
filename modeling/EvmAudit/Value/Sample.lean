import EvmAudit.Document.Writer
import EvmAudit.Table
import EvmAudit.Value

/-! Values shown in documents. A symbolic value is shown by what it is under four sample
assignments, so that its form does not matter. -/

namespace EvmAudit.Sample

def spread (name : String) : Nat :=
  let bytes := (String.ofList (name.toList.filter fun c => !Text.isBlank c)).toUTF8.toList
  let h := bytes.foldl (fun (h : Nat) b => (h * 0x100000001b3 + b.toNat + 1) % Nat.pow 2 256)
    0xcbf29ce484222325
  let mix (h : Nat) : Nat := h * (2 * h + 1) % Nat.pow 2 256
  let h := mix (mix (mix h))
  h ^^^ (h >>> 128)

def assignment (k : Nat) : Assignment := fun name =>
  let h := spread name
  match k with
  | 0 => BitVec.ofNat 256 h
  | 1 => BitVec.ofNat 256 (h % 1021)
  | 2 => 0
  | _ => BitVec.ofNat 256 ((h >>> 64) % 4)

def overAll (f : Assignment → Document) : Document :=
  .array ((List.range 4).map fun k => f (assignment k))

def value : Value → Document
  | .int n => .text (toString n)
  | .bool b => .bool b
  | .absent => .null
  | .double x =>
    let digits := Numeral.hexDigits x.toBits
    .object [("f", .text ("".pushn '0' (16 - digits.length) ++ digits))]
  | .text s => .object [("s", .text (Text.collapseBlanks s))]
  | .word t =>
    .object [("e", overAll fun env => .text ("0x" ++ Numeral.hexDigits (t.eval env).toNat))]
  | .prop f => .object [("b", overAll fun env => .bool (f.eval env))]
  | .ratio _ => .object [("e", .array (List.replicate 4 (.bool false)))]
  | .record => .object [("type", .text "dict")]
  | .conditions _ => .object [("type", .text "list")]

def condition (c : Condition) : Document := value (.ofCondition c)

def table {κ : Type} (key : κ → Document) (t : Table κ Value) : Document :=
  let rows := t.entries.map fun (k, v) => (key k, value v)
  let rows := rows.mergeSort (fun a b => decide (a.1.line ≤ b.1.line))
  .array (rows.map fun (k, v) => .array [k, v])

end EvmAudit.Sample
