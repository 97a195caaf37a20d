import EvmAudit.Double.Basic
import EvmAudit.Fault

/-! Structured documents: scalars, arrays, and objects whose members keep their order. -/

namespace EvmAudit

inductive Document where
  | null
  | bool (b : Bool)
  | int (n : Int)
  | double (x : Double)
  | text (s : String)
  | array (items : List Document)
  | object (members : List (String × Document))
  deriving Inhabited

namespace Document

def put (name : String) (d : Document) : List (String × Document) → List (String × Document)
  | [] => [(name, d)]
  | (n, d') :: rest => if n = name then (n, d) :: rest else (n, d') :: put name d rest

def lookup (name : String) : List (String × Document) → Option Document
  | [] => none
  | (n, d) :: rest => if n = name then some d else lookup name rest

def get? (d : Document) (name : String) : Option Document :=
  match d with
  | .object members => lookup name members
  | _ => none

/-- The member of that name. A missing member and a document that is no object are different
causes. -/
def get (d : Document) (name : String) : Except Fault Document :=
  match d with
  | .object members =>
    match lookup name members with
    | some v => .ok v
    | none => .error .missingKey
  | _ => .error .unsupportedOperand

def path (d : Document) : List String → Except Fault Document
  | [] => .ok d
  | name :: rest => do (← d.get name).path rest

/-- Numbers other than zero, and texts and collections with something in them. -/
def isTruthy : Document → Bool
  | .null => false
  | .bool b => b
  | .int n => n != 0
  | .double x => !x.isZero
  | .text s => !s.isEmpty
  | .array items => !items.isEmpty
  | .object members => !members.isEmpty

def text? : Document → Option String
  | .text s => some s
  | _ => none

def int? : Document → Option Int
  | .int n => some n
  | .bool b => some (if b then 1 else 0)
  | _ => none

def items : Document → List Document
  | .array items => items
  | _ => []

def members : Document → List (String × Document)
  | .object members => members
  | _ => []

def member (d : Document) (name : String) : Document := (d.get? name).getD .null

def item (d : Document) (i : Nat) : Document := d.items[i]?.getD .null

def integer (d : Document) : Int := d.int?.getD 0

def string (d : Document) : String := d.text?.getD ""

def ofInts (xs : List Int) : Document := .array (xs.map .int)

def ofTexts (xs : List String) : Document := .array (xs.map .text)

def rat? : Document → Option Rat
  | .int n => some n
  | .bool b => some (if b then 1 else 0)
  | .double (.finite s m e) => some (Double.toRat (.finite s m e))
  | _ => none

def sameScalar (a b : Document) : Bool :=
  match a, b with
  | .null, .null => true
  | .text s, .text t => s == t
  | .double (.infinite s), .double (.infinite t) => s == t
  | a, b =>
    match a.rat?, b.rat? with
    | some p, some q => p == q
    | _, _ => false

mutual

/-- Equality by value: numbers by their size, objects without regard to the order of members. -/
def same : Document → Document → Bool
  | .array xs, .array ys => sameItems xs ys
  | .object ms, .object ns => decide (ms.length = ns.length) && sameMembers ms ns
  | .array _, _ | .object _, _ | _, .array _ | _, .object _ => false
  | a, b => sameScalar a b

def sameItems : List Document → List Document → Bool
  | [], [] => true
  | x :: xs, y :: ys => same x y && sameItems xs ys
  | _, _ => false

def sameMembers : List (String × Document) → List (String × Document) → Bool
  | [], _ => true
  | (name, d) :: rest, ns =>
    (match lookup name ns with
      | some e => same d e
      | none => false) && sameMembers rest ns

end

end Document

end EvmAudit
