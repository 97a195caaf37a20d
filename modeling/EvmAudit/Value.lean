import EvmAudit.Double.Decimal
import EvmAudit.Fault
import EvmAudit.Term.Normal
import EvmAudit.Term.Text

/-! The items of the stack, of memory and of storage: exact integers, doubles, symbolic words and
the few other things that reach them. Next to a symbolic word a number becomes the word with the
same residue; among numbers the arithmetic is exact or that of doubles. -/

namespace EvmAudit

/-- A truth value that is settled, or a formula. -/
inductive Condition where
  | settled (b : Bool)
  | symbolic (f : Formula)
  deriving DecidableEq, Inhabited

inductive Value where
  | int (n : Int)
  | bool (b : Bool)
  | double (x : Double)
  | text (s : String)
  | word (t : Term)
  | prop (f : Formula)
  /-- An exact fraction, the symbolic quotient of two doubles. -/
  | ratio (q : Rat)
  /-- A reply of an outside service that is no number. -/
  | record
  /-- The conditions of a path. They go by a name, as words do. -/
  | conditions (cs : List Condition)
  | absent
  deriving DecidableEq, Inhabited

namespace Condition

def formula : Condition → Formula
  | .settled b => .literal b
  | .symbolic f => f

def not (c : Condition) : Formula := .not c.formula

end Condition

namespace Printer

def condition (p : Printer) : Condition → String
  | .settled b => if b then "True" else "False"
  | .symbolic f => p.formula f

def conditions (p : Printer) (cs : List Condition) : String :=
  "[" ++ ", ".intercalate (cs.map p.condition) ++ "]"

end Printer

namespace Value

def var (name : String) : Value := .word (.var name)

def toInt? : Value → Option Int
  | .int n => some n
  | .bool b => some (if b then 1 else 0)
  | _ => none

def isConcrete (v : Value) : Bool := v.toInt?.isSome

def isSymbolic (v : Value) : Bool := !v.isConcrete

def isExpression : Value → Bool
  | .word _ | .prop _ | .ratio _ => true
  | _ => false

def ratioText (q : Rat) : String :=
  if q.den = 1 then toString q.num else toString q.num ++ "/" ++ toString q.den

end Value

def Printer.value (p : Printer) : Value → String
  | .int n => toString n
  | .bool b => if b then "True" else "False"
  | .double x => x.text
  | .text s => s
  | .word t => p.term t
  | .prop f => p.formula f
  | .ratio q => Value.ratioText q
  | .record => "\x7b\x7d"
  | .conditions cs => p.conditions cs
  | .absent => "None"

def Simplifier.value (s : Simplifier) : Value → Value
  | .word t => .word (s.term t)
  | .prop f => .prop (s.formula f)
  | v => v

namespace Value

def vars : Value → List String
  | .word t => t.vars
  | .prop f => f.vars
  | _ => []

/-- The names in some items, in the order of the items; a name comes once for each item. -/
def allVars (vs : List Value) : List String := vs.flatMap vars

def mentions (v : Value) (name : String) : Bool := v.vars.contains name

def mentionsAny (v : Value) (words : List Value) : Bool :=
  v.vars.any fun name => words.contains (var name)

def rename (old new : String) : Value → Value
  | .word t => .word (t.subst (replaceName old new))
  | .prop f => .prop (f.subst (replaceName old new))
  | v => v

def ofCondition : Condition → Value
  | .settled b => .bool b
  | .symbolic f => .prop f

def asCondition : Value → Except Fault Condition
  | .bool b => .ok (.settled b)
  | .prop f => .ok (.symbolic f)
  | _ => .error .illSorted

def decimal? (s : String) : Option Int :=
  let digits (cs : List Char) : Option Nat :=
    if cs.isEmpty || !cs.all Char.isDigit then none
    else some (cs.foldl (fun n c => 10 * n + (c.toNat - 48)) 0)
  match s.toList with
  | '-' :: cs => (digits cs).map fun n => -(n : Int)
  | cs => (digits cs).map fun n => (n : Int)

def truncate : Double → Except Fault Int
  | .infinite _ => .error .outOfRange
  | .nan => .error .badNumeral
  | x => .ok (x.trunc?.getD 0)

def asTerm : Value → Except Fault Term
  | .word t => .ok t
  | .int n => .ok (.const (BitVec.ofInt 256 n))
  | .bool b => .ok (.const (if b then 1 else 0))
  | .double x => do return .const (BitVec.ofInt 256 (← truncate x))
  | .text s =>
    match decimal? s with
    | some n => .ok (.const (BitVec.ofInt 256 n))
    | none => .error .illSorted
  | _ => .error .illSorted

def lift (v : Value) : Value :=
  match v.toInt? with
  | some n => .word (.const (BitVec.ofInt 256 n))
  | none => v

def asDouble : Value → Except Fault Double
  | .double x => .ok x
  | v =>
    match v.toInt? with
    | none => .error .unsupportedOperand
    | some n =>
      match Double.ofInt? n with
      | some x => .ok x
      | none => .error .outOfRange

def asRatio : Value → Except Fault Rat
  | .ratio q => .ok q
  | .double x => .ok x.toRat
  | v =>
    match v.toInt? with
    | some n => .ok n
    | none => .error .unsupportedOperand

structure Arithmetic where
  onWords : Binary
  onInts : Int → Int → Except Fault Value
  onDoubles : Double → Double → Except Fault Double
  onRatios : Rat → Rat → Except Fault Rat

def Arithmetic.apply (op : Arithmetic) (a b : Value) : Except Fault Value :=
  match a, b with
  | .word x, v => do return .word (.binary op.onWords x (← v.asTerm))
  | v, .word y => do return .word (.binary op.onWords (← v.asTerm) y)
  | .ratio x, v => do return .ratio (← op.onRatios x (← v.asRatio))
  | v, .ratio y => do return .ratio (← op.onRatios (← v.asRatio) y)
  | a, b =>
    match a.toInt?, b.toInt? with
    | some m, some n => op.onInts m n
    | _, _ => do return .double (← op.onDoubles (← a.asDouble) (← b.asDouble))

def add : Value → Value → Except Fault Value :=
  Arithmetic.apply ⟨.add, fun m n => .ok (.int (m + n)), fun x y => .ok (x.add y),
    fun p q => .ok (p + q)⟩

def sub : Value → Value → Except Fault Value :=
  Arithmetic.apply ⟨.sub, fun m n => .ok (.int (m - n)), fun x y => .ok (x.sub y),
    fun p q => .ok (p - q)⟩

def scaleFormula (f : Formula) (t : Term) : Value :=
  if t = .const 1 then .prop f
  else if t = .const 0 then .int 0
  else .word (.choose f t (.const 0))

def mul (a b : Value) : Except Fault Value :=
  match a, b with
  | .prop f, .word t | .word t, .prop f => .ok (scaleFormula f t)
  | a, b =>
    Arithmetic.apply ⟨.mul, fun m n => .ok (.int (m * n)), fun x y => .ok (x.mul y),
      fun p q => .ok (p * q)⟩ a b

/-- The quotient of two integers is a double; of words, the signed quotient. -/
def div : Value → Value → Except Fault Value :=
  Arithmetic.apply
    ⟨.sdiv,
      fun m n =>
        if n = 0 then .error .divisionByZero
        else match Double.ofQuotient? m n with
          | some x => .ok (.double x)
          | none => .error .outOfRange,
      fun x y => if y.isZero then .error .divisionByZero else .ok (x.div y),
      fun p q => .ok (p / q)⟩

def mod : Value → Value → Except Fault Value :=
  Arithmetic.apply
    ⟨.smod,
      fun m n => if n = 0 then .error .divisionByZero else .ok (.int (m.fmod n)),
      fun x y => if y.isZero then .error .divisionByZero else .ok (x.mod y),
      fun _ _ => .error .illSorted⟩

def intAnd (m n : Int) : Int :=
  match m, n with
  | .ofNat a, .ofNat b => (a &&& b : Nat)
  | .ofNat a, .negSucc b => (a - (a &&& b) : Nat)
  | .negSucc a, .ofNat b => (b - (a &&& b) : Nat)
  | .negSucc a, .negSucc b => .negSucc (a ||| b)

def intNot (m : Int) : Int := -m - 1

def intOr (m n : Int) : Int := intNot (intAnd (intNot m) (intNot n))

def intXor (m n : Int) : Int := intAnd (intOr m n) (intNot (intAnd m n))

def bitwise (op : Binary) (onInts : Int → Int → Int) (a b : Value) : Except Fault Value :=
  match a, b with
  | .word x, v => do return .word (.binary op x (← v.asTerm))
  | v, .word y => do return .word (.binary op (← v.asTerm) y)
  | .bool x, .bool y =>
    .ok (.bool (onInts (if x then 1 else 0) (if y then 1 else 0) != 0))
  | a, b =>
    match a.toInt?, b.toInt? with
    | some m, some n => .ok (.int (onInts m n))
    | _, _ => .error .unsupportedOperand

def bitAnd : Value → Value → Except Fault Value := bitwise .and intAnd
def bitOr : Value → Value → Except Fault Value := bitwise .or intOr
def bitXor : Value → Value → Except Fault Value := bitwise .xor intXor

def bitNot : Value → Except Fault Value
  | .word t => .ok (.word (.not t))
  | v =>
    match v.toInt? with
    | some n => .ok (.int (intNot n))
    | none => .error .unsupportedOperand

def negate : Value → Except Fault Value
  | .word t => .ok (.word (.neg t))
  | .double x => .ok (.double x.neg)
  | .ratio q => .ok (.ratio (-q))
  | v =>
    match v.toInt? with
    | some n => .ok (.int (-n))
    | none => .error .unsupportedOperand

def shift (op : Binary) (onInts : Int → Nat → Int) (a b : Value) : Except Fault Value :=
  match a, b with
  | .word x, v => do return .word (.binary op x (← v.asTerm))
  | v, .word y => do return .word (.binary op (← v.asTerm) y)
  | a, b =>
    match a.toInt?, b.toInt? with
    | some m, some n => if n < 0 then .error .badNumeral else .ok (.int (onInts m n.toNat))
    | _, _ => .error .unsupportedOperand

def shiftLeft : Value → Value → Except Fault Value := shift .shl fun m n => m * Int.pow 2 n
def shiftRight : Value → Value → Except Fault Value := shift .ashr fun m n => m.fdiv (Int.pow 2 n)

def flip : Comparison → Comparison
  | .ult => .ugt
  | .ule => .uge
  | .ugt => .ult
  | .uge => .ule
  | .slt => .sgt
  | .sle => .sge
  | .sgt => .slt
  | .sge => .sle
  | op => op

def isConstant : Term → Bool
  | .const _ => true
  | _ => false

def relate (op : Comparison) (x y : Term) : Condition :=
  if isConstant y && !isConstant x then .symbolic (.compare (flip op) y x)
  else .symbolic (.compare op x y)

def holdsFor (op : Comparison) (o : Ordering) : Bool :=
  match op with
  | .eq => o == .eq
  | .ne => o != .eq
  | .slt | .ult => o == .lt
  | .sle | .ule => o != .gt
  | .sgt | .ugt => o == .gt
  | .sge | .uge => o != .lt

def orderNumbers? (a b : Value) : Option (Option Ordering) :=
  match a.toInt?, b.toInt? with
  | some m, some n => some (some (compare m n))
  | _, _ =>
    match a, b with
    | .double x, .double y => some (x.compare? y)
    | .double x, b =>
      b.toInt?.map fun n => match x with
        | .nan => none
        | .infinite s => some (if s then .lt else .gt)
        | x => some (if x.toRat < n then .lt else if x.toRat = n then .eq else .gt)
    | a, .double y =>
      a.toInt?.map fun n => match y with
        | .nan => none
        | .infinite s => some (if s then .gt else .lt)
        | y => some (if (n : Rat) < y.toRat then .lt else if (n : Rat) = y.toRat then .eq else .gt)
    | _, _ => none

def order (op : Comparison) (a b : Value) : Except Fault Condition :=
  match a, b with
  | .word x, .word y => .ok (relate op x y)
  | .word x, v => do return .symbolic (.compare op x (← v.asTerm))
  | v, .word y => do return .symbolic (.compare (flip op) y (← v.asTerm))
  | .text s, .text t => .ok (.settled (holdsFor op (compare s t)))
  | .ratio p, v => do
    let q ← v.asRatio
    return .symbolic (.literal (holdsFor op (if p < q then .lt else if p = q then .eq else .gt)))
  | v, .ratio q => do
    let p ← v.asRatio
    return .symbolic (.literal (holdsFor op (if p < q then .lt else if p = q then .eq else .gt)))
  | a, b =>
    match orderNumbers? a b with
    | some (some o) => .ok (.settled (holdsFor op o))
    | some none => .ok (.settled false)
    | none => .error .unsupportedOperand

def lt : Value → Value → Except Fault Condition := order .slt
def le : Value → Value → Except Fault Condition := order .sle
def gt : Value → Value → Except Fault Condition := order .sgt
def ge : Value → Value → Except Fault Condition := order .sge

def settledEq (a b : Value) : Bool :=
  match a, b with
  | .text s, .text t => s == t
  | .absent, .absent => true
  | .record, .record => true
  | .conditions cs, .conditions ds => cs == ds
  | a, b =>
    match orderNumbers? a b with
    | some (some o) => o == .eq
    | _ => false

def eq (a b : Value) : Except Fault Condition :=
  match a, b with
  | .absent, v | v, .absent => .ok (.settled (v == .absent))
  | .word x, .word y => .ok (relate .eq x y)
  | .word x, v | v, .word x => do return .symbolic (.compare .eq x (← v.asTerm))
  | .prop f, .prop g => .ok (.symbolic (.iff f g))
  | .prop f, .bool b | .bool b, .prop f => .ok (.symbolic (.iff f (.literal b)))
  | .prop _, _ | _, .prop _ => .error .illSorted
  | .ratio p, v | v, .ratio p => do
    match v.asRatio with
    | .ok q => return .symbolic (.literal (p == q))
    | .error _ => .error .illSorted
  | a, b => .ok (.settled (settledEq a b))

def ne (a b : Value) : Except Fault Condition :=
  match a, b with
  | .absent, v | v, .absent => .ok (.settled (v != .absent))
  | .word x, .word y => .ok (relate .ne x y)
  | .word x, v | v, .word x => do return .symbolic (.compare .ne x (← v.asTerm))
  | .prop f, .prop g => .ok (.symbolic (.xor f g))
  | .prop f, .bool b | .bool b, .prop f => .ok (.symbolic (.xor f (.literal b)))
  | a, b => do
    match ← eq a b with
    | .settled b => return .settled !b
    | .symbolic f => return .symbolic (.not f)

/-- Two operands of an operation that exists on words alone: one of them is a word. -/
def wordPair (a b : Value) : Except Fault (Term × Term) :=
  match a, b with
  | .word x, v => do return (x, ← v.asTerm)
  | v, .word y => do return (← v.asTerm, y)
  | _, _ => .error .illSorted

def unsigned (op : Comparison) (a b : Value) : Except Fault Formula := do
  let (x, y) ← wordPair a b
  return .compare op x y

def onWords (op : Binary) (a b : Value) : Except Fault Value := do
  let (x, y) ← wordPair a b
  return .word (.binary op x y)

/-- The choice between two items. Two words choose a word; two other numbers choose a fraction. -/
def choose (c : Condition) (a b : Value) : Except Fault Value :=
  match a, b with
  | .word x, v => do return .word (.choose c.formula x (← v.asTerm))
  | v, .word y => do return .word (.choose c.formula (← v.asTerm) y)
  | a, b => do
    let p ← a.asRatio
    let q ← b.asRatio
    match c with
    | .settled true => return .ratio p
    | .settled false => return .ratio q
    | .symbolic _ => .error .illSorted

end Value

end EvmAudit
