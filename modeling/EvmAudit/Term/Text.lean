import EvmAudit.Term.Basic

/-! The written form of terms and formulas. Operators of one kind are written side by side, looser
operators inside tighter ones are bracketed, and what lies more than twenty levels deep is left
out. -/

namespace EvmAudit

/-- How an operator is written: between its operands, or in front of a bracketed list. -/
inductive Spelling where
  | between (sign : String) (spaced : Bool) (level : Nat)
  | front (name : String)

def Binary.spelling : Binary → Spelling
  | .add => .between "+" true 3
  | .sub => .between "-" true 3
  | .mul => .between "*" false 2
  | .sdiv => .between "/" false 2
  | .smod => .between "%" false 2
  | .and => .between "&" true 5
  | .or => .between "|" true 7
  | .xor => .between "^" true 6
  | .shl => .between "<<" true 4
  | .ashr => .between ">>" true 4
  | .udiv => .front "UDiv"
  | .urem => .front "URem"
  | .lshr => .front "LShR"
  | .udivTotal => .front "bvudiv_i"
  | .sdivTotal => .front "bvsdiv_i"
  | .uremTotal => .front "bvurem_i"
  | .smodTotal => .front "bvsmod_i"

def Comparison.spelling : Comparison → Spelling
  | .eq => .between "==" true 8
  | .ne => .between "!=" true 100
  | .slt => .between "<" true 8
  | .sle => .between "<=" true 8
  | .sgt => .between ">" true 8
  | .sge => .between ">=" true 8
  | .ult => .front "ULT"
  | .ule => .front "ULE"
  | .ugt => .front "UGT"
  | .uge => .front "UGE"

def Binary.associates : Binary → Bool
  | .add | .mul | .and | .or | .xor => true
  | _ => false

def Term.level? : Term → Option Nat
  | .neg _ | .not _ => some 1
  | .binary op _ _ =>
    match op.spelling with
    | .between _ _ level => some level
    | .front _ => none
  | _ => none

def bracket (s : String) : String := "(" ++ s ++ ")"

structure Around where
  op : Binary
  level : Nat
  first : Bool

/-- Brackets an operand that is not tighter than the operator around it. A sum next to a difference
needs none. -/
def Around.wrap (around : Option Around) (t : Term) (s : String) : String :=
  match around, t.level? with
  | some o, some inner =>
    let free := match o.op, t with
      | .add, .binary .sub _ _ => true
      | .sub, .binary .add _ _ => o.first
      | _, _ => false
    if o.level > inner || free then s else bracket s
  | _, _ => s

def Around.joins (around : Option Around) (op : Binary) : Bool :=
  match around with
  | some o => o.op = op && (op.associates || (o.first && op = .sub))
  | none => false

def commaList (items : List String) : String := ", ".intercalate items

def Word.field (w : Word) (lo n : Nat) : Nat := (w.toNat >>> lo) % Nat.pow 2 n

/-- The maximal runs of places with equal membership in `mask`, from the top down, as pairs of the
membership, the lowest place and the length. -/
def Word.runs (mask : Word) : List (Bool × Nat × Nat) :=
  (List.range 256).foldl (fun acc i =>
    let kept := mask.getLsbD i
    match acc with
    | (k, lo, n) :: rest => if k = kept then (k, lo, n + 1) :: rest else (kept, i, 1) :: acc
    | [] => [(kept, i, 1)]) []

/-- A run of kept places is cut out of the moved term; the other runs are numbers. -/
def slicesText (shift : Int) (mask fill : Word) (inner : String) : String :=
  let parts := (Word.runs mask).map fun (kept, lo, n) =>
    if kept then
      let low := (lo : Int) - shift
      let high := low + n - 1
      if low = 0 ∧ high = 255 ∧ fill = 0 then inner
      else "Extract(" ++ commaList [toString high, toString low, inner] ++ ")"
    else toString (Word.field fill lo n)
  match parts with
  | [only] => only
  | parts => "Concat(" ++ commaList parts ++ ")"

def signOperand (sign : Term → Bool) (t : Term) (s : String) : String :=
  if sign t then s
  else match t.level? with
    | some _ => bracket s
    | none => s

def Term.isNeg : Term → Bool
  | .neg _ => true
  | _ => false

def Term.isNot : Term → Bool
  | .not _ => true
  | _ => false

mutual

/-- The pieces that a term at `d` levels to go contributes to the run of operators around it; a
single piece unless it joins the run. -/
def Term.pieces (d : Nat) (around : Option Around) : Term → List String
  | .var name => [if d = 0 then "..." else name]
  | .const w => [if d = 0 then "..." else toString w.toNat]
  | .neg a =>
    let s := if d = 0 then "..." else
      "-" ++ signOperand Term.isNeg a ("".intercalate (a.pieces (d - 1) none))
    [Around.wrap around (.neg a) s]
  | .not a =>
    let s := if d = 0 then "..." else
      "~" ++ signOperand Term.isNot a ("".intercalate (a.pieces (d - 1) none))
    [Around.wrap around (.not a) s]
  | .binary op a b =>
    match op.spelling with
    | .between sign spaced level =>
      if Around.joins around op then
        a.pieces d (some ⟨op, level, true⟩) ++ b.pieces d (some ⟨op, level, false⟩)
      else
        let s := if d = 0 then "..." else
          (if spaced then " " ++ sign ++ " " else sign).intercalate
            (a.pieces (d - 1) (some ⟨op, level, true⟩) ++
              b.pieces (d - 1) (some ⟨op, level, false⟩))
        [Around.wrap around (.binary op a b) s]
    | .front name =>
      [if d = 0 then "..." else
        name ++ bracket (commaList (a.pieces (d - 1) none ++ b.pieces (d - 1) none))]
  | .choose c a b =>
    [if d = 0 then "..." else
      "If" ++ bracket (commaList (c.textAt (d - 1) :: a.pieces (d - 1) none ++
        b.pieces (d - 1) none))]
  | .addMod a b m =>
    [if d = 0 then "..." else
      "AddMod" ++ bracket (commaList (a.pieces (d - 1) none ++ b.pieces (d - 1) none ++
        m.pieces (d - 1) none))]
  | .mulMod a b m =>
    [if d = 0 then "..." else
      "MulMod" ++ bracket (commaList (a.pieces (d - 1) none ++ b.pieces (d - 1) none ++
        m.pieces (d - 1) none))]
  | .slices shift mask fill a =>
    [if d = 0 then "..." else
      slicesText shift mask fill ("".intercalate (a.pieces (d - 2) none))]

def Formula.textAt (d : Nat) : Formula → String
  | .literal b => if d = 0 then "..." else if b then "True" else "False"
  | .compare op a b =>
    if d = 0 then "..."
    else match op.spelling with
      | .between sign _ level =>
        let operand (t : Term) (s : String) : String :=
          match t.level? with
          | some inner => if level > inner then s else bracket s
          | none => s
        operand a ("".intercalate (a.pieces (d - 1) none)) ++ " " ++ sign ++ " " ++
          operand b ("".intercalate (b.pieces (d - 1) none))
      | .front name =>
        name ++ bracket (commaList (a.pieces (d - 1) none ++ b.pieces (d - 1) none))
  | .not f => if d = 0 then "..." else "Not" ++ bracket (f.textAt (d - 1))
  | .and f g =>
    if d = 0 then "..." else "And" ++ bracket (commaList [f.textAt (d - 1), g.textAt (d - 1)])
  | .or f g =>
    if d = 0 then "..." else "Or" ++ bracket (commaList [f.textAt (d - 1), g.textAt (d - 1)])
  | .iff f g => if d = 0 then "..." else f.textAt (d - 1) ++ " == " ++ g.textAt (d - 1)
  | .xor f g => if d = 0 then "..." else f.textAt (d - 1) ++ " != " ++ g.textAt (d - 1)

end

def textDepth : Nat := 20

def Term.text (t : Term) : String := "".intercalate (t.pieces (textDepth + 1) none)

def Formula.text (f : Formula) : String := f.textAt (textDepth + 1)

/-- How terms and formulas are written. -/
structure Printer where
  term : Term → String := Term.text
  formula : Formula → String := Formula.text
  deriving Inhabited

end EvmAudit
