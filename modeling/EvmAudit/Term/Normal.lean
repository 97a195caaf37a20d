import EvmAudit.Term.Basic

/-! The normal form of terms and formulas. Sums collect equal summands and put the constant first,
a mask by a constant becomes slices, and an order is written with "at most" alone. Each rule keeps
the value under every assignment. -/

namespace EvmAudit

/-- A constant and the summands with their coefficients, in order of appearance. -/
structure Linear where
  constant : Word
  summands : List (Word × Term)

namespace Linear

def insert (c : Word) (t : Term) : List (Word × Term) → List (Word × Term)
  | [] => [(c, t)]
  | (d, u) :: rest => if u = t then (d + c, u) :: rest else (d, u) :: insert c t rest

def add (l m : Linear) : Linear :=
  ⟨l.constant + m.constant, m.summands.foldl (fun acc p => insert p.1 p.2 acc) l.summands⟩

def scale (c : Word) (l : Linear) : Linear :=
  ⟨c * l.constant, l.summands.map fun p => (c * p.1, p.2)⟩

def ofTerm : Term → Linear
  | .const w => ⟨w, []⟩
  | .binary .add a b => add (ofTerm a) (ofTerm b)
  | .binary .mul (.const c) t => ⟨0, [(c, t)]⟩
  | t => ⟨0, [(1, t)]⟩

def summand (p : Word × Term) : Term :=
  if p.1 = 1 then p.2 else .binary .mul (.const p.1) p.2

def toTerm (l : Linear) : Term :=
  let parts := (l.summands.filter (·.1 ≠ 0)).map summand
  match if l.constant = 0 then parts else .const l.constant :: parts with
  | [] => .const 0
  | first :: rest => rest.foldl (fun acc t => .binary .add acc t) first

end Linear

namespace Term

def mkAdd (a b : Term) : Term :=
  ((Linear.ofTerm a).add (Linear.ofTerm b)).toTerm

def mkScale (c : Word) (a : Term) : Term :=
  ((Linear.ofTerm a).scale c).toTerm

def coefficient : Term → Word × Option Term
  | .const w => (w, none)
  | .binary .mul (.const c) t => (c, some t)
  | t => (1, some t)

def mkMul (a b : Term) : Term :=
  match a, b with
  | .const c, t | t, .const c => mkScale c t
  | a, b =>
    match coefficient a, coefficient b with
    | (c, some x), (d, some y) => mkScale (c * d) (.binary .mul x y)
    | (c, some x), (d, none) | (d, none), (c, some x) => mkScale (c * d) x
    | (c, none), (d, none) => .const (c * d)

/-- A mask that keeps everything leaves the term alone, and one that keeps nothing leaves the
filling. -/
def mkSlices (shift : Int) (mask fill : Word) (a : Term) : Term :=
  if mask = 0 then .const fill
  else if shift = 0 ∧ mask = Word.ones ∧ fill = 0 then a
  else .slices shift mask fill a

def mkNot : Term → Term
  | .const w => .const (~~~w)
  | .not a => a
  | a => .not a

def maskBy (w : Word) : Term → Term
  | .const v => .const (w &&& v)
  | .slices shift mask fill a => mkSlices shift (mask &&& w) (fill &&& w) a
  | a => mkSlices 0 w 0 a

def fillBy (w : Word) : Term → Term
  | .const v => .const (w ||| v)
  | .slices shift mask fill a => mkSlices shift (mask &&& ~~~w) (fill ||| w) a
  | a => mkSlices 0 (~~~w) w a

def moveBy (n : Int) : Term → Term
  | .const v => .const (Word.move n v)
  | .slices shift mask fill a => mkSlices (shift + n) (Word.move n mask) (Word.move n fill) a
  | a => mkSlices n (Word.move n Word.ones) 0 a

def mkOr (a b : Term) : Term :=
  match a, b with
  | .const c, t | t, .const c => fillBy c t
  | a, b => if a = b then a else .binary .or a b

def mkAnd (a b : Term) : Term :=
  match a, b with
  | .const c, t | t, .const c => maskBy c t
  | a, b => if a = b then a else mkNot (mkOr (mkNot a) (mkNot b))

def mkXor (a b : Term) : Term :=
  match a, b with
  | .const c, .const d => .const (c ^^^ d)
  | .const c, t | t, .const c =>
    if c = 0 then t else if c = Word.ones then mkNot t else .binary .xor (.const c) t
  | a, b => if a = b then .const 0 else .binary .xor a b

def powerOfTwo? (w : Word) : Option Nat :=
  let n := w.toNat
  if n ≠ 0 ∧ Nat.pow 2 n.log2 = n then some n.log2 else none

def mkUdiv (a b : Term) : Term :=
  match a, b with
  | .const c, .const d => .const (Binary.udiv.apply c d)
  | a, .const d =>
    if d = 0 then .const Word.ones
    else match powerOfTwo? d with
      | some n => moveBy (-(n : Int)) a
      | none => .binary .udivTotal a b
  | a, b => .binary .udivTotal a b

def mkUrem (a b : Term) : Term :=
  match a, b with
  | .const c, .const d => .const (Binary.urem.apply c d)
  | a, .const d =>
    if d = 0 then a
    else match powerOfTwo? d with
      | some _ => maskBy (d - 1) a
      | none => .binary .uremTotal a b
  | a, b => .binary .uremTotal a b

def mkSdiv (a b : Term) : Term :=
  match a, b with
  | .const c, .const d => .const (Binary.sdiv.apply c d)
  | a, .const d => if d = 1 then a else .binary .sdivTotal a b
  | a, b => .binary .sdivTotal a b

def mkSmod (a b : Term) : Term :=
  match a, b with
  | .const c, .const d => .const (Binary.smod.apply c d)
  | a, .const d => if d = 1 then .const 0 else if d = 0 then a else .binary .smodTotal a b
  | a, b => .binary .smodTotal a b

def mkShl (a b : Term) : Term :=
  match a, b with
  | .const c, .const d => .const (Word.shiftLeft c d)
  | a, .const d => if d.toNat < 256 then moveBy d.toNat a else .const 0
  | a, b => .binary .shl a b

def mkLshr (a b : Term) : Term :=
  match a, b with
  | .const c, .const d => .const (Word.shiftRight c d)
  | a, .const d => if d.toNat < 256 then moveBy (-(d.toNat : Int)) a else .const 0
  | a, b => .binary .lshr a b

def mkAshr (a b : Term) : Term :=
  match a, b with
  | .const c, .const d => .const (Word.shiftRightSigned c d)
  | a, .const d => if d = 0 then a else .binary .ashr a b
  | a, b => .binary .ashr a b

def mkBinary : Binary → Term → Term → Term
  | .add, a, b => mkAdd a b
  | .sub, a, b => mkAdd a (mkScale (-1) b)
  | .mul, a, b => mkMul a b
  | .udiv, a, b | .udivTotal, a, b => mkUdiv a b
  | .sdiv, a, b | .sdivTotal, a, b => mkSdiv a b
  | .urem, a, b | .uremTotal, a, b => mkUrem a b
  | .smod, a, b | .smodTotal, a, b => mkSmod a b
  | .and, a, b => mkAnd a b
  | .or, a, b => mkOr a b
  | .xor, a, b => mkXor a b
  | .shl, a, b => mkShl a b
  | .ashr, a, b => mkAshr a b
  | .lshr, a, b => mkLshr a b

def mkChoose (c : Formula) (a b : Term) : Term :=
  match c with
  | .literal true => a
  | .literal false => b
  | .not c => if a = b then a else .choose c b a
  | c => if a = b then a else .choose c a b

def mkAddMod (a b m : Term) : Term :=
  match a, b, m with
  | .const a, .const b, .const m => .const (Word.addMod a b m)
  | a, b, m => .addMod a b m

def mkMulMod (a b m : Term) : Term :=
  match a, b, m with
  | .const a, .const b, .const m => .const (Word.mulMod a b m)
  | a, b, m => .mulMod a b m

end Term

namespace Formula

def mkNot : Formula → Formula
  | .literal b => .literal !b
  | .not f => f
  | f => .not f

def mkAnd (f g : Formula) : Formula :=
  match f, g with
  | .literal true, h | h, .literal true => h
  | .literal false, _ | _, .literal false => .literal false
  | f, g => if f = g then f else .and f g

def mkOr (f g : Formula) : Formula :=
  match f, g with
  | .literal false, h | h, .literal false => h
  | .literal true, _ | _, .literal true => .literal true
  | f, g => if f = g then f else .or f g

def mkIff (f g : Formula) : Formula :=
  match f, g with
  | .literal true, h | h, .literal true => h
  | .literal false, h | h, .literal false => mkNot h
  | f, g => if f = g then .literal true else .iff f g

def mkEqConst (a : Term) (w : Word) : Formula :=
  match a with
  | .const v => .literal (v == w)
  | .choose c (.const v) (.const u) =>
    if v = w then (if u = w then .literal true else c)
    else if u = w then mkNot c else .literal false
  | .slices shift mask fill t =>
    if w &&& ~~~mask = fill then .compare .eq (.slices shift mask fill t) (.const w)
    else .literal false
  | a =>
    let l := Linear.ofTerm a
    if l.constant = 0 then .compare .eq a (.const w)
    else .compare .eq (Linear.toTerm ⟨0, l.summands⟩) (.const (w - l.constant))

def mkEq (a b : Term) : Formula :=
  match a, b with
  | .const c, t | t, .const c => mkEqConst t c
  | a, b => if a = b then .literal true else .compare .eq a b

def mkUle (a b : Term) : Formula :=
  match a, b with
  | .const c, .const d => .literal (c.ule d)
  | a, .const d =>
    if d = 0 then mkEqConst a 0
    else if d = Word.ones then .literal true
    else .compare .ule a (.const d)
  | .const c, b =>
    if c = 0 then .literal true
    else if c = Word.ones then mkEqConst b c
    else .compare .ule (.const c) b
  | a, b => if a = b then .literal true else .compare .ule a b

def mkSle (a b : Term) : Formula :=
  match a, b with
  | .const c, .const d => .literal (c.sle d)
  | a, .const d =>
    if d = BitVec.intMin 256 then mkEqConst a d
    else if d = BitVec.intMax 256 then .literal true
    else .compare .sle a (.const d)
  | .const c, b =>
    if c = BitVec.intMin 256 then .literal true
    else if c = BitVec.intMax 256 then mkEqConst b c
    else .compare .sle (.const c) b
  | a, b => if a = b then .literal true else .compare .sle a b

def mkCompare : Comparison → Term → Term → Formula
  | .eq, a, b => mkEq a b
  | .ne, a, b => mkNot (mkEq a b)
  | .ult, a, b => mkNot (mkUle b a)
  | .ule, a, b => mkUle a b
  | .ugt, a, b => mkNot (mkUle a b)
  | .uge, a, b => mkUle b a
  | .slt, a, b => mkNot (mkSle b a)
  | .sle, a, b => mkSle a b
  | .sgt, a, b => mkNot (mkSle a b)
  | .sge, a, b => mkSle b a

end Formula

mutual

def Term.normal : Term → Term
  | .var name => .var name
  | .const w => .const w
  | .neg a => Term.mkScale (-1) a.normal
  | .not a => Term.mkNot a.normal
  | .binary op a b => Term.mkBinary op a.normal b.normal
  | .choose c a b => Term.mkChoose c.normal a.normal b.normal
  | .addMod a b m => Term.mkAddMod a.normal b.normal m.normal
  | .mulMod a b m => Term.mkMulMod a.normal b.normal m.normal
  | .slices shift mask fill a =>
    Term.fillBy fill (Term.maskBy mask (Term.moveBy shift a.normal))

def Formula.normal : Formula → Formula
  | .literal b => .literal b
  | .compare op a b => Formula.mkCompare op a.normal b.normal
  | .not f => Formula.mkNot f.normal
  | .and f g => Formula.mkAnd f.normal g.normal
  | .or f g => Formula.mkOr f.normal g.normal
  | .iff f g => Formula.mkIff f.normal g.normal
  | .xor f g => Formula.mkNot (Formula.mkIff f.normal g.normal)

end

/-- How terms and formulas are simplified. -/
structure Simplifier where
  term : Term → Term := Term.normal
  formula : Formula → Formula := Formula.normal
  deriving Inhabited

end EvmAudit
