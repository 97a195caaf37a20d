import EvmAudit.Word

/-! Symbolic words and the propositions about them. The meaning of both is their value under an
assignment of words to variable names. -/

namespace EvmAudit

/-- The last four constructors are the spellings that the normal form gives to the four divisions;
their values are the same. -/
inductive Binary where
  | add | sub | mul | udiv | sdiv | urem | smod
  | and | or | xor | shl | ashr | lshr
  | udivTotal | sdivTotal | uremTotal | smodTotal
  deriving DecidableEq, Hashable, Repr

inductive Comparison where
  | eq | ne | ult | ule | ugt | uge | slt | sle | sgt | sge
  deriving DecidableEq, Hashable, Repr

mutual

/-- `slices shift mask fill a` moves `a` up by `shift` places (down when negative), keeps the bits
under `mask`, and sets the bits of `fill`. -/
inductive Term where
  | var (name : String)
  | const (value : Word)
  | neg (a : Term)
  | not (a : Term)
  | binary (op : Binary) (a b : Term)
  | choose (c : Formula) (a b : Term)
  | addMod (a b m : Term)
  | mulMod (a b m : Term)
  | slices (shift : Int) (mask fill : Word) (a : Term)

inductive Formula where
  | literal (b : Bool)
  | compare (op : Comparison) (a b : Term)
  | not (f : Formula)
  | and (f g : Formula)
  | or (f g : Formula)
  | iff (f g : Formula)
  | xor (f g : Formula)

end

deriving instance DecidableEq for Term, Formula
deriving instance Hashable for Term, Formula
deriving instance Inhabited for Term, Formula

abbrev Assignment := String → Word

def Binary.apply : Binary → Word → Word → Word
  | .add, a, b => a + b
  | .sub, a, b => a - b
  | .mul, a, b => a * b
  | .udiv, a, b | .udivTotal, a, b => a.smtUDiv b
  | .sdiv, a, b | .sdivTotal, a, b => a.smtSDiv b
  | .urem, a, b | .uremTotal, a, b => a.umod b
  | .smod, a, b | .smodTotal, a, b => a.smod b
  | .and, a, b => a &&& b
  | .or, a, b => a ||| b
  | .xor, a, b => a ^^^ b
  | .shl, a, b => Word.shiftLeft a b
  | .ashr, a, b => Word.shiftRightSigned a b
  | .lshr, a, b => Word.shiftRight a b

def Comparison.holds : Comparison → Word → Word → Bool
  | .eq, a, b => a == b
  | .ne, a, b => a != b
  | .ult, a, b => a.ult b
  | .ule, a, b => a.ule b
  | .ugt, a, b => b.ult a
  | .uge, a, b => b.ule a
  | .slt, a, b => a.slt b
  | .sle, a, b => a.sle b
  | .sgt, a, b => b.slt a
  | .sge, a, b => b.sle a

def Word.move (shift : Int) (a : Word) : Word :=
  match shift with
  | .ofNat n => if n < 256 then a <<< n else 0
  | .negSucc n => if n + 1 < 256 then a >>> (n + 1) else 0

mutual

def Term.eval (env : Assignment) : Term → Word
  | .var name => env name
  | .const value => value
  | .neg a => -(a.eval env)
  | .not a => ~~~(a.eval env)
  | .binary op a b => op.apply (a.eval env) (b.eval env)
  | .choose c a b => if c.eval env then a.eval env else b.eval env
  | .addMod a b m => Word.addMod (a.eval env) (b.eval env) (m.eval env)
  | .mulMod a b m => Word.mulMod (a.eval env) (b.eval env) (m.eval env)
  | .slices shift mask fill a => (Word.move shift (a.eval env) &&& mask) ||| fill

def Formula.eval (env : Assignment) : Formula → Bool
  | .literal b => b
  | .compare op a b => op.holds (a.eval env) (b.eval env)
  | .not f => !f.eval env
  | .and f g => f.eval env && g.eval env
  | .or f g => f.eval env || g.eval env
  | .iff f g => f.eval env == g.eval env
  | .xor f g => f.eval env != g.eval env

end

def insertName (names : List String) (name : String) : List String :=
  if names.contains name then names else names ++ [name]

mutual

/-- The variables from left to right, each at its first place, after those already in `seen`. -/
def Term.varsFrom (seen : List String) : Term → List String
  | .var name => insertName seen name
  | .const _ => seen
  | .neg a | .not a | .slices _ _ _ a => a.varsFrom seen
  | .binary _ a b => b.varsFrom (a.varsFrom seen)
  | .choose c a b => b.varsFrom (a.varsFrom (c.varsFrom seen))
  | .addMod a b m | .mulMod a b m => m.varsFrom (b.varsFrom (a.varsFrom seen))

def Formula.varsFrom (seen : List String) : Formula → List String
  | .literal _ => seen
  | .compare _ a b => b.varsFrom (a.varsFrom seen)
  | .not f => f.varsFrom seen
  | .and f g | .or f g | .iff f g | .xor f g => g.varsFrom (f.varsFrom seen)

end

def Term.vars (t : Term) : List String := t.varsFrom []

def Formula.vars (f : Formula) : List String := f.varsFrom []

mutual

def Term.subst (σ : String → Term) : Term → Term
  | .var name => σ name
  | .const value => .const value
  | .neg a => .neg (a.subst σ)
  | .not a => .not (a.subst σ)
  | .binary op a b => .binary op (a.subst σ) (b.subst σ)
  | .choose c a b => .choose (c.subst σ) (a.subst σ) (b.subst σ)
  | .addMod a b m => .addMod (a.subst σ) (b.subst σ) (m.subst σ)
  | .mulMod a b m => .mulMod (a.subst σ) (b.subst σ) (m.subst σ)
  | .slices shift mask fill a => .slices shift mask fill (a.subst σ)

def Formula.subst (σ : String → Term) : Formula → Formula
  | .literal b => .literal b
  | .compare op a b => .compare op (a.subst σ) (b.subst σ)
  | .not f => .not (f.subst σ)
  | .and f g => .and (f.subst σ) (g.subst σ)
  | .or f g => .or (f.subst σ) (g.subst σ)
  | .iff f g => .iff (f.subst σ) (g.subst σ)
  | .xor f g => .xor (f.subst σ) (g.subst σ)

end

def replaceName (old new : String) (name : String) : Term :=
  if name = old then .var new else .var name

end EvmAudit
