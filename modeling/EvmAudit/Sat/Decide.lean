import EvmAudit.Sat.Blast
import EvmAudit.Term.Normal

/-! Whether formulas can hold together. Equations that give a variable are used up first; then a few
plain assignments are tried; then the circuit of what is left is searched. A found assignment is
checked against the formulas before it is reported. -/

namespace EvmAudit

inductive Verdict where
  | sat (values : List (String × Word))
  | unsat
  | unknown
  deriving Inhabited

def Verdict.isUnsat : Verdict → Bool
  | .unsat => true
  | _ => false

def Verdict.isSat : Verdict → Bool
  | .sat _ => true
  | _ => false

def assignmentOf (values : List (String × Word)) : Assignment :=
  fun name => (values.lookup name).getD 0

def allHold (env : Assignment) (fs : List Formula) : Bool := fs.all (·.eval env)

namespace Sat

def conjuncts : Formula → List Formula
  | .and f g => conjuncts f ++ conjuncts g
  | .not f => negatedConjuncts f
  | .literal true => []
  | f => [f]
where
  /-- The conjuncts of the negation. -/
  negatedConjuncts : Formula → List Formula
    | .or f g => negatedConjuncts f ++ negatedConjuncts g
    | .not f => conjuncts f
    | .literal false => []
    | f => [Formula.mkNot f]

def definition? : Formula → Option (String × Term)
  | .compare .eq (.var x) t => if (t.vars).contains x then none else some (x, t)
  | .compare .eq t (.var x) => if (t.vars).contains x then none else some (x, t)
  | _ => none

def eliminate (fs : List Formula) (fixed : List (String × Term)) :
    Nat → List Formula × List (String × Term)
  | 0 => (fs, fixed)
  | fuel + 1 =>
    match fs.findSome? definition? with
    | none => (fs, fixed)
    | some (x, t) =>
      let σ (name : String) : Term := if name = x then t else .var name
      let fs := fs.flatMap fun f => conjuncts (f.subst σ).normal
      eliminate fs ((x, t) :: fixed) fuel

def complete (values : List (String × Word)) (fixed : List (String × Term)) :
    List (String × Word) :=
  fixed.foldl (fun values (x, t) => (x, t.eval (assignmentOf values)) :: values) values

def scatter (round : Nat) (name : String) : Nat :=
  let h := name.toList.foldl (fun h c => (h * 1099511628211 + c.toNat + 1) % Nat.pow 2 256)
    (14695981039346656037 + round)
  h * (2 * h + 1) % Nat.pow 2 256

def guesses : List (String → Word) :=
  [fun _ => 0, fun _ => 1, fun _ => Word.ones, fun _ => BitVec.intMin 256,
    fun _ => BitVec.intMax 256, fun _ => BitVec.twoPow 256 128,
    fun name => BitVec.ofNat 256 (scatter 1 name), fun name => BitVec.ofNat 256 (scatter 2 name),
    fun name => BitVec.ofNat 256 (scatter 3 name % 5),
    fun name => BitVec.ofNat 256 (scatter 4 name % Nat.pow 2 20),
    fun name => BitVec.ofNat 256 (scatter 5 name % 2),
    fun name => if scatter 6 name % 2 = 0 then 0 else Word.ones]

def guess (vars : List String) (fs : List Formula) : Option (List (String × Word)) :=
  guesses.findSome? fun g =>
    let values := vars.map fun x => (x, g x)
    if allHold (assignmentOf values) fs then some values else none

def landmarks : List Word :=
  [0, 1, 2, 3, Word.ones, Word.ones - 1, BitVec.intMin 256, BitVec.intMax 256,
  BitVec.twoPow 256 128]

def manyWords : List Word :=
  let numbers : List Nat := [4, 5, 7, 8, 10, 16, 31, 32, 100, 255, 256, Nat.pow 2 64, Nat.pow 2 160,
    Nat.pow 2 160 - 1, Nat.pow 2 255 + 1, Nat.pow 2 255 + 2, Nat.pow 2 254, Nat.pow 2 254 + 1]
  landmarks ++ (numbers ++ (List.range 24).map (scatter · "word")).map (BitVec.ofNat 256)

def combine (words : List Word) (fs : List Formula) (values : List (String × Word)) :
    List String → Option (List (String × Word))
  | [] => if allHold (assignmentOf values) fs then some values else none
  | x :: rest => words.findSome? fun w => combine words fs ((x, w) :: values) rest

def pairsOf : List String → List (List String)
  | [] => []
  | x :: rest => rest.map (fun y => [x, y]) ++ pairsOf rest

def combineFew (fs : List Formula) (values : List (String × Word)) (vars : List String) :
    Option (List (String × Word)) :=
  if vars.length ≤ 2 then combine manyWords fs [] vars
  else if vars.length = 3 then combine landmarks fs [] vars
  else (pairsOf vars).findSome? (combine landmarks fs values)

def clash (fs : List Formula) : Bool := fs.any fun f => fs.contains (Formula.mkNot f)

def effort : Nat := 100000000

structure Island where
  vars : List String
  formulas : List Formula

def Island.meets (vars : List String) (i : Island) : Bool := i.vars.any vars.contains

def addToIslands (islands : List Island) (f : Formula) : List Island :=
  let vars := f.vars
  let (near, far) := islands.partition (Island.meets vars)
  ⟨near.foldl (fun vs i => i.vars.foldl insertName vs) vars,
    f :: near.flatMap Island.formulas⟩ :: far

def islandsOf (fs : List Formula) : List Island := fs.foldl addToIslands []

/-- Values for the variables of an island. Products and quotients are left open at first. -/
def solveIsland (i : Island) : Verdict :=
  match guess i.vars i.formulas with
  | some values => .sat values
  | none =>
    match blast true i.formulas effort with
    | .contradiction => .unsat
    | .gaveUp => .unknown
    | .model values =>
      if allHold (assignmentOf values) i.formulas then .sat values
      else
        match combineFew i.formulas values i.vars with
        | some values => .sat values
        | none =>
          match blast false i.formulas effort with
          | .contradiction => .unsat
          | .gaveUp => .unknown
          | .model values => .sat values

/-- Islands have no variable in common, so values for each of them are values for all. -/
def solveAll (values : List (String × Word)) : List Island → Verdict
  | [] => .sat values
  | i :: rest =>
    match solveIsland i with
    | .sat more => solveAll (more ++ values) rest
    | v => v

def solve (fs : List Formula) : Verdict :=
  let start := fs.flatMap fun f => conjuncts f.normal
  let (left, fixed) := eliminate start [] (start.length + 64)
  if left.contains (.literal false) || clash left then .unsat
  else
    match solveAll [] (islandsOf left) with
    | .sat values => .sat (complete values fixed)
    | v => v

end Sat

def decideSat (fs : List Formula) : Verdict :=
  match Sat.solve fs with
  | .sat values => if allHold (assignmentOf values) fs then .sat values else .unknown
  | v => v

end EvmAudit
