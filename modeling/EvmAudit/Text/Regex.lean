import EvmAudit.Fault
import EvmAudit.Text.Numeral

/-! Regular expressions with groups, and the search for their matches from left to right. Of two
ways to match, the one that an earlier alternative or a longer repetition gives is taken; a
repetition followed by a question mark prefers to be short. -/

namespace EvmAudit

namespace Regex

inductive Class where
  | digit | word | blank
  deriving DecidableEq, Repr

def Class.holds : Class → Char → Bool
  | .digit, c => Text.isDecimalDigit c
  | .word, c => c.isAlphanum || c == '_'
  | .blank, c => Text.isBlank c

inductive Member where
  | range (first last : Char)
  | of (c : Class) (complement : Bool)
  deriving DecidableEq, Repr

def Member.holds : Member → Char → Bool
  | .range a b, c => decide (a ≤ c) && decide (c ≤ b)
  | .of k complement, c => k.holds c != complement

inductive Node where
  | empty
  | oneOf (complement : Bool) (members : List Member)
  | start
  | finish
  /-- The very end, not before a last line feed. -/
  | stop
  | boundary (complement : Bool)
  | seq (a b : Node)
  | either (a b : Node)
  | repeated (least : Nat) (most : Option Nat) (greedy : Bool) (a : Node)
  | group (n : Nat) (a : Node)
  | look (ahead : Bool) (a : Node)
  | same (n : Nat)
  deriving Repr, Inhabited

def Node.size : Node → Nat
  | .seq a b | .either a b => a.size + b.size + 1
  | .repeated least _ _ a => a.size + least + 1
  | .group _ a | .look _ a => a.size + 1
  | _ => 1

def Node.isPlace : Node → Bool
  | .start | .finish | .stop | .boundary _ => true
  | _ => false

/-! ### Reading -/

structure Reading where
  rest : List Char
  groups : Nat := 0

def literal (c : Char) : Node := .oneOf false [.range c c]

def classOf? : Char → Option (Class × Bool)
  | 'd' => some (.digit, false)
  | 'D' => some (.digit, true)
  | 'w' => some (.word, false)
  | 'W' => some (.word, true)
  | 's' => some (.blank, false)
  | 'S' => some (.blank, true)
  | _ => none

def controlOf? : Char → Option Char
  | 'n' => some '\n'
  | 't' => some '\t'
  | 'r' => some '\r'
  | 'f' => some (Char.ofNat 12)
  | 'v' => some (Char.ofNat 11)
  | 'a' => some (Char.ofNat 7)
  | _ => none

def coded (count : Nat) (cs : List Char) : Except Fault (Char × List Char) :=
  let digits := cs.take count
  if digits.length = count && digits.all fun c => (Numeral.digit? 16 c).isSome then
    .ok (Char.ofNat ((Numeral.read 16 (String.ofList digits)).getD 0).toNat, cs.drop count)
  else .error .badPattern

def escapedChar (c : Char) (rest : List Char) : Except Fault (Char × List Char) :=
  match controlOf? c with
  | some d => .ok (d, rest)
  | none =>
    if c = 'x' then coded 2 rest
    else if c = 'u' then coded 4 rest
    else if c = 'U' then coded 8 rest
    else if c = '0' then .ok (Char.ofNat 0, rest)
    else if c.isAlphanum then .error .badPattern
    else .ok (c, rest)

def setItem : List Char → Except Fault (Member × List Char)
  | [] => .error .badPattern
  | '\\' :: [] => .error .badPattern
  | '\\' :: 'b' :: rest => .ok (.range (Char.ofNat 8) (Char.ofNat 8), rest)
  | '\\' :: c :: rest =>
    match classOf? c with
    | some (k, complement) => .ok (.of k complement, rest)
    | none => do
      let (d, rest) ← escapedChar c rest
      return (.range d d, rest)
  | c :: rest => .ok (.range c c, rest)

def setItems (first : Bool) (acc : List Member) :
    Nat → List Char → Except Fault (List Member × List Char)
  | 0, _ => .error .badPattern
  | fuel + 1, cs =>
    match cs, first with
    | ']' :: rest, false => .ok (acc, rest)
    | cs, _ => do
      let (item, rest) ← setItem cs
      match item, rest with
      | item, '-' :: ']' :: rest => return (acc ++ [item, .range '-' '-'], rest)
      | .range a _, '-' :: rest =>
        match ← setItem rest with
        | (.range b _, rest) =>
          if b < a then throw .badPattern
          setItems false (acc ++ [.range a b]) fuel rest
        | (.of .., _) => throw .badPattern
      | .of .., '-' :: _ => throw .badPattern
      | item, rest => setItems false (acc ++ [item]) fuel rest

def set (cs : List Char) : Except Fault (Node × List Char) := do
  let (complement, cs) := match cs with
    | '^' :: rest => (true, rest)
    | cs => (false, cs)
  let (members, rest) ← setItems true [] (cs.length + 1) cs
  return (.oneOf complement members, rest)

def escape (groups : Nat) : List Char → Except Fault (Node × List Char)
  | [] => .error .badPattern
  | 'A' :: rest => .ok (.start, rest)
  | 'Z' :: rest => .ok (.stop, rest)
  | 'b' :: rest => .ok (.boundary false, rest)
  | 'B' :: rest => .ok (.boundary true, rest)
  | c :: rest =>
    match classOf? c with
    | some (k, complement) => .ok (.oneOf false [.of k complement], rest)
    | none => do
      if c.isDigit && c ≠ '0' then
        let n := c.toNat - 48
        if n ≤ groups then return (.same n, rest) else throw .badPattern
      let (d, rest) ← escapedChar c rest
      return (literal d, rest)

def bounds? (cs : List Char) : Option (Nat × Option Nat × List Char) :=
  let number (cs : List Char) : Option Nat × List Char :=
    let digits := cs.takeWhile Char.isDigit
    (if digits.isEmpty then none else (String.ofList digits).toNat?, cs.drop digits.length)
  let (least, rest) := number cs
  match least, rest with
  | some n, '}' :: rest => some (n, some n, rest)
  | least, ',' :: rest =>
    match number rest with
    | (most, '}' :: rest) => some (least.getD 0, most, rest)
    | _ => none
  | _, _ => none

def repetition? : List Char → Option (Nat × Option Nat × List Char)
  | '*' :: rest => some (0, none, rest)
  | '+' :: rest => some (1, none, rest)
  | '?' :: rest => some (0, some 1, rest)
  | '{' :: rest => bounds? rest
  | _ => none

def withRepetition (item : Node) (cs : List Char) : Except Fault (Node × List Char) :=
  match repetition? cs with
  | none => .ok (item, cs)
  | some (least, most, rest) => do
    if item.isPlace then throw .badPattern
    if let some m := most then if m < least then throw .badPattern
    let (greedy, rest) := match rest with
      | '?' :: rest => (false, rest)
      | rest => (true, rest)
    if (repetition? rest).isSome then throw .badPattern
    return (.repeated least most greedy item, rest)

inductive Opening where
  | counted | plain | ahead | notAhead | comment

def opening : List Char → Except Fault (Opening × List Char)
  | '?' :: ':' :: rest => .ok (.plain, rest)
  | '?' :: '=' :: rest => .ok (.ahead, rest)
  | '?' :: '!' :: rest => .ok (.notAhead, rest)
  | '?' :: '#' :: rest => .ok (.comment, rest)
  | '?' :: 'P' :: '<' :: rest =>
    let name := rest.takeWhile (· ≠ '>')
    if name.isEmpty || !name.all fun c => c.isAlphanum || c == '_' then .error .badPattern
    else match rest.drop name.length with
      | '>' :: rest => .ok (.counted, rest)
      | _ => .error .badPattern
  | '?' :: _ => .error .badPattern
  | rest => .ok (.counted, rest)

mutual

def alternatives : Nat → Reading → Except Fault (Node × Reading)
  | 0, _ => .error .badPattern
  | fuel + 1, r => do
    let (first, r) ← sequence .empty fuel r
    match r.rest with
    | '|' :: rest =>
      let (second, r) ← alternatives fuel { r with rest }
      return (.either first second, r)
    | _ => return (first, r)

def sequence (before : Node) : Nat → Reading → Except Fault (Node × Reading)
  | 0, _ => .error .badPattern
  | fuel + 1, r =>
    match r.rest with
    | [] | '|' :: _ | ')' :: _ => .ok (before, r)
    | cs =>
      if (repetition? cs).isSome then .error .badPattern
      else do
        let (item, r) ← item fuel r
        let (item, rest) ← withRepetition item r.rest
        sequence (.seq before item) fuel { r with rest }

def item : Nat → Reading → Except Fault (Node × Reading)
  | 0, _ => .error .badPattern
  | fuel + 1, r =>
    match r.rest with
    | [] => .error .badPattern
    | '.' :: rest => .ok (.oneOf true [.range '\n' '\n'], { r with rest })
    | '^' :: rest => .ok (.start, { r with rest })
    | '$' :: rest => .ok (.finish, { r with rest })
    | '[' :: rest => do
      let (node, rest) ← set rest
      return (node, { r with rest })
    | '\\' :: rest => do
      let (node, rest) ← escape r.groups rest
      return (node, { r with rest })
    | '(' :: rest => do
      let (kind, rest) ← opening rest
      match kind with
      | .comment =>
        match rest.dropWhile (· ≠ ')') with
        | ')' :: rest => return (.empty, { r with rest })
        | _ => throw .badPattern
      | .counted =>
        let n := r.groups + 1
        let (node, r) ← alternatives fuel { rest, groups := n }
        match r.rest with
        | ')' :: rest => return (.group n node, { r with rest })
        | _ => throw .badPattern
      | kind =>
        let (node, r) ← alternatives fuel { r with rest }
        let node := match kind with
          | .ahead => .look true node
          | .notAhead => .look false node
          | _ => node
        match r.rest with
        | ')' :: rest => return (node, { r with rest })
        | _ => throw .badPattern
    | c :: rest => .ok (literal c, { r with rest })

end

end Regex

structure Regex where
  node : Regex.Node
  groups : Nat
  deriving Inhabited

namespace Regex

def read (pattern : String) : Except Fault Regex := do
  let cs := pattern.toList
  let (node, r) ← alternatives (3 * cs.length + 3) { rest := cs }
  if r.rest.isEmpty then return ⟨node, r.groups⟩ else throw .badPattern

/-! ### Matching -/

abbrev Groups := Array (Option (Nat × Nat))

abbrev Goal := Nat → Groups → Option (Nat × Groups)

def isWordAt (s : Array Char) (i : Nat) : Bool := (s[i]?).any Class.word.holds

def atBoundary (s : Array Char) (i : Nat) : Bool :=
  (0 < i && isWordAt s (i - 1)) != isWordAt s i

def atFinish (s : Array Char) (i : Nat) : Bool :=
  i == s.size || (i + 1 == s.size && s[i]? == some '\n')

def attempt (s : Array Char) : Nat → Node → Nat → Groups → Goal → Option (Nat × Groups)
  | 0, _, _, _, _ => none
  | fuel + 1, node, i, groups, goal =>
    match node with
    | .empty => goal i groups
    | .oneOf complement members =>
      match s[i]? with
      | some c => if members.any (·.holds c) != complement then goal (i + 1) groups else none
      | none => none
    | .start => if i = 0 then goal i groups else none
    | .finish => if atFinish s i then goal i groups else none
    | .stop => if i = s.size then goal i groups else none
    | .boundary complement => if atBoundary s i != complement then goal i groups else none
    | .seq a b =>
      attempt s fuel a i groups fun j groups => attempt s fuel b j groups goal
    | .either a b =>
      match attempt s fuel a i groups goal with
      | some found => some found
      | none => attempt s fuel b i groups goal
    | .group n a =>
      attempt s fuel a i groups fun j groups => goal j (groups.setIfInBounds n (some (i, j)))
    | .look ahead a =>
      match attempt s fuel a i groups fun j groups => some (j, groups) with
      | some (_, inner) => if ahead then goal i inner else none
      | none => if ahead then none else goal i groups
    | .same n =>
      match (groups[n]?).getD none with
      | none => none
      | some (a, b) =>
        let piece := s.extract a b
        if s.extract i (i + piece.size) == piece then goal (i + piece.size) groups else none
    | .repeated least most greedy a =>
      let more (_ : Unit) : Option (Nat × Groups) :=
        if most = some 0 then none
        else attempt s fuel a i groups fun j groups =>
          if least = 0 ∧ j = i then none
          else
            attempt s fuel (.repeated (least - 1) (most.map (· - 1)) greedy a) j groups goal
      if 0 < least then more ()
      else if greedy then
        match more () with
        | some found => some found
        | none => goal i groups
      else
        match goal i groups with
        | some found => some found
        | none => more ()

structure Match where
  start : Nat
  stop : Nat
  groups : Groups
  deriving Inhabited

def matchAt (r : Regex) (s : Array Char) (i : Nat) (nonempty : Bool) : Option Match :=
  let fuel := (r.node.size + 2) * (s.size + 3)
  let goal : Goal := fun j groups => if nonempty && j == i then none else some (j, groups)
  (attempt s fuel r.node i (Array.replicate (r.groups + 1) none) goal).map fun (j, groups) =>
    ⟨i, j, groups⟩

def searchFrom (r : Regex) (s : Array Char) (nonempty : Bool) : Nat → Nat → Option Match
  | 0, _ => none
  | fuel + 1, i =>
    match r.matchAt s i nonempty with
    | some m => some m
    | none => if i < s.size then searchFrom r s false fuel (i + 1) else none

/-- All matches from left to right. A match may not be empty where an empty one just ended. -/
def matchesFrom (r : Regex) (s : Array Char) : Nat → Nat → Bool → List Match
  | 0, _, _ => []
  | fuel + 1, i, nonempty =>
    match r.searchFrom s nonempty (s.size + 2) i with
    | none => []
    | some m => m :: matchesFrom r s fuel m.stop (m.start == m.stop)

def allMatches (r : Regex) (s : String) : List Match :=
  let chars := s.toList.toArray
  r.matchesFrom chars (2 * chars.size + 2) 0 false

def piece (s : String) (i j : Nat) : String := String.ofList ((s.toList.take j).drop i)

def Match.text (m : Match) (s : String) (n : Nat) : String :=
  if n = 0 then piece s m.start m.stop
  else match (m.groups[n]?).getD none with
    | some (i, j) => piece s i j
    | none => ""

/-- The texts that a search gives for each match: those of the groups, or of the whole match if
there are none. -/
def findAll (r : Regex) (s : String) : List (List String) :=
  (r.allMatches s).map fun m =>
    if r.groups = 0 then [m.text s 0] else (List.range r.groups).map fun n => m.text s (n + 1)

def removeAll (r : Regex) (s : String) : String :=
  let rec go (i : Nat) : List Match → String
    | [] => piece s i s.length
    | m :: rest => piece s i m.start ++ go m.stop rest
  go 0 (r.allMatches s)

end Regex

end EvmAudit
