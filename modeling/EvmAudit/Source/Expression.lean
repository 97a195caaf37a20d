import EvmAudit.Listing.Lexeme

/-! What a piece of source text is about. The text is read as statements of expressions: names,
calls, members, indices, the usual operators. The name that stands least deep in the tree is the
one that the text is about; of several the leftmost. -/

namespace EvmAudit.Source

open Listing (Lexeme)

/-- The forms that can be assigned to are told apart. -/
inductive Shape where
  | member
  | index
  | sequence
  | spread
  | other
  deriving DecidableEq, Repr

inductive Node where
  | name (text : String)
  | tree (shape : Shape) (children : List Node)
  deriving Inhabited

namespace Node

def nearer : Option (Nat × String) → Option (Nat × String) → Option (Nat × String)
  | some a, some b => if b.1 < a.1 then some b else some a
  | some a, none => some a
  | none, b => b

mutual

def shallowest : Node → Option (Nat × String)
  | .name text => some (0, text)
  | .tree _ children => (shallowestOf children).map fun (depth, text) => (depth + 1, text)

def shallowestOf : List Node → Option (Nat × String)
  | [] => none
  | n :: rest => nearer (shallowest n) (shallowestOf rest)

end

mutual

def isTarget : Node → Bool
  | .name _ => true
  | .tree .member _ | .tree .index _ => true
  | .tree .sequence children | .tree .spread children => areTargets children
  | .tree .other _ => false

def areTargets : List Node → Bool
  | [] => true
  | n :: rest => isTarget n && areTargets rest

end

def isPlace : Node → Bool
  | .name _ | .tree .member _ | .tree .index _ => true
  | _ => false

end Node

abbrev Reader := StateT (List Lexeme) Option

namespace Reader

def keywords : List String :=
  ["False", "None", "True", "and", "as", "assert", "async", "await", "break", "class", "continue",
    "def", "del", "elif", "else", "except", "finally", "for", "from", "global", "if", "import",
    "in", "is", "lambda", "nonlocal", "not", "or", "pass", "raise", "return", "try", "while",
    "with", "yield"]

def peek : Reader Lexeme := do
  match ← get with
  | x :: _ => return x
  | [] => failure

def skip : Reader Unit := modify List.tail

def isNext (text : String) : Reader Bool := do
  match ← get with
  | x :: _ => return (x.kind = .sign || x.kind = .name) && x.text = text
  | [] => return false

def accept (text : String) : Reader Bool := do
  if ← isNext text then
    skip
    return true
  else return false

def expect (text : String) : Reader Unit := do
  if ← accept text then return () else failure

def identifier : Reader String := do
  let x ← peek
  if x.kind = .name && !keywords.contains x.text then
    skip
    return x.text
  else failure

def acceptOne (texts : List String) : Reader Bool := do
  let x ← peek
  if (x.kind = .sign || x.kind = .name) && texts.contains x.text then
    skip
    return true
  else return false

/-- Operators on two operands by rank, the loosest first. Chains read from the left. -/
def ranks : List (List String) :=
  [["|"], ["^"], ["&"], ["<<", ">>"], ["+", "-"], ["*", "/", "//", "%", "@"]]

def comparison : Reader Bool := do
  if ← acceptOne ["==", "!=", "<", ">", "<=", ">=", "in"] then return true
  if ← accept "is" then
    let _ ← accept "not"
    return true
  match ← get with
  | a :: b :: rest =>
    if a.kind = .name && a.text = "not" && b.kind = .name && b.text = "in" then
      set rest
      return true
    else return false
  | _ => return false

def quotedTexts : Nat → Reader Unit
  | 0 => return ()
  | fuel + 1 => do
    match ← get with
    | x :: rest => if x.kind = .quoted then do set rest; quotedTexts fuel
    | [] => return ()

def atEnd (closing : List String) : Reader Bool := do
  let x ← peek
  return x.kind = .newline || x.kind = .finish || (x.kind = .sign && closing.contains x.text)

mutual

def expression : Nat → Reader Node
  | 0 => failure
  | fuel + 1 => do
    if ← accept "lambda" then
      let defaults ← lambdaParameters fuel
      expect ":"
      let body ← expression fuel
      return .tree .other [.tree .other defaults, body]
    let value ← disjunction fuel
    if ← accept "if" then
      let test ← disjunction fuel
      expect "else"
      let other ← expression fuel
      return .tree .other [test, value, other]
    else return value

def lambdaParameters : Nat → Reader (List Node)
  | 0 => failure
  | fuel + 1 => do
    if ← isNext ":" then return []
    let _ ← acceptOne ["*", "**"]
    let _ ← identifier
    let value ← if ← accept "=" then do pure [← expression fuel] else pure []
    if ← accept "," then return value ++ (← lambdaParameters fuel)
    else return value

def disjunction : Nat → Reader Node
  | 0 => failure
  | fuel + 1 => do
    let first ← conjunction fuel
    let rest ← disjunctionRest fuel
    return if rest.isEmpty then first else .tree .other (first :: rest)

def disjunctionRest : Nat → Reader (List Node)
  | 0 => failure
  | fuel + 1 => do
    if ← accept "or" then
      let next ← conjunction fuel
      return next :: (← disjunctionRest fuel)
    else return []

def conjunction : Nat → Reader Node
  | 0 => failure
  | fuel + 1 => do
    let first ← inversion fuel
    let rest ← conjunctionRest fuel
    return if rest.isEmpty then first else .tree .other (first :: rest)

def conjunctionRest : Nat → Reader (List Node)
  | 0 => failure
  | fuel + 1 => do
    if ← accept "and" then
      let next ← inversion fuel
      return next :: (← conjunctionRest fuel)
    else return []

def inversion : Nat → Reader Node
  | 0 => failure
  | fuel + 1 => do
    if ← accept "not" then return .tree .other [← inversion fuel]
    let first ← operation fuel ranks
    let rest ← comparisonRest fuel
    return if rest.isEmpty then first else .tree .other (first :: rest)

def comparisonRest : Nat → Reader (List Node)
  | 0 => failure
  | fuel + 1 => do
    if ← comparison then
      let next ← operation fuel ranks
      return next :: (← comparisonRest fuel)
    else return []

def operation : Nat → List (List String) → Reader Node
  | 0, _ => failure
  | fuel + 1, [] => factor fuel
  | fuel + 1, signs :: tighter => do
    let first ← operation fuel tighter
    operationRest fuel signs tighter first

def operationRest : Nat → List String → List (List String) → Node → Reader Node
  | 0, _, _, _ => failure
  | fuel + 1, signs, tighter, left => do
    if ← acceptOne signs then
      let right ← operation fuel tighter
      operationRest fuel signs tighter (.tree .other [left, right])
    else return left

def factor : Nat → Reader Node
  | 0 => failure
  | fuel + 1 => do
    if ← acceptOne ["+", "-", "~"] then return .tree .other [← factor fuel]
    let awaited ← accept "await"
    let base ← atom fuel
    let base ← trailers fuel base
    let base := if awaited then .tree .other [base] else base
    if ← accept "**" then return .tree .other [base, ← factor fuel]
    else return base

def trailers : Nat → Node → Reader Node
  | 0, _ => failure
  | fuel + 1, base => do
    if ← accept "." then
      let _ ← identifier
      trailers fuel (.tree .member [base])
    else if ← accept "(" then
      let (values, named) ← arguments fuel
      trailers fuel (.tree .other (base :: values ++ named))
    else if ← accept "[" then
      let items ← indices fuel
      trailers fuel (.tree .index (base :: items))
    else return base

def arguments : Nat → Reader (List Node × List Node)
  | 0 => failure
  | fuel + 1 => do
    if ← accept ")" then return ([], [])
    let (value, named) ← argument fuel
    if ← isNext "for" then
      let clauses ← comprehension fuel
      expect ")"
      return ([.tree .other (value ++ clauses)], [])
    let more ← accept ","
    let (values, others) ← if more then arguments fuel else do
      expect ")"
      pure ([], [])
    return (value ++ values, named ++ others)

def argument : Nat → Reader (List Node × List Node)
  | 0 => failure
  | fuel + 1 => do
    if ← accept "**" then return ([], [.tree .other [← expression fuel]])
    if ← accept "*" then return ([.tree .spread [← expression fuel]], [])
    match ← get with
    | a :: b :: rest =>
      if a.kind = .name && !keywords.contains a.text && b.kind = .sign && b.text = "=" then
        set rest
        return ([], [.tree .other [← expression fuel]])
      else return ([← namedExpression fuel], [])
    | _ => failure

def namedExpression : Nat → Reader Node
  | 0 => failure
  | fuel + 1 => do
    match ← get with
    | a :: b :: rest =>
      if a.kind = .name && !keywords.contains a.text && b.kind = .sign && b.text = ":=" then
        set rest
        return .tree .other [.name a.text, ← expression fuel]
      else expression fuel
    | _ => expression fuel

def indices : Nat → Reader (List Node)
  | 0 => failure
  | fuel + 1 => do
    let first ← indexItem fuel
    if ← accept "," then
      let rest ← indexRest fuel
      return [.tree .sequence (first :: rest)]
    else
      expect "]"
      return [first]

def indexRest : Nat → Reader (List Node)
  | 0 => failure
  | fuel + 1 => do
    if ← accept "]" then return []
    let item ← indexItem fuel
    if ← accept "," then return item :: (← indexRest fuel)
    else
      expect "]"
      return [item]

def indexItem : Nat → Reader Node
  | 0 => failure
  | fuel + 1 => do
    let start ← if ← isNext ":" then pure [] else
      if ← accept "*" then pure [Node.tree .spread [← expression fuel]]
      else pure [← namedExpression fuel]
    if ← accept ":" then
      let stop ← if ← atEnd [":", ",", "]"] then pure [] else pure [← expression fuel]
      let step ← if ← accept ":" then
          if ← atEnd [",", "]"] then pure [] else pure [← expression fuel]
        else pure []
      return .tree .other (start ++ stop ++ step)
    else match start with
      | [n] => return n
      | _ => failure

def comprehension : Nat → Reader (List Node)
  | 0 => failure
  | fuel + 1 => do
    if ← accept "for" then
      let target ← targetList fuel
      if !target.isTarget then failure
      expect "in"
      let source ← disjunction fuel
      let tests ← conditions fuel
      return .tree .other (target :: source :: tests) :: (← comprehension fuel)
    else return []

def conditions : Nat → Reader (List Node)
  | 0 => failure
  | fuel + 1 => do
    if ← accept "if" then
      let test ← disjunction fuel
      return test :: (← conditions fuel)
    else return []

def targetList : Nat → Reader Node
  | 0 => failure
  | fuel + 1 => do
    let first ← targetItem fuel
    if ← accept "," then return .tree .sequence (first :: (← targetRest fuel))
    else return first

def targetRest : Nat → Reader (List Node)
  | 0 => failure
  | fuel + 1 => do
    if ← isNext "in" then return []
    let item ← targetItem fuel
    if ← accept "," then return item :: (← targetRest fuel)
    else return [item]

def targetItem : Nat → Reader Node
  | 0 => failure
  | fuel + 1 => do
    if ← accept "*" then return .tree .spread [← targetItem fuel]
    let base ← atom fuel
    trailers fuel base

def sequence : Nat → List String → Reader Node
  | 0, _ => failure
  | fuel + 1, closing => do
    let first ← sequenceItem fuel
    if ← accept "," then return .tree .sequence (first :: (← sequenceRest fuel closing))
    else return first

def sequenceRest : Nat → List String → Reader (List Node)
  | 0, _ => failure
  | fuel + 1, closing => do
    if ← atEnd closing then return []
    let item ← sequenceItem fuel
    if ← accept "," then return item :: (← sequenceRest fuel closing)
    else return [item]

def sequenceItem : Nat → Reader Node
  | 0 => failure
  | fuel + 1 => do
    if ← accept "*" then return .tree .spread [← operation fuel ranks]
    else expression fuel

def items : Nat → String → Reader (List Node)
  | 0, _ => failure
  | fuel + 1, closing => do
    if ← accept closing then return []
    let item ← if ← accept "*" then pure (Node.tree .spread [← operation fuel ranks])
      else namedExpression fuel
    if ← accept "," then return item :: (← items fuel closing)
    else
      expect closing
      return [item]

def entries : Nat → Reader (List Node × List Node)
  | 0 => failure
  | fuel + 1 => do
    if ← accept "\x7d" then return ([], [])
    let (key, value) ← if ← accept "**" then pure ([], ← operation fuel ranks) else do
      let key ← expression fuel
      expect ":"
      pure ([key], ← expression fuel)
    let (keys, values) ← if ← accept "," then entries fuel else do
      expect "\x7d"
      pure ([], [])
    return (key ++ keys, value :: values)

def atom : Nat → Reader Node
  | 0 => failure
  | fuel + 1 => do
    let x ← peek
    match x.kind with
    | .number =>
      skip
      return .tree .other []
    | .quoted =>
      quotedTexts fuel
      return .tree .other []
    | .name =>
      if keywords.contains x.text then
        if ["False", "None", "True"].contains x.text then
          skip
          return .tree .other []
        else failure
      else
        skip
        return .name x.text
    | .sign =>
      skip
      match x.text with
      | "..." => return .tree .other []
      | "(" => group fuel
      | "[" =>
        let rest ← get
        match (do
            let first ← namedExpression fuel
            if ← isNext "for" then
              let clauses ← comprehension fuel
              expect "]"
              return Node.tree .other (first :: clauses)
            else failure : Reader Node).run rest with
        | some (n, rest) =>
          set rest
          return n
        | none => return .tree .sequence (← items fuel "]")
      | "\x7b" => braces fuel
      | _ => failure
    | _ => failure

def group : Nat → Reader Node
  | 0 => failure
  | fuel + 1 => do
    if ← accept ")" then return .tree .sequence []
    if ← isNext "yield" then
      let n ← yielded fuel
      expect ")"
      return n
    if ← accept "*" then
      let first := Node.tree .spread [← operation fuel ranks]
      expect ","
      return .tree .sequence (first :: (← items fuel ")"))
    let first ← namedExpression fuel
    if ← isNext "for" then
      let clauses ← comprehension fuel
      expect ")"
      return .tree .other (first :: clauses)
    if ← accept "," then return .tree .sequence (first :: (← items fuel ")"))
    expect ")"
    return first

def braces : Nat → Reader Node
  | 0 => failure
  | fuel + 1 => do
    let rest ← get
    match (entries fuel).run rest with
    | some ((keys, values), rest) =>
      set rest
      return .tree .other (keys ++ values)
    | none =>
      if ← accept "*" then
        let first := Node.tree .spread [← operation fuel ranks]
        if ← accept "," then return .tree .other (first :: (← items fuel "\x7d"))
        expect "\x7d"
        return .tree .other [first]
      let first ← namedExpression fuel
      let pair ← if ← accept ":" then do pure [← expression fuel] else pure []
      if ← isNext "for" then
        let clauses ← comprehension fuel
        expect "\x7d"
        return .tree .other (first :: pair ++ clauses)
      if !pair.isEmpty then failure
      if ← accept "," then return .tree .other (first :: (← items fuel "\x7d"))
      expect "\x7d"
      return .tree .other [first]

def yielded : Nat → Reader Node
  | 0 => failure
  | fuel + 1 => do
    expect "yield"
    if ← accept "from" then return .tree .other [← expression fuel]
    if ← atEnd [")", ";", "="] then return .tree .other []
    return .tree .other [← sequence fuel [")", ";", "="]]

end

/-! ### Statements -/

def statementEnds : List String := [";", "="]

def value (fuel : Nat) : Reader Node := do
  if ← isNext "yield" then yielded fuel else sequence fuel statementEnds

def assigned : Nat → Reader (List Node)
  | 0 => failure
  | fuel + 1 => do
    let next ← value fuel
    if ← accept "=" then
      if next.isTarget then return next :: (← assigned fuel) else failure
    else return [next]

def updates : List String :=
  ["+=", "-=", "*=", "/=", "//=", "%=", "@=", "&=", "|=", "^=", ">>=", "<<=", "**="]

def namesOnly : Nat → Reader Unit
  | 0 => failure
  | fuel + 1 => do
    let _ ← identifier
    if ← acceptOne [",", ".", "as"] then namesOnly fuel else return ()

def assignment (fuel : Nat) : Reader Node := do
  let first ← value fuel
  if ← accept "=" then
    if first.isTarget then return .tree .other (first :: (← assigned fuel)) else failure
  else if ← acceptOne updates then
    if first.isPlace then return .tree .other [first, ← value fuel] else failure
  else if ← accept ":" then
    if !first.isPlace then failure
    let kind ← expression fuel
    let given ← if ← accept "=" then do pure [← value fuel] else pure []
    return .tree .other (first :: kind :: given)
  else return .tree .other [first]

def statement (fuel : Nat) : Reader Node := do
  if ← acceptOne ["pass", "break", "continue"] then return .tree .other []
  if ← accept "return" then
    if ← atEnd statementEnds then return .tree .other []
    return .tree .other [← sequence fuel statementEnds]
  if ← accept "assert" then
    let test ← expression fuel
    let note ← if ← accept "," then do pure [← expression fuel] else pure []
    return .tree .other (test :: note)
  if ← accept "raise" then
    if ← atEnd statementEnds then return .tree .other []
    let cause ← expression fuel
    let origin ← if ← accept "from" then do pure [← expression fuel] else pure []
    return .tree .other (cause :: origin)
  if ← accept "del" then
    let targets ← sequence fuel statementEnds
    if !targets.isTarget then failure
    match targets with
    | .tree .sequence children => return .tree .other children
    | n => return .tree .other [n]
  if ← acceptOne ["global", "nonlocal", "import"] then
    namesOnly fuel
    return .tree .other []
  assignment fuel

def statements : Nat → Reader (List Node)
  | 0 => failure
  | fuel + 1 => do
    let x ← peek
    if x.kind = .finish then return []
    let first ← statement (20 * fuel)
    let y ← peek
    if y.kind = .newline then
      skip
      return first :: (← statements fuel)
    else
      expect ";"
      if (← peek).kind = .newline then skip
      return first :: (← statements fuel)

end Reader

def leadingName? (text : String) : Option String :=
  match Listing.lexemes (Text.lines text) with
  | (xs, none) =>
    let xs := xs.filter fun x => x.kind ≠ .comment && x.kind ≠ .blank
    match (Reader.statements (xs.length + 2)).run xs with
    | some (statements, _) => (Node.shallowestOf statements).map Prod.snd
    | none => none
  | _ => none

end EvmAudit.Source
