import EvmAudit.Fault
import EvmAudit.Text.Blank

/-! The lexemes of a listing, line by line. Brackets
and a backslash at the end of a line join lines; quoted texts are one lexeme; indentation and its
end are lexemes of their own. -/

namespace EvmAudit.Listing

inductive Kind where
  | number
  | name
  | sign
  | quoted
  | comment
  | newline
  /-- The end of a line that holds nothing, or that goes on. -/
  | blank
  | indent
  | dedent
  /-- A character that starts no lexeme. -/
  | stray
  | finish
  deriving DecidableEq, Repr, Inhabited

structure Lexeme where
  kind : Kind
  text : String
  row : Nat
  column : Nat
  deriving DecidableEq, Repr, Inhabited

/-! ### Lengths of the lexeme classes at the start of a text -/

def isDecimal (c : Char) : Bool := '0' ≤ c && c ≤ '9'

def isHexadecimal (c : Char) : Bool :=
  isDecimal c || ('a' ≤ c && c ≤ 'f') || ('A' ≤ c && c ≤ 'F')

def moreDigits (p : Char → Bool) : List Char → Nat
  | '_' :: c :: cs => if p c then 2 + moreDigits p cs else 0
  | c :: cs => if p c then 1 + moreDigits p cs else 0
  | [] => 0

def digitsLength (p : Char → Bool) : List Char → Nat
  | c :: cs => if p c then 1 + moreDigits p cs else 0
  | [] => 0

def exponentLength : List Char → Nat
  | e :: cs =>
    if e = 'e' || e = 'E' then
      let sign := match cs with
        | '-' :: _ | '+' :: _ => 1
        | _ => 0
      let n := digitsLength isDecimal (cs.drop sign)
      if n = 0 then 0 else 1 + sign + n
    else 0
  | [] => 0

/-- Digits with a point among or around them, and an exponent; or digits and an exponent. -/
def fractionLength? (cs : List Char) : Option Nat :=
  let whole := digitsLength isDecimal cs
  match cs.drop whole with
  | '.' :: rest =>
    let places := digitsLength isDecimal rest
    if whole = 0 && places = 0 then none
    else
      let n := whole + 1 + places
      some (n + exponentLength (cs.drop n))
  | rest =>
    let e := exponentLength rest
    if whole = 0 || e = 0 then none else some (whole + e)

def markedLength? (marks : List Char) (p : Char → Bool) : List Char → Option Nat
  | '0' :: m :: cs =>
    let n := moreDigits p cs
    if marks.contains m && n ≠ 0 then some (2 + n) else none
  | _ => none

def wholeLength? (cs : List Char) : Option Nat :=
  (markedLength? ['x', 'X'] isHexadecimal cs).orElse fun _ =>
  (markedLength? ['b', 'B'] (fun c => c = '0' || c = '1') cs).orElse fun _ =>
  (markedLength? ['o', 'O'] (fun c => '0' ≤ c && c ≤ '7') cs).orElse fun _ =>
  match cs with
  | '0' :: rest => some (1 + moreDigits (· = '0') rest)
  | cs => let n := digitsLength isDecimal cs; if n = 0 then none else some n

def startsImaginary : List Char → Bool
  | c :: _ => c = 'j' || c = 'J'
  | [] => false

def numberLength? (cs : List Char) : Option Nat :=
  let whole := digitsLength isDecimal cs
  if whole ≠ 0 && startsImaginary (cs.drop whole) then some (whole + 1)
  else match fractionLength? cs with
    | some n => some (if startsImaginary (cs.drop n) then n + 1 else n)
    | none => wholeLength? cs

def signs : List String :=
  ["**=", "//=", "<<=", ">>=", "...", "!=", "%=", "&=", "**", "*=", "+=", "-=", "->", "//", "/=",
    ":=", "<<", "<=", "==", ">=", ">>", "@=", "^=", "|=", "%", "&", "(", ")", "*", "+", ",", "-",
    ".", "/", ":", ";", "<", "=", ">", "@", "[", "]", "^", "\x7b", "|", "\x7d", "~"]

def signLength? (cs : List Char) : Option Nat :=
  (signs.find? fun s => (Text.dropStart? s.toList cs).isSome).map String.length

def isWideLetter (c : Char) : Bool :=
  let n := c.toNat
  n == 0xaa || n == 0xb5 || n == 0xba || (0xc0 ≤ n && n ≤ 0x2c1 && n != 0xd7 && n != 0xf7) ||
    (0x370 ≤ n && n ≤ 0x1fff && n != 0x1680) || (0x2c00 ≤ n && n ≤ 0x2dff) ||
    (0x3041 ≤ n && n ≤ 0xd7ff) || (0xf900 ≤ n && n ≤ 0xfdff) || (0xfe70 ≤ n && n ≤ 0xfefc) ||
    (0xff10 ≤ n && n ≤ 0xffdc) || (0x10000 ≤ n && n ≤ 0x1cfff) || (0x20000 ≤ n && n ≤ 0x323af)

def isWordStart (c : Char) : Bool :=
  c.isAlpha || c = '_' || isWideLetter c

def isWordChar (c : Char) : Bool :=
  isWordStart c || isDecimal c || c = '²' || c = '³' || c = '¹'

def wordLength (cs : List Char) : Nat := (cs.takeWhile isWordChar).length

def apostrophe : Char := Char.ofNat 39

def quoteMarks : List (List Char) :=
  let one := ['b', 'B', 'r', 'R', 'u', 'U', 'f', 'F'].map fun c => [c]
  let r := ['r', 'R']
  let other := ['b', 'B', 'f', 'F']
  let two := (r.flatMap fun a => other.flatMap fun b => [[a, b], [b, a]])
  [] :: one ++ two

def quoteAt? (cs : List Char) : Option (Nat × Char) :=
  quoteMarks.findSome? fun mark =>
    match Text.dropStart? mark cs with
    | some (q :: _) => if q = '"' || q = apostrophe then some (mark.length, q) else none
    | _ => none

/-- How far a text goes to its closing quote, or to a backslash at the end of the line; the flag
tells which. -/
def closeLength? (q : Char) : Nat → List Char → Option (Nat × Bool)
  | 0, _ => none
  | fuel + 1, cs =>
    match cs with
    | [] => none
    | ['\\', '\n'] => some (2, true)
    | '\\' :: _ :: rest => (closeLength? q fuel rest).map fun (n, j) => (n + 2, j)
    | c :: rest =>
      if c = q then some (1, false)
      else if c = '\n' then none
      else (closeLength? q fuel rest).map fun (n, j) => (n + 1, j)

def tailLength? (q : Char) : Nat → List Char → Option Nat
  | 0, _ => none
  | fuel + 1, cs =>
    match cs with
    | [] => none
    | '\\' :: c :: rest =>
      if c = '\n' then none else (tailLength? q fuel rest).map (· + 2)
    | c :: rest => if c = q then some 1 else (tailLength? q fuel rest).map (· + 1)

def tripleLength? (q : Char) : Nat → List Char → Option Nat
  | 0, _ => none
  | fuel + 1, cs =>
    match cs with
    | [] => none
    | '\\' :: c :: rest =>
      if c = '\n' then none else (tripleLength? q fuel rest).map (· + 2)
    | c :: rest =>
      if (Text.dropStart? [q, q, q] (c :: rest)).isSome then some 3
      else (tripleLength? q fuel rest).map (· + 1)

/-! ### Lines -/

structure Open where
  text : List Char
  quote : Char
  triple : Bool
  row : Nat
  column : Nat

structure Lexer where
  level : Int := 0
  joined : Bool := false
  opened : Option Open := none
  indents : List Nat := [0]
  /-- Lexemes so far, the last one first. -/
  done : List Lexeme := []

namespace Lexer

def emit (l : Lexer) (kind : Kind) (text : List Char) (row column : Nat) : Lexer :=
  { l with done := ⟨kind, String.ofList text, row, column⟩ :: l.done }

def isSpace (c : Char) : Bool := c = ' ' || c = '\x0c' || c = '\t'

def emitSign (l : Lexer) (text : List Char) (row column : Nat) : Lexer :=
  let level := match text with
    | '(' :: _ | '[' :: _ | '\x7b' :: _ => l.level + 1
    | ')' :: _ | ']' :: _ | '\x7d' :: _ => l.level - 1
    | _ => l.level
  { l.emit .sign text row column with level }

def scan (row : Nat) : Nat → Nat → List Char → Lexer → Lexer
  | 0, _, _, l => l
  | fuel + 1, column, cs, l =>
    match cs with
    | [] => l
    | first :: others =>
      let spaces := (cs.takeWhile isSpace).length
      let body := cs.drop spaces
      let start := column + spaces
      let go (n : Nat) (l : Lexer) : Lexer := scan row fuel (start + n) (body.drop n) l
      let error : Lexer := scan row fuel (column + 1) others (l.emit .stray [first] row column)
      let word : Lexer :=
        let n := wordLength body
        if n = 0 then error
        else
          let kind := if (body.head?.map isWordStart).getD false then Kind.name else .sign
          go n (l.emit kind (body.take n) row start)
      let quotedWord (mark : Nat) (q : Char) : Lexer :=
        match closeLength? q (body.length + 1) (body.drop (mark + 1)) with
        | some (n, false) =>
          go (mark + 1 + n) (l.emit .quoted (body.take (mark + 1 + n)) row start)
        | some (_, true) => { l with opened := some ⟨body, q, false, row, start⟩ }
        | none => word
      match body with
      | [] => l
      | ['\\', '\n'] => { l with joined := true }
      | '#' :: _ =>
        let n := (body.takeWhile fun c => c ≠ '\n').length
        go n (l.emit .comment (body.take n) row start)
      | c :: _ =>
        match quoteAt? body with
        | some (mark, q) =>
          if (Text.dropStart? [q, q, q] (body.drop mark)).isSome then
            match tripleLength? q (body.length + 1) (body.drop (mark + 3)) with
            | some n => go (mark + 3 + n) (l.emit .quoted (body.take (mark + 3 + n)) row start)
            | none => { l with opened := some ⟨body, q, true, row, start⟩ }
          else quotedWord mark q
        | none =>
          match numberLength? body with
          | some n => go n (l.emit .number (body.take n) row start)
          | none =>
            if c = '\n' then
              go 1 (l.emit (if l.level > 0 then .blank else .newline) ['\n'] row start)
            else match signLength? body with
              | some n => go n (l.emitSign (body.take n) row start)
              | none => word

def indentOf : Nat → Nat → List Char → Nat × Nat
  | width, n, ' ' :: cs => indentOf (width + 1) (n + 1) cs
  | width, n, '\t' :: cs => indentOf ((width / 8 + 1) * 8) (n + 1) cs
  | _, n, '\x0c' :: cs => indentOf 0 (n + 1) cs
  | width, n, _ => (width, n)

def dedent (width row column : Nat) : List Nat → Lexer → Except Fault Lexer
  | [], l => .ok { l with indents := [] }
  | i :: rest, l =>
    if width < i then
      if (i :: rest).contains width then
        dedent width row column rest (l.emit .dedent [] row column)
      else .error .badIndent
    else .ok { l with indents := i :: rest }

end Lexer

inductive Lexer.Next where
  | more (l : Lexer)
  | stop (l : Lexer)
  | fail (l : Lexer) (cause : Fault)

namespace Lexer

def resume (l : Lexer) (o : Open) (row : Nat) (line : List Char) : Lexer :=
  let found := if o.triple then tripleLength? o.quote (line.length + 1) line
    else tailLength? o.quote (line.length + 1) line
  match found with
  | some n =>
    let l := { l.emit .quoted (o.text ++ line.take n) o.row o.column with opened := none }
    l.scan row (line.length + 1) n (line.drop n)
  | none =>
    let joins := (Text.dropStart? ['\n', '\\'] line.reverse).isSome
    if !o.triple && !joins then
      { l.emit .stray (o.text ++ line) o.row o.column with opened := none }
    else { l with opened := some { o with text := o.text ++ line } }

def fresh (l : Lexer) (row : Nat) (line : List Char) : Next :=
  let (width, n) := indentOf 0 0 line
  let body := line.drop n
  match body with
  | [] => .stop l
  | '\n' :: _ => .more (l.emit .blank body row n)
  | '#' :: _ =>
    let text := body.takeWhile fun c => c ≠ '\n'
    let l := l.emit .comment text row n
    .more (l.emit .blank (body.drop text.length) row (n + text.length))
  | _ =>
    let l := if width > l.indents.headD 0
      then { l.emit .indent (line.take n) row 0 with indents := width :: l.indents } else l
    match dedent width row n l.indents l with
    | .error cause => .fail l cause
    | .ok l => .more (l.scan row (line.length + 1) n body)

def next (l : Lexer) (row : Nat) (line : List Char) : Next :=
  match l.opened with
  | some o => .more (l.resume o row line)
  | none =>
    if l.level = 0 && !l.joined then l.fresh row line
    else .more ({ l with joined := false }.scan row (line.length + 1) 0 line)

def finish (l : Lexer) (row : Nat) (last : List Char) : Lexer :=
  let ended := last.isEmpty || last.getLast? = some '\n' ||
    ((last.dropWhile Text.isBlank).head? = some '#')
  let l := if ended then l else l.emit .newline [] (row - 1) last.length
  let l := (l.indents.drop 1).foldl (fun l _ => l.emit .dedent [] row 0) l
  l.emit .finish [] row 0

/-- All lines in turn; `last` is the line before. Lexemes before a failure are kept. -/
def run (row : Nat) (last : List Char) : List (List Char) → Lexer → Lexer × Option Fault
  | [], l =>
    if l.opened.isSome || l.level ≠ 0 || l.joined then (l, some .unfinishedText)
    else (l.finish row last, none)
  | line :: rest, l =>
    match l.next row line with
    | .more l => run (row + 1) line rest l
    | .stop l => (l.finish row last, none)
    | .fail l cause => (l, some cause)

end Lexer

def lexemes (lines : List String) : List Lexeme × Option Fault :=
  let (l, cause) := Lexer.run 1 [] (lines.map String.toList) {}
  (l.done.reverse, cause)

end EvmAudit.Listing
