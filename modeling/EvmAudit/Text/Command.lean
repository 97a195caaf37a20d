import EvmAudit.Fault
import EvmAudit.Text.Blank

/-! Command lines cut into words. Blanks part words; quotes and backslashes keep blanks inside a
word, and an empty pair of quotes is a word. -/

namespace EvmAudit.Command

inductive Mode where
  | between
  | word
  /-- Inside quotes of this kind. -/
  | quoted (quote : Char)
  /-- After a backslash, with the quotes around it. -/
  | escaped (inside : Option Char)
  deriving DecidableEq, Repr

def isSeparator (c : Char) : Bool := c = ' ' || c = '\t' || c = '\r' || c = '\n'

def isQuote (c : Char) : Bool := c = '"' || c = Char.ofNat 39

/-- The words from a mode on; `run` is the word so far, last character first, and `started` tells
that quotes have begun it. -/
def wordsFrom (mode : Mode) (run : List Char) (started : Bool) :
    List Char → Except Fault (List (List Char))
  | [] =>
    match mode with
    | .between => .ok []
    | .word => .ok (if run.isEmpty && !started then [] else [run.reverse])
    | .quoted _ | .escaped _ => .error .openQuote
  | c :: cs =>
    match mode with
    | .between =>
      if isSeparator c then wordsFrom .between [] false cs
      else if c = '\\' then wordsFrom (.escaped none) [] false cs
      else if isQuote c then wordsFrom (.quoted c) [] true cs
      else wordsFrom .word [c] false cs
    | .word =>
      if isSeparator c then do
        let rest ← wordsFrom .between [] false cs
        return if run.isEmpty && !started then rest else run.reverse :: rest
      else if c = '\\' then wordsFrom (.escaped none) run started cs
      else if isQuote c then wordsFrom (.quoted c) run true cs
      else wordsFrom .word (c :: run) started cs
    | .quoted q =>
      if c = q then wordsFrom .word run started cs
      else if c = '\\' && q = '"' then wordsFrom (.escaped (some q)) run started cs
      else wordsFrom (.quoted q) (c :: run) started cs
    | .escaped none => wordsFrom .word (c :: run) started cs
    | .escaped (some q) =>
      if c = '\\' || c = q then wordsFrom (.quoted q) (c :: run) started cs
      else wordsFrom (.quoted q) (c :: '\\' :: run) started cs

def words (line : String) : Except Fault (List String) := do
  return (← wordsFrom .between [] false line.toList).map String.ofList

end EvmAudit.Command
