/-! Blank characters, and the ways of cutting a text into pieces: at one character, at blanks,
into lines. -/

namespace EvmAudit.Text

def isBlank (c : Char) : Bool :=
  let n := c.toNat
  (9 ≤ n && n ≤ 13) || (28 ≤ n && n ≤ 32) || n == 0x85 || n == 0xa0 || n == 0x1680 ||
    (0x2000 ≤ n && n ≤ 0x200a) || n == 0x2028 || n == 0x2029 || n == 0x202f || n == 0x205f ||
    n == 0x3000

def dropEndWhile (p : Char → Bool) (cs : List Char) : List Char :=
  (cs.reverse.dropWhile p).reverse

def strip (p : Char → Bool) (s : String) : String :=
  String.ofList (dropEndWhile p (s.toList.dropWhile p))

def stripStart (p : Char → Bool) (s : String) : String :=
  String.ofList (s.toList.dropWhile p)

def trim (s : String) : String := strip isBlank s

/-- Cuts at every occurrence of a character; there is one piece more than occurrences. -/
def cutAt (sep : Char) : List Char → List (List Char)
  | [] => [[]]
  | c :: cs =>
    if c = sep then [] :: cutAt sep cs
    else match cutAt sep cs with
      | [] => [[c]]
      | piece :: rest => (c :: piece) :: rest

def splitAt (sep : Char) (s : String) : List String :=
  (cutAt sep s.toList).map String.ofList

def wordsFrom (run : List Char) : List Char → List (List Char)
  | [] => if run.isEmpty then [] else [run.reverse]
  | c :: cs =>
    if isBlank c then
      if run.isEmpty then wordsFrom [] cs else run.reverse :: wordsFrom [] cs
    else wordsFrom (c :: run) cs

def words (s : String) : List String := (wordsFrom [] s.toList).map String.ofList

def dropStart? : List Char → List Char → Option (List Char)
  | [], cs => some cs
  | p :: ps, c :: cs => if p = c then dropStart? ps cs else none
  | _ :: _, [] => none

theorem length_getD_dropStart? (start s : List Char) :
    ((dropStart? start s).getD s).length ≤ s.length := by
  induction start generalizing s with
  | nil => simp [dropStart?]
  | cons c cs ih =>
    cases s with
    | nil => simp [dropStart?]
    | cons d ds =>
      by_cases h : c = d
      · have := ih ds
        cases hd : dropStart? cs ds <;> simp_all [dropStart?]
        omega
      · simp [dropStart?, h]

def startsWith (s start : String) : Bool := (dropStart? start.toList s.toList).isSome

def endsWith (s finish : String) : Bool :=
  (dropStart? finish.toList.reverse s.toList.reverse).isSome

def findFrom (needle : List Char) (at_ : Nat) : List Char → Option Nat
  | [] => if needle.isEmpty then some at_ else none
  | c :: cs =>
    if (dropStart? needle (c :: cs)).isSome then some at_ else findFrom needle (at_ + 1) cs

def find? (needle s : String) : Option Nat := findFrom needle.toList 0 s.toList

def contains (needle s : String) : Bool := (find? needle s).isSome

/-- Replaces the occurrences of a text from left to right; `skip` characters belong to an
occurrence that has been replaced. -/
def replaceFrom (old new : List Char) (skip : Nat) : List Char → List Char
  | [] => []
  | c :: cs =>
    match skip with
    | skip + 1 => replaceFrom old new skip cs
    | 0 =>
      if !old.isEmpty && (dropStart? old (c :: cs)).isSome then
        new ++ replaceFrom old new (old.length - 1) cs
      else c :: replaceFrom old new 0 cs

def replace (old new s : String) : String :=
  String.ofList (replaceFrom old.toList new.toList 0 s.toList)

def splitOnFrom (sep run : List Char) (skip : Nat) : List Char → List (List Char)
  | [] => [run.reverse]
  | c :: cs =>
    match skip with
    | skip + 1 => splitOnFrom sep run skip cs
    | 0 =>
      if !sep.isEmpty && (dropStart? sep (c :: cs)).isSome then
        run.reverse :: splitOnFrom sep [] (sep.length - 1) cs
      else splitOnFrom sep (c :: run) 0 cs

def splitOn (sep s : String) : List String :=
  (splitOnFrom sep.toList [] 0 s.toList).map String.ofList

def unifyBreaks : List Char → List Char
  | [] => []
  | '\r' :: '\n' :: cs => '\n' :: unifyBreaks cs
  | '\r' :: cs => '\n' :: unifyBreaks cs
  | c :: cs => c :: unifyBreaks cs

def linesFrom (run : List Char) : List Char → List (List Char)
  | [] => if run.isEmpty then [] else [run.reverse]
  | c :: cs =>
    if c = '\n' then ('\n' :: run).reverse :: linesFrom [] cs else linesFrom (c :: run) cs

def lines (s : String) : List String :=
  (linesFrom [] (unifyBreaks s.toList)).map String.ofList

/-- A position from the start, or from the end when negative, kept inside the text. -/
def clampIndex (length : Nat) (i : Int) : Nat :=
  if i < 0 then (length + i).toNat else min i.toNat length

def sliceList {α : Type} (xs : List α) (i j : Int) : List α :=
  let start := clampIndex xs.length i
  (xs.take (clampIndex xs.length j)).drop start

def slice (s : String) (i j : Int) : String := String.ofList (sliceList s.toList i j)

def collapse (inRun : Bool) : List Char → List Char
  | [] => []
  | c :: cs =>
    if isBlank c then if inRun then collapse true cs else ' ' :: collapse true cs
    else c :: collapse false cs

def collapseBlanks (s : String) : String := String.ofList (collapse false s.toList)

end EvmAudit.Text
