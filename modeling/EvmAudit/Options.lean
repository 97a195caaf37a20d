import EvmAudit.Text.Numeral

/-! The options of the command line. An option may be shortened as long as it stays the only one
meant, and a value may follow in the same word. -/

namespace EvmAudit

structure Options where
  source : Option String := none
  remoteUrl : Option String := none
  remap : Option String := none
  timeout : Option Int := none
  gasLimit : Option Int := none
  rootPath : Option String := none
  loopLimit : Option Int := none
  depthLimit : Option Int := none
  allowPaths : Option String := none
  globalTimeout : Option Int := none
  evm : Bool := false
  web : Bool := false
  json : Bool := false
  paths : Bool := false
  debug : Bool := false
  state : Bool := false
  report : Bool := false
  verbose : Bool := false
  parallel : Bool := false
  bytecode : Bool := false
  assertion : Bool := false
  standardJson : Bool := false
  globalBlockchain : Bool := false
  compilationError : Bool := false
  generateTestCases : Bool := false
  standardJsonOutput : Bool := false
  deriving DecidableEq, Repr, Inhabited

namespace Options

/-- What an option does: it sets a switch, takes a value, or shows something and ends. -/
inductive Effect where
  | switch (set : Options → Options)
  | value (set : String → Options → Option Options)
  | help
  | version

structure Spec where
  short : String
  long : String
  effect : Effect

def textual (short long : String) (set : String → Options → Options) : Spec :=
  ⟨short, long, .value fun s o => some (set s o)⟩

def numeric (short long : String) (set : Int → Options → Options) : Spec :=
  ⟨short, long, .value fun s o => (Numeral.read 10 s).map fun n => set n o⟩

def switch (short long : String) (set : Options → Options) : Spec := ⟨short, long, .switch set⟩

def specs : List Spec :=
  [⟨"-h", "--help", .help⟩,
    ⟨"-s", "--source", .value fun s o =>
      if o.remoteUrl.isSome then none else some { o with source := some s }⟩,
    ⟨"-ru", "--remoteURL", .value fun s o =>
      if o.source.isSome then none else some { o with remoteUrl := some s }⟩,
    ⟨"", "--version", .version⟩,
    textual "-rmp" "--remap" fun s o => { o with remap := some s },
    numeric "-t" "--timeout" fun n o => { o with timeout := some n },
    numeric "-gl" "--gaslimit" fun n o => { o with gasLimit := some n },
    textual "-rp" "--root-path" fun s o => { o with rootPath := some s },
    numeric "-ll" "--looplimit" fun n o => { o with loopLimit := some n },
    numeric "-dl" "--depthlimit" fun n o => { o with depthLimit := some n },
    textual "-ap" "--allow-paths" fun s o => { o with allowPaths := some s },
    numeric "-glt" "--global-timeout" fun n o => { o with globalTimeout := some n },
    switch "-e" "--evm" fun o => { o with evm := true },
    switch "-w" "--web" fun o => { o with web := true },
    switch "-j" "--json" fun o => { o with json := true },
    switch "-p" "--paths" fun o => { o with paths := true },
    switch "-db" "--debug" fun o => { o with debug := true },
    switch "-st" "--state" fun o => { o with state := true },
    switch "-r" "--report" fun o => { o with report := true },
    switch "-v" "--verbose" fun o => { o with verbose := true },
    switch "-pl" "--parallel" fun o => { o with parallel := true },
    switch "-b" "--bytecode" fun o => { o with bytecode := true },
    switch "-a" "--assertion" fun o => { o with assertion := true },
    switch "-sj" "--standard-json" fun o => { o with standardJson := true },
    switch "-gb" "--globalblockchain" fun o => { o with globalBlockchain := true },
    switch "-ce" "--compilation-error" fun o => { o with compilationError := true },
    switch "-gtc" "--generate-test-cases" fun o => { o with generateTestCases := true },
    switch "-sjo" "--standard-json-output" fun o => { o with standardJsonOutput := true }]

def spellings : List (String × Spec) :=
  specs.flatMap fun s =>
    (if s.short = "" then [] else [(s.short, s)]) ++ [(s.long, s)]

def named? (name : String) : Option Spec := spellings.lookup name

inductive Arg where
  /-- An option as it is written, with a value in the same word. -/
  | option (written : String) (spec : Spec) (value : Option String)
  | unknown
  | plain (text : String)
  /-- The mark after which no word is an option. -/
  | mark

inductive Refusal where
  | misuse
  | help
  | version
  deriving DecidableEq, Repr

def cut? (word : String) : Option (String × String) :=
  match word.toList.span (· ≠ '=') with
  | (name, _ :: value) => some (String.ofList name, String.ofList value)
  | (_, []) => none

/-- The options that a word can be short for. A word with one dash can also be a short option with
its value. -/
def candidates (word : String) : List Arg :=
  match word.toList with
  | '-' :: '-' :: _ =>
    let (start, value) := match cut? word with
      | some (start, value) => (start, some value)
      | none => (word, none)
    spellings.filterMap fun (name, spec) =>
      if Text.startsWith name start then some (.option name spec value) else none
  | '-' :: c :: rest =>
    let short := String.ofList ['-', c]
    spellings.filterMap fun (name, spec) =>
      if name = short then some (.option name spec (some (String.ofList rest)))
      else if Text.startsWith name word then some (.option name spec none)
      else none
  | _ => []

def isDigits (cs : List Char) : Bool := cs.all Char.isDigit

def isNegative (word : String) : Bool :=
  match word.toList with
  | '-' :: cs =>
    match cs.span (· ≠ '.') with
    | (whole, []) => !whole.isEmpty && isDigits whole
    | (whole, _ :: places) => isDigits whole && !places.isEmpty && isDigits places
  | _ => false

def argOf (word : String) : Except Refusal Arg :=
  match word.toList with
  | '-' :: _ :: _ =>
    match named? word with
    | some spec => .ok (.option word spec none)
    | none =>
      match (cut? word).bind fun (name, value) => (named? name).map fun s => (name, s, value) with
      | some (name, spec, value) => .ok (.option name spec (some value))
      | none =>
        match candidates word with
        | [one] => .ok one
        | _ :: _ :: _ => .error .misuse
        | [] =>
          if isNegative word || word.toList.contains ' ' then .ok (.plain word) else .ok .unknown
  | _ => .ok (.plain word)

def argsOf : List String → Except Refusal (List Arg)
  | [] => .ok []
  | "--" :: rest => .ok (.mark :: rest.map .plain)
  | word :: rest => do
    let arg ← argOf word
    return arg :: (← argsOf rest)

/-- The options in one word. After a switch of one letter further letters are options, and a value
can follow. -/
def cluster (spec : Spec) (single : Bool) :
    List Char → Except Refusal (List (Spec × Option String))
  | [] =>
    match spec.effect with
    | .value _ => .ok [(spec, some "")]
    | _ => .error .misuse
  | c :: rest =>
    match spec.effect with
    | .value _ => .ok [(spec, some (String.ofList (c :: rest)))]
    | _ =>
      if !single then .error .misuse
      else match named? (String.ofList ['-', c]) with
        | none => .error .misuse
        | some next => do
          let more ← if rest.isEmpty then pure [(next, none)] else cluster next true rest
          return (spec, none) :: more

def takesValue (spec : Spec) : Bool :=
  match spec.effect with
  | .value _ => true
  | _ => false

def waits (steps : List (Spec × Option String)) : Bool :=
  match steps.getLast? with
  | some (spec, none) => takesValue spec
  | _ => false

def applyStep (word : Option String) (o : Options) (step : Spec × Option String) :
    Except Refusal Options :=
  match step.1.effect with
  | .help => .error .help
  | .version => .error .version
  | .switch set => .ok (set o)
  | .value set =>
    match step.2.orElse fun _ => word with
    | some text => (set text o).elim (.error .misuse) .ok
    | none => .error .misuse

def apply (o : Options) (stray : Bool) : List Arg → Except Refusal (Options × Bool)
  | [] => .ok (o, stray)
  | .unknown :: rest | .plain _ :: rest | .mark :: rest => apply o true rest
  | .option written spec value :: rest => do
    let steps ← match value with
      | some value => cluster spec (!Text.startsWith written "--") value.toList
      | none => pure [(spec, none)]
    if waits steps then
      match rest with
      | .plain text :: rest => apply (← steps.foldlM (applyStep (some text)) o) stray rest
      | _ => .error .misuse
    else apply (← steps.foldlM (applyStep none) o) stray rest

/-- The options that the words ask for. A source or an address has to be among them. -/
def read (words : List String) : Except Refusal Options := do
  let (o, stray) ← apply {} false (← argsOf words)
  if stray || (o.source.isNone && o.remoteUrl.isNone) then throw .misuse
  return o

end Options

end EvmAudit
