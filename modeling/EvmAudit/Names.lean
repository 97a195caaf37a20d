import EvmAudit.Value

/-! Names of symbolic words. Three counters make names that have not been used; the other names are
fixed by what they stand for. -/

namespace EvmAudit

structure Names where
  stack : Nat := 0
  data : Nat := 0
  other : Nat := 0
  deriving DecidableEq, Repr, Inhabited

namespace Names

def freshStack (g : Names) : String × Names :=
  ("s" ++ toString (g.stack + 1), { g with stack := g.stack + 1 })

def freshData (g : Names) : String × Names :=
  ("Id_" ++ toString (g.data + 1), { g with data := g.data + 1 })

def freshOther (stem : String) (g : Names) : String × Names :=
  (stem ++ toString (g.other + 1), { g with other := g.other + 1 })

def freshArbitrary : Names → String × Names := freshOther "some_var_"
def freshAddress : Names → String × Names := freshOther "some_address_"
def freshGas : Names → String × Names := freshOther "gas_"
def freshBalance : Names → String × Names := freshOther "balance_"

def dataSize : String := "Id_size"
def gasPrice : String := "Ip"
def address : String := "Ia"
def caller : String := "Is"
def origin : String := "Io"

def conditions : String := "path_condition"

def memoryAt (p : Printer) (address : Value) : String := "mem_" ++ p.value address

/-- The storage word at a position, with the source variable it holds if that is known. -/
def storage (p : Printer) (position : Value) (label : String) : String :=
  "Ia_store-" ++ p.value position ++ "-" ++ label

def code (p : Printer) (owner position count : Value) : String :=
  "code_" ++ p.value owner ++ "_" ++ p.value position ++ "_" ++ p.value count

def codeSize (p : Printer) (owner : Value) : String := "code_size_" ++ p.value owner

end Names

inductive NameRequest where
  | stack | data | dataSize | arbitrary | arbitraryAddress | gas | gasPrice | address | caller
  | origin | balance
  | memoryAt (address : Value)
  | storage (position label : Value)
  | code (owner position count : Value)
  | codeSize (owner : Value)

def Names.answer (p : Printer) (g : Names) : NameRequest → String × Names
  | .stack => g.freshStack
  | .data => g.freshData
  | .dataSize => (dataSize, g)
  | .arbitrary => g.freshArbitrary
  | .arbitraryAddress => g.freshAddress
  | .gas => g.freshGas
  | .gasPrice => (gasPrice, g)
  | .address => (address, g)
  | .caller => (caller, g)
  | .origin => (origin, g)
  | .balance => g.freshBalance
  | .memoryAt a => (memoryAt p a, g)
  | .storage position label => (storage p position (p.value label), g)
  | .code owner position count => (code p owner position count, g)
  | .codeSize owner => (codeSize p owner, g)

end EvmAudit
