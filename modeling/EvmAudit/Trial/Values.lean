import EvmAudit.Value.Round
import EvmAudit.Value.Sample

/-! A trial of values: what is known of them, rounding, and flows of money. -/

namespace EvmAudit.Trial

def nested (n : Nat) : Document :=
  .object [("a", .ofInts [1, 2, 3]),
    ("b", .object [("c", .ofInts [4, 5]), ("d", .object [("e", .int 1)])]), ("f", .int 7),
    ("g", .ofInts ((List.range n).map Int.ofNat))]

def storageName (i : Nat) : String := Names.storage {} (.int i) ""

def sampleVars (n : Nat) : List Value :=
  (List.range n).map (fun i => .var ("x" ++ toString i)) ++
    (List.range (n / 2)).map fun i => .var (storageName i)

def sampleStorage (n : Nat) : Except Fault (Table Key Value) := do
  let rows ← (List.range (n / 2)).mapM fun i => do
    return (Key.at i, ← (Value.var (storageName i)).add (.int 1))
  return Table.ofList rows

def transfer (destination : String) : List Value := [.text "Ia", .text destination, .text "Iv"]

def placeOf (name : String) : Except Fault Document := do
  match ← storagePlace name with
  | .at n => return .int n
  | .named s => return .text s

def toInteger (v : Value) : Document := .int (v.toInt?.getD 0)

def values (n : Nat) : Except Fault Document := do
  let vars := sampleVars n
  let pairs ← (List.range n).mapM fun i =>
    (Value.var ("x" ++ toString i)).add (.var ("y" ++ toString i))
  let storage ← sampleStorage n
  let x := Value.var "x"
  let sum ← x.add (.var "y")
  let low ← x.lt (.int 1)
  let high ← x.gt (.int 2)
  let differ (a b : List (List Value)) : Except Fault Document := do
    return .int (if ← flowsDiffer decideSat a b then 1 else 0)
  return .array [nested n, .int (Value.allVars vars).length,
    .int (Value.allVars pairs).length, .bool x.isSymbolic, .bool (Value.int 5).isConcrete,
    .bool ([.int 1, .int 2, .int 3].all Value.isConcrete), .bool (isStorageName (storageName 0)),
    ← placeOf "Ia_store-0-foo", ← placeOf "Ia_store-foo-0",
    .object (storage.entries.map fun (k, v) =>
      (match k with | .at n => toString n | .named s => s, Sample.value v)),
    .array (← (List.range 3).mapM fun (i : Nat) => do
      return toInteger (← (Value.int (Int.pow 2 255 + i)).toSigned)),
    .array (← (List.range 3).mapM fun (i : Nat) => do
      return toInteger (← (Value.int (-i)).toUnsigned)),
    Sample.value (Value.int 5).toSymbolic, toInteger (← (Value.int 5).ceil32),
    .bool (sum.mentions "x"), .bool (sum.mentions "z"),
    ← differ [transfer "a"] [], ← differ [transfer "a"] [transfer "b"],
    ← differ [transfer "a"] [transfer "a"],
    .bool (← isFeasible decideSat [.ofCondition low] {} [.ofCondition high]),
    .bool (← isFalseAlarm decideSat [.ofCondition low] {} [.ofCondition low])]

end EvmAudit.Trial
