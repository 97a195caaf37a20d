import EvmAudit.Fault
import EvmAudit.Text.Numeral

/-! Version numbers: numerals with dots between, where zeros at the end do not count. -/

namespace EvmAudit.Version

def isZeros (piece : String) : Bool := piece ≠ "" && piece.toList.all (· = '0')

/-- The pieces between the dots, without pieces of zeros at the end. The first piece stays. -/
def pieces (s : String) : List String :=
  let body := match s.toList.reverse with
    | '\n' :: rest => String.ofList rest.reverse
    | _ => s
  match Text.splitAt '.' body with
  | [] => []
  | first :: rest => first :: (rest.reverse.dropWhile isZeros).reverse

def read (s : String) : Except Fault (List Int) :=
  (pieces s).mapM fun piece => (Numeral.read 10 piece).elim (.error .badNumeral) .ok

def order : List Int → List Int → Ordering
  | [], [] => .eq
  | [], _ :: _ => .lt
  | _ :: _, [] => .gt
  | a :: as, b :: bs => (compare a b).then (order as bs)

def compareTexts (a b : String) : Except Fault Ordering := do
  return order (← read a) (← read b)

end EvmAudit.Version
