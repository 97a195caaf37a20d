import EvmAudit.Table
import EvmAudit.Text.Blank
import EvmAudit.Value

/-! A sequence of bytes that is zero but for the places written to. Its length may be far beyond
what was written. -/

namespace EvmAudit

structure Bytes where
  size : Nat := 0
  written : Table Nat Value := {}
  deriving Inhabited

namespace Bytes

def get (b : Bytes) (i : Nat) : Value := (b.written.get? i).getD (.int 0)

def extend (b : Bytes) (n : Nat) : Bytes := { b with size := b.size + n }

def set (b : Bytes) (i : Nat) (v : Value) : Bytes := { b with written := b.written.insert i v }

def ofList (vs : List Value) : Bytes where
  size := vs.length
  written := ⟨vs.mapIdx fun i v => (i, v)⟩

/-- The bytes between two positions, which count from the end when negative. -/
def slice (b : Bytes) (i j : Int) : List Value :=
  let start := Text.clampIndex b.size i
  (List.range' start (Text.clampIndex b.size j - start)).map b.get

def toList (b : Bytes) : List Value := (List.range b.size).map b.get

@[simp] theorem get_set_self (b : Bytes) (i : Nat) (v : Value) : (b.set i v).get i = v := by
  simp [get, set]

theorem get_set_of_ne {i j : Nat} (h : j ≠ i) (b : Bytes) (v : Value) :
    (b.set i v).get j = b.get j := by
  simp [get, set, Table.get?_insert_of_ne h]

@[simp] theorem get_extend (b : Bytes) (n i : Nat) : (b.extend n).get i = b.get i := rfl

@[simp] theorem size_extend (b : Bytes) (n : Nat) : (b.extend n).size = b.size + n := rfl

@[simp] theorem size_set (b : Bytes) (i : Nat) (v : Value) : (b.set i v).size = b.size := rfl

@[simp] theorem size_ofList (vs : List Value) : (ofList vs).size = vs.length := rfl

@[simp] theorem length_toList (b : Bytes) : b.toList.length = b.size := by simp [toList]

end Bytes

end EvmAudit
