/-! Tables that keep their keys in the order of first insertion. Writing a key that is there
already changes its entry in place. -/

namespace EvmAudit

structure Table (κ ν : Type) where
  entries : List (κ × ν) := []
  deriving DecidableEq, Inhabited

namespace Table

variable {κ ν μ : Type}

def empty : Table κ ν := ⟨[]⟩

def keys (t : Table κ ν) : List κ := t.entries.map Prod.fst

def values (t : Table κ ν) : List ν := t.entries.map Prod.snd

def size (t : Table κ ν) : Nat := t.entries.length

def isEmpty (t : Table κ ν) : Bool := t.entries.isEmpty

def mapValues (f : ν → μ) (t : Table κ ν) : Table κ μ :=
  ⟨t.entries.map fun e => (e.1, f e.2)⟩

variable [DecidableEq κ]

def find? (k : κ) : List (κ × ν) → Option ν
  | [] => none
  | (k', v) :: rest => if k' = k then some v else find? k rest

def get? (t : Table κ ν) (k : κ) : Option ν := find? k t.entries

def contains (t : Table κ ν) (k : κ) : Bool := (t.get? k).isSome

def put (k : κ) (v : ν) : List (κ × ν) → List (κ × ν)
  | [] => [(k, v)]
  | (k', v') :: rest => if k' = k then (k', v) :: rest else (k', v') :: put k v rest

def insert (t : Table κ ν) (k : κ) (v : ν) : Table κ ν := ⟨put k v t.entries⟩

def erase (t : Table κ ν) (k : κ) : Table κ ν := ⟨t.entries.filter fun e => !decide (e.1 = k)⟩

def ofList (entries : List (κ × ν)) : Table κ ν :=
  entries.foldl (fun t e => t.insert e.1 e.2) empty

theorem find?_put_self (k : κ) (v : ν) (es : List (κ × ν)) : find? k (put k v es) = some v := by
  induction es with
  | nil => simp [put, find?]
  | cons e es ih => by_cases h : e.1 = k <;> simp [put, find?, h, ih]

theorem find?_put_of_ne {k k' : κ} (h : k' ≠ k) (v : ν) (es : List (κ × ν)) :
    find? k' (put k v es) = find? k' es := by
  induction es with
  | nil => simp [put, find?, Ne.symm h]
  | cons e es ih =>
    by_cases he : e.1 = k
    · simp [put, find?, he, Ne.symm h]
    · simp [put, find?, he, ih]

@[simp] theorem get?_insert_self (t : Table κ ν) (k : κ) (v : ν) :
    (t.insert k v).get? k = some v :=
  find?_put_self k v t.entries

theorem get?_insert_of_ne {k k' : κ} (h : k' ≠ k) (t : Table κ ν) (v : ν) :
    (t.insert k v).get? k' = t.get? k' :=
  find?_put_of_ne h v t.entries

end Table

end EvmAudit
