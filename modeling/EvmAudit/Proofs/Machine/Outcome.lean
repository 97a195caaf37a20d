import EvmAudit.Explore

/-! What a computation comes to in a state: its result and the state after it, one equation for each
way of building computations. -/

namespace EvmAudit

/-- The state after an instruction has moved the program counter and taken its operands. -/
def Machine.taken (m : Machine) (rest : List Value) : Machine :=
  { m with path := { m.path with
      stack := rest
      world := { m.path.world with pc := m.path.world.pc + 1 } } }

namespace Exec

def outcome {α : Type} (x : Exec α) (m : Machine) : Except Fault α × Machine := x.run.run m

/-- Traced from `m` at `site`, the instruction `text` ends in `m'` without a fault. -/
abbrev Traces (ctx : Context) (site : Site) (text : String) (m m' : Machine) : Prop :=
  (traced ctx site text).outcome m = (.ok (), m')

variable {α β : Type} {m : Machine}

theorem outcome_bind (x : Exec α) (f : α → Exec β) (m : Machine) :
    (x >>= f).outcome m =
      match x.outcome m with
      | (.ok a, m') => (f a).outcome m'
      | (.error e, m') => (.error e, m') := by
  simp only [outcome, ExceptT.run_bind, StateT.run_bind]
  rcases h : StateT.run (ExceptT.run x) m with ⟨_ | _, _⟩ <;> rfl

@[simp] theorem outcome_pure (a : α) (m : Machine) : outcome (pure a) m = (.ok a, m) := rfl

@[simp] theorem outcome_throw (e : Fault) (m : Machine) :
    outcome (throw e : Exec α) m = (.error e, m) := rfl

@[simp] theorem outcome_ofExcept (x : Except Fault α) (m : Machine) :
    outcome (ofExcept x) m = (x, m) := rfl

@[simp] theorem outcome_getPath (m : Machine) : outcome getPath m = (.ok m.path, m) := rfl

@[simp] theorem outcome_getShared (m : Machine) : outcome getShared m = (.ok m.shared, m) := rfl

theorem outcome_bind_getPath (f : Path → Exec β) (m : Machine) :
    (getPath >>= f).outcome m = (f m.path).outcome m := rfl

theorem outcome_bind_getShared (f : Shared → Exec β) (m : Machine) :
    (getShared >>= f).outcome m = (f m.shared).outcome m := rfl

@[simp] theorem outcome_modifyPath (f : Path → Path) (m : Machine) :
    outcome (modifyPath f) m = (.ok (), { m with path := f m.path }) := rfl

@[simp] theorem outcome_modifyShared (f : Shared → Shared) (m : Machine) :
    outcome (modifyShared f) m = (.ok (), { m with shared := f m.shared }) := rfl

theorem outcome_tryCatch (x : Exec α) (f : Fault → Exec α) (m : Machine) :
    outcome (tryCatch x f) m =
      match x.outcome m with
      | (.ok a, m') => (.ok a, m')
      | (.error e, m') => (f e).outcome m' := by
  change (ExceptT.tryCatch x f).run.run m = _
  simp only [outcome, ExceptT.tryCatch, ExceptT.run_mk, StateT.run_bind]
  change (StateT.run (ExceptT.run x) m >>= _) = _
  rcases h : StateT.run (ExceptT.run x) m with ⟨_ | _, _⟩ <;> rfl

theorem outcome_bind_eq_ok {x : Exec α} {f : α → Exec β} {b : β} {m m' : Machine} :
    (x >>= f).outcome m = (.ok b, m') ↔ ∃ a m₁, x.outcome m = (.ok a, m₁) ∧
    (f a).outcome m₁ = (.ok b, m') := by
  rw [outcome_bind]
  rcases hx : x.outcome m with ⟨_ | a, m₁⟩
  · simp
  · constructor
    · exact fun h => ⟨a, m₁, rfl, h⟩
    · rintro ⟨_, _, h, hf⟩
      cases h
      exact hf

/-! ### The stack -/

theorem outcome_eq_of_isOk {x : Exec Unit} {m : Machine} (h : (x.outcome m).1.isOk = true) :
    x.outcome m = (.ok (), (x.outcome m).2) := by
  generalize x.outcome m = o at h ⊢
  obtain ⟨e | u, m'⟩ := o
  · exact absurd h Bool.false_ne_true
  · rfl

theorem outcome_ofExcept_bind_eq_ok {x : Except Fault α} {f : α → Exec β} {b : β} {m m' : Machine} :
    outcome (ofExcept x >>= f) m = (.ok b, m') ↔ ∃ a, x = .ok a ∧
    outcome (f a) m = (.ok b, m') := by
  rw [outcome_bind, outcome_ofExcept]
  cases x with
  | error e => simp
  | ok a => simp

@[simp] theorem outcome_getWorld (m : Machine) : outcome getWorld m = (.ok m.path.world, m) := rfl

theorem outcome_bind_getWorld (f : World → Exec β) (m : Machine) :
    (getWorld >>= f).outcome m = (f m.path.world).outcome m := rfl

@[simp] theorem outcome_advance (n : Int) (m : Machine) :
    outcome (advance n) m =
      (.ok (), { m with path := { m.path with
        world := { m.path.world with pc := m.path.world.pc + n } } }) := rfl

@[simp] theorem outcome_push (v : Value) (m : Machine) :
    outcome (push v) m =
      (.ok (), { m with path := { m.path with stack := v :: m.path.stack } }) := rfl

theorem outcome_need {n : Nat} (h : n ≤ m.path.stack.length) :
    outcome (need n) m = (.ok (), m) := by
  have h' : ¬ m.path.stack.length < n := Nat.not_lt.2 h
  rw [need, outcome_bind_getPath]
  simp only [h', if_false, outcome_pure]

theorem outcome_need_of_lt {n : Nat} (h : m.path.stack.length < n) :
    outcome (need n) m = (.error .stackUnderflow, m) := by
  rw [need, outcome_bind_getPath]
  simp only [h, if_true, outcome_throw]

theorem outcome_pop {v : Value} {rest : List Value} (h : m.path.stack = v :: rest) :
    outcome pop m = (.ok v, { m with path := { m.path with stack := rest } }) := by
  rw [pop, outcome_bind_getPath]
  simp only [h]
  rfl

theorem outcome_wordNamed (name : String) (m : Machine) :
    ∃ v vars, outcome (wordNamed name) m = (.ok v, { m with path := { m.path with vars } }) := by
  rw [wordNamed, outcome_bind_getPath]
  split
  · exact ⟨_, m.path.vars, rfl⟩
  · exact ⟨_, _, rfl⟩

variable {a b c : Value} {rest : List Value}

theorem outcome_need_advance {n : Nat} (x : Exec α) (h : n ≤ m.path.stack.length) :
    outcome (do need n; advance 1; x) m = x.outcome (m.taken m.path.stack) := by
  rw [outcome_bind, outcome_need h]
  rfl

theorem outcome_pop_taken (f : Value → Exec α) (m : Machine) :
    outcome (do let a ← pop; f a) (m.taken (a :: rest)) = (f a).outcome (m.taken rest) := rfl

theorem outcome_unary (ctx : Context) (f : Value → Exec Value) (h : m.path.stack = a :: rest) :
    outcome (unary ctx f) m =
      outcome (do let v ← f a; push (ctx.simplify.value v)) (m.taken rest) := by
  rw [unary, outcome_need_advance _ (by simp [h]), h]
  rfl

theorem outcome_binary (ctx : Context) (f : Value → Value → Exec Value)
    (h : m.path.stack = a :: b :: rest) : outcome (binary ctx f) m =
      outcome (do let v ← f a b; push (ctx.simplify.value v)) (m.taken rest) := by
  rw [binary, outcome_need_advance _ (by simp [h]), h]
  rfl

theorem outcome_of_lt {n : Nat} (x : Exec α) (h : m.path.stack.length < n) :
    outcome (do need n; x) m = (.error .stackUnderflow, m) := by
  rw [outcome_bind, outcome_need_of_lt h]

theorem items_of_need {n : Nat} {x : Exec α} {m' : Machine} {r : α}
    (h : outcome (do need n; x) m = (.ok r, m')) : n ≤ m.path.stack.length := by
  refine Nat.le_of_not_lt fun hitems => ?_
  rw [outcome_of_lt x hitems] at h
  cases h

theorem taken_of_need {n : Nat} {x : Exec Unit} {m' : Machine}
    (h : (do need n; advance 1; x).outcome m = (.ok (), m')) :
    n ≤ m.path.stack.length ∧ x.outcome (m.taken m.path.stack) = (.ok (), m') := by
  have hitems : n ≤ m.path.stack.length := items_of_need h
  exact ⟨hitems, by rwa [outcome_need_advance _ hitems] at h⟩

theorem exists_two_items {stack : List Value} (h : 2 ≤ stack.length) :
    ∃ a b rest, stack = a :: b :: rest := by
  obtain ⟨a, rest, rfl⟩ := List.exists_cons_of_length_pos (Nat.lt_of_lt_of_le Nat.zero_lt_two h)
  obtain ⟨b, rest, rfl⟩ := List.exists_cons_of_length_pos (Nat.le_of_succ_le_succ h)
  exact ⟨a, b, rest, rfl⟩

theorem exists_three_items {stack : List Value} (h : 3 ≤ stack.length) :
    ∃ a b c rest, stack = a :: b :: c :: rest := by
  obtain ⟨a, b, rest, rfl⟩ := exists_two_items (Nat.le_of_succ_le h)
  obtain ⟨c, rest, rfl⟩ :=
    List.exists_cons_of_length_pos (Nat.le_of_succ_le_succ (Nat.le_of_succ_le_succ h))
  exact ⟨a, b, c, rest, rfl⟩

/-! ### Sums and differences -/

def noteWrap (ctx : Context) (checked known : Bool) (question : Inquiry Bool) (note : Exec Unit)
    (v : Value) : Exec Value := do
  if checked then
    if known then
      if ← inquire ctx question then note
  return v

def wrapping (ctx : Context) (block : Int) (x : Except Fault Value) (known : Value → Bool)
    (question : Value → Except Fault Formula) (note : Exec Unit) : Exec Value := do
  let v := ctx.simplify.value (← ofExcept x)
  noteWrap ctx (← checksWrap block) (known v) (.whether (question v)) note v

def firstOfSum (a b : Value) : Value := if a.isConcrete && b.isSymbolic then a.lift else a

def liftBeside (a b : Value) : Value := if a.isConcrete != b.isConcrete then a.lift else a

theorem add_eq (ctx : Context) (block : Int) : add ctx block = binary ctx fun a b =>
    wrapping ctx block (Arithmetic.sum a b) (fun v => v.isSymbolic || (firstOfSum a b).isSymbolic)
      (Value.unsigned .ugt (firstOfSum a b)) noteOverflow := rfl

theorem sub_eq (ctx : Context) (block : Int) : sub ctx block = binary ctx fun a b =>
    wrapping ctx block (Arithmetic.difference a b)
      (fun _ => (liftBeside a b).isSymbolic ||
        (if a.isConcrete != b.isConcrete then b.lift else b).isSymbolic)
      (fun _ => Value.unsigned .ugt (if a.isConcrete != b.isConcrete then b.lift else b)
        (liftBeside a b)) noteUnderflow := rfl

end Exec

end EvmAudit
