import EvmAudit.Proofs.Machine.Naming

/-! What no computation does, whether it succeeds or fails: it takes no assertion back, closes no
scope that it has not opened, and leaves the graph as it is but for the jumps it finds. -/

namespace EvmAudit

structure Machine.Changes (n : Nat) (m m' : Machine) : Prop where
  graph : m.shared.graph.Same m'.shared.graph
  solver : Solver.Left n m.shared.solver m'.shared.solver
  names : m.shared.names.other ≤ m'.shared.names.other

namespace Machine.Changes

variable {i j n : Nat} {m m' m'' : Machine}

theorem refl (m : Machine) : Changes 0 m m := ⟨.refl _, .refl _, Nat.le_refl _⟩

theorem trans (h : Changes i m m') (h' : Changes j m' m'') : Changes (i + j) m m'' :=
  ⟨h.graph.trans h'.graph, h.solver.trans h'.solver, Nat.le_trans h.names h'.names⟩

theorem trans_zero (h : Changes n m m') (h' : Changes 0 m' m'') : Changes n m m'' := h.trans h'

theorem zero_trans (h : Changes 0 m m') (h' : Changes n m' m'') : Changes n m m'' :=
  Nat.zero_add n ▸ h.trans h'

theorem of_solver {s : Solver} (h : Solver.Left n m.shared.solver s) :
    Changes n m (m.withSolver s) :=
  ⟨.refl _, h, Nat.le_refl _⟩

theorem permits (ps : List Part) : Permits (Changes 0) ps where
  refl := .refl
  trans := .trans
  replace {p} _ _ _ h := by
    cases p with
    | names => exact ⟨.refl _, .refl _, h.other⟩
    | graph => exact ⟨h.1, .refl _, Nat.le_refl _⟩
    | solver => exact ⟨.refl _, h, Nat.le_refl _⟩
    | _ => exact ⟨.refl _, .refl _, Nat.le_refl _⟩

end Machine.Changes

namespace Exec

variable {α β : Type}
variable {x : Exec α} {f : α → Exec β}

/-- From every state and however the computation ends, it leaves so many scopes open. -/
def Leaves (n : Machine → Nat) (x : Exec α) : Prop :=
  ∀ m : Machine, m.Changes (n m) (x.outcome m).2

def Tame (x : Exec α) : Prop := ∀ m : Machine, m.Changes 0 (x.outcome m).2

instance : Permits (Machine.Changes 0) allParts := Machine.Changes.permits allParts

theorem tame_pure (a : α) : Tame (pure a) := fun m => .refl m

theorem Tame.bind (hx : Tame x) (hf : ∀ a, Tame (f a)) : Tame (x >>= f) := Within.bind hx hf

theorem tame_of_touches {ps : List Part} {x : Exec α} (h : Touches ps x)
    (hps : ∀ p ∈ [Part.graph, .solver, .names], p ∉ ps) : Tame x := by
  intro m
  have hgraph : (x.outcome m).2.shared.graph = m.shared.graph := h m .graph (hps _ (by decide))
  have hsolver : (x.outcome m).2.shared.solver = m.shared.solver := h m .solver (hps _ (by decide))
  have hnames : (x.outcome m).2.shared.names = m.shared.names := h m .names (hps _ (by decide))
  exact ⟨hgraph ▸ .refl _, hsolver ▸ .refl _, hnames ▸ Nat.le_refl _⟩

/-! ### Questions -/

theorem Tame.after {x : Exec α} {f : α → Exec β} {n : Nat} {m : Machine} (hf : ∀ a, Tame (f a))
    (hx : m.Changes n (x.outcome m).2) : m.Changes n ((x >>= f).outcome m).2 := by
  rw [outcome_bind]
  generalize x.outcome m = r at hx ⊢
  obtain ⟨_ | a, m'⟩ := r
  · exact hx
  · exact hx.trans_zero (hf a m')

theorem Tame.handling {f : Fault → Exec α} {n : Nat} {m : Machine} (hf : ∀ e, Tame (f e))
    (hx : m.Changes n (x.outcome m).2) : m.Changes n ((tryCatch x f).outcome m).2 := by
  rw [outcome_tryCatch]
  generalize x.outcome m = r at hx ⊢
  obtain ⟨e | _, m'⟩ := r
  · exact hx.trans_zero (hf e m')
  · exact hx

theorem Leaves.bind_tame {n : Machine → Nat} (hx : Leaves n x)
    (hf : ∀ a, Tame (f a)) : Leaves n (x >>= f) := fun m => Tame.after hf (hx m)

theorem leaves_inquire (ctx : Context) (i : Inquiry α) :
    Leaves (fun m => i.left ctx m.shared) (inquire ctx i) := by
  intro m
  obtain ⟨inner, s, hlen, hs, ho⟩ := i.opens_inquire ctx m
  rw [ho]
  have h : Inquiry.left ctx i m.shared = inner.length := hlen.symm
  simp only [h]
  exact .of_solver (Solver.Left.of_inner hs)

end Exec

end EvmAudit
