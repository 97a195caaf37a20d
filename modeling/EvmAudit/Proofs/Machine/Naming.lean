import EvmAudit.Proofs.Machine.Footprint

/-! The names that instructions make. The counters behind them never go back, and what an
instruction adds to the variables of a path is always a name that stands for itself. -/

namespace EvmAudit

/-- Between the states, names have been made, and variables declared under their own names. -/
structure Machine.Named (m m' : Machine) : Prop where
  grow : m.shared.names.Grow m'.shared.names
  vars : ∀ name v, m'.path.vars.get? name = some v → v = .var name ∨ m.path.vars.get? name = some v

namespace Machine.Named

variable {m m' m'' : Machine}

theorem trans (h : m.Named m') (h' : m'.Named m'') : m.Named m'' :=
  ⟨h.grow.trans h'.grow, fun name v hv => (h'.vars name v hv).elim .inl (h.vars name v)⟩

theorem of_alike {ps : List Part} (h : m.AlikeBut ps m') (hps : ∀ p ∈ [Part.names, .vars], p ∉ ps) :
    m.Named m' := by
  have hnames : m'.shared.names = m.shared.names := h .names (hps _ (by decide))
  have hvars : m'.path.vars = m.path.vars := h .vars (hps _ (by decide))
  refine ⟨hnames ▸ .refl _, fun name v hv => .inr ?_⟩
  rwa [hvars] at hv

theorem permits (ps : List Part) : Permits Machine.Named ps where
  refl _ := ⟨.refl _, fun _ _ => .inr⟩
  trans := .trans
  replace {p} _ m content h := by
    cases p with
    | names => exact ⟨h, fun _ _ => .inr⟩
    | vars =>
      obtain ⟨name, rfl⟩ := h
      refine ⟨.refl _, fun other v hv => ?_⟩
      change (m.path.vars.insert name (.var name)).get? other = some v at hv
      by_cases hother : other = name
      · rw [hother, Table.get?_insert_self] at hv
        cases hv
        exact .inl (by rw [hother])
      · rw [Table.get?_insert_of_ne hother] at hv
        exact .inr hv
    | _ => exact ⟨.refl _, fun _ _ => .inr⟩

end Machine.Named

namespace Exec

variable {α : Type} {ctx : Context}

def Naming (x : Exec α) : Prop := ∀ m : Machine, m.Named (x.outcome m).2

theorem naming_perform (ctx : Context) (site : Site) (name : String) (op : Operation) :
    Naming (perform ctx site name op) :=
  have := Machine.Named.permits (footprint op)
  within_perform site name op (fun _ => ⟨fun _ _ => ⟨.refl _, fun _ _ => .inr⟩⟩)
    (fun _ _ _ _ => ⟨.refl _, fun _ _ => .inr⟩) fun _ _ _ => ⟨.refl _, fun _ _ => .inr⟩

theorem naming_traced (site : Site) (text : String) : Naming (traced ctx site text) := by
  intro m
  have hbooks : ∀ p ∈ [Part.names, .vars], p ∉ bookkeeping := by decide
  rcases @traced_cases ctx site text m with ⟨e, -, -, hend⟩ | ⟨m₁, -, hready, -, hend⟩
  · exact .of_alike hend hbooks
  · exact (Machine.Named.of_alike hready hbooks).trans
      ((naming_perform ctx site _ _ m₁).trans (.of_alike hend hbooks))

end Exec

end EvmAudit
