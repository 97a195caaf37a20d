import EvmAudit.Proofs.Explore.Feasible
import EvmAudit.Proofs.Explore.Histories

/-! The variables of a path. At every instruction of an exploration each of them stands for itself,
except for the three that the opening may give. -/

namespace EvmAudit

/-- Every variable of a path stands for itself, except for the sender, the contract and the
value. -/
def Path.SelfNamed (p : Path) : Prop :=
  ∀ name v, p.vars.get? name = some v → v = .var name ∨ name ∈ ["Is", "Ia", "Iv"]

theorem Path.SelfNamed.wordFor {p : Path} (h : p.SelfNamed) {name : String}
    (hname : name ∉ ["Is", "Ia", "Iv"]) : p.wordFor name = .var name := by
  rw [Path.wordFor]
  cases hv : p.vars.get? name with
  | none => rfl
  | some v => exact (h name v hv).resolve_right hname

theorem Machine.Named.selfNamed {m m' : Machine} (h : m.Named m') (hm : m.path.SelfNamed) :
    m'.path.SelfNamed :=
  fun name v hv => (h.vars name v hv).elim .inl (hm name v)

namespace Exec

variable {ctx : Context} {entries : Table Int String} {g : Graph} {root : Call}
variable {history : List (String × Machine)} {s : String × Machine}

theorem naming_furnish (o : Opening) : Naming (furnish o) := by
  have := Machine.Named.permits [.vars]
  refine (touches_ofExcept _).bind fun _ => (touches_ofExcept _).bind fun _ => ?_
  refine (touches_givenOr _ _).bind fun _ => (touches_givenOr _ _).bind fun _ => ?_
  refine (touches_givenOr _ _).bind fun _ => (touches_givenOr _ _).bind fun _ => ?_
  refine (touches_givenOr _ _).bind fun _ => (touches_givenOr _ _).bind fun _ => ?_
  exact (touches_declare _).bind fun _ m => ⟨.refl _, fun _ _ => .inr⟩

theorem Begins.selfNamed (h : Begins ctx g entries root) : root.machine.path.SelfNamed := by
  obtain ⟨o, paid, payable, owned, -, -, -, -, hfurnish⟩ := start_ok h.started
  have hnamed := (congrArg (fun r => Machine.Named _ r.2) hfurnish).mp (naming_furnish o _)
  refine Machine.Named.selfNamed hnamed fun name v hv => .inr ?_
  dsimp only at hv
  rw [Table.get?_insert, Table.get?_insert, Table.get?_insert] at hv
  by_contra hname
  simp only [List.mem_cons, List.not_mem_nil, or_false, not_or] at hname
  rw [if_neg hname.2.2, if_neg hname.2.1, if_neg hname.1] at hv
  cases hv

theorem keeps_selfNamed : Keeps ctx fun _ p => p.SelfNamed where
  traced {history site text m m'} hbefore h := by
    have hnames := @naming_traced ctx site text m
    rw [h] at hnames
    exact hnames.selfNamed hbefore

theorem Reached.selfNamed (hroot : Begins ctx g entries root)
    (h : Reached ctx entries root history s) : s.2.path.SelfNamed :=
  h.keeps keeps_selfNamed hroot.selfNamed

end Exec

end EvmAudit
