import EvmAudit.Proofs.Machine.Fees
import EvmAudit.Proofs.Rounding

/-! The operand that a fee goes by, against the one that the instruction uses. -/

namespace EvmAudit

theorem Gas.copyWords_eq {n : Int} (h : n.natAbs < 2 ^ 53) : copyWords n = .ok ⌈(n : ℚ) / 32⌉ := by
  obtain ⟨s, m, e, hquotient, hrat⟩ := Double.ofQuotient?_two_pow (d := 4) h (by decide)
  rw [copyWords, show (32 : Int) = (2 ^ (4 + 1) : Nat) from rfl, hquotient]
  have hceil (q : ℚ) : q.ceil = ⌈q⌉ :=
    eq_of_forall_ge_iff fun z => Rat.ceil_le_iff.trans Int.ceil_le.symm
  change Except.ok (Double.toRat _).ceil = _
  rw [hceil, hrat]
  norm_num

namespace Exec

variable {ctx : Context} {site : Site} {name : String} {m : Machine}

/-! ### What the instructions do with their operands -/

theorem outcome_codeCopy {location start count : Value} {rest : List Value}
    (h : m.path.stack = location :: start :: count :: rest) :
    (perform ctx site name .codeCopy).outcome m =
      (copyCode ctx location start count).outcome (m.taken rest) := by
  change (codeCopy ctx).outcome m = _
  rw [codeCopy, outcome_need_advance _ (by simp [h]), h]
  rfl

theorem outcome_callDataCopy {location start count : Value} {rest : List Value}
    (h : m.path.stack = location :: start :: count :: rest) :
    (perform ctx site name .callDataCopy).outcome m = (.ok (), m.taken rest) := by
  change (ignore 3).outcome m = _
  rw [ignore, outcome_need_advance _ (by simp [h]), h]
  rfl

theorem outcome_extCodeCopy {owner location start count : Value} {rest : List Value}
    (h : m.path.stack = owner :: location :: start :: count :: rest) :
    (perform ctx site name .extCodeCopy).outcome m =
      (copyForeign ctx owner location start count).outcome (m.taken rest) := by
  change (extCodeCopy ctx).outcome m = _
  rw [extCodeCopy, outcome_need_advance _ (by simp [h]), h]
  rfl

theorem outcome_selfDestruct {recipient : Value} {rest : List Value}
    (h : m.path.stack = recipient :: rest) : (perform ctx site name .selfDestruct).outcome m =
      (payOut recipient).outcome (m.taken rest) := by
  change (do let recipient ← pop; payOut recipient).outcome (m.taken m.path.stack) = _
  rw [h]
  rfl

theorem copyFee_eq {v : Value} {n : Int} (hv : v.toInt? = some n) (hn : n.natAbs < 2 ^ 53) :
    (copyFee v).outcome m = (.ok (Fee.copy * ⌈(n : ℚ) / 32⌉), m) := by
  rw [copyFee, hv]
  dsimp only
  rw [Gas.copyWords_eq hn]
  rfl

/-- A fee for copying goes by the item behind the number of bytes, or before it where the code of
another account is copied; the fee for a new account goes by the item behind the recipient. Where
there is no such item, nothing is charged. -/
theorem dynamic_fee_by_neighbour (ctx : Context) (site : Site) (name : String) (m : Machine) :
    (∀ location start count rest, m.path.stack = location :: start :: count :: rest →
      (perform ctx site name .codeCopy).outcome m =
        (copyCode ctx location start count).outcome (m.taken rest) ∧
      (perform ctx site name .callDataCopy).outcome m = (.ok (), m.taken rest) ∧
      ∀ op, op = .codeCopy ∨ op = .callDataCopy → (Gas.dynamic ctx op).outcome m =
        ((rest.head?).elim (pure 0) copyFee).outcome m) ∧
    (∀ owner location start count rest, m.path.stack = owner :: location :: start :: count :: rest →
      (perform ctx site name .extCodeCopy).outcome m =
        (copyForeign ctx owner location start count).outcome (m.taken rest) ∧
      (Gas.dynamic ctx .extCodeCopy).outcome m = (copyFee start).outcome m) ∧
    (∀ recipient rest, m.path.stack = recipient :: rest →
      (perform ctx site name .selfDestruct).outcome m = (payOut recipient).outcome (m.taken rest) ∧
      (Gas.dynamic ctx .selfDestruct).outcome m =
        (.ok ((rest.head?).elim 0 (Gas.newAccount ctx.print m.path.world)), m)) ∧
    ∀ (v : Value) (n : Int), v.toInt? = some n → n.natAbs < 2 ^ 53 →
      (copyFee v).outcome m = (.ok (Fee.copy * ⌈(n : ℚ) / 32⌉), m) := by
  refine ⟨fun location start count rest h => ⟨outcome_codeCopy h, outcome_callDataCopy h, ?_⟩,
    fun owner location start count rest h => ⟨outcome_extCodeCopy h, ?_⟩,
    fun recipient rest h => ⟨outcome_selfDestruct h, ?_⟩, fun v n => copyFee_eq⟩
  · rintro op (rfl | rfl) <;> rw [Gas.dynamic, outcome_bind_getPath] <;> dsimp only <;> rw [h] <;>
      cases rest <;> rfl
  · rw [Gas.dynamic, outcome_bind_getPath, h]
    rfl
  · rw [Gas.dynamic, outcome_bind_getPath, h]
    cases rest <;> rfl

def copying (items : List Int) : Machine := { path := { stack := items.map .int } }

theorem dynamic_fee_by_fourth_item :
    (Gas.dynamic {} .codeCopy).outcome (copying [0, 0, 64, 65]) =
      (.ok 9, copying [0, 0, 64, 65]) := by
  obtain ⟨hcode, -, -, hfee⟩ :=
    dynamic_fee_by_neighbour {} default "CODECOPY" (copying [0, 0, 64, 65])
  obtain ⟨-, -, hdynamic⟩ := hcode (.int 0) (.int 0) (.int 64) [.int 65] rfl
  rw [hdynamic .codeCopy (.inl rfl)]
  exact (hfee (.int 65) 65 rfl (by decide)).trans (by norm_num [Fee.copy])

/-- Two words are copied and nothing is charged for them. -/
theorem dynamic_fee_misses_count :
    (Gas.dynamic {} .codeCopy).outcome (copying [0, 0, 64]) = (.ok 0, copying [0, 0, 64]) ∧
      (copyFee (.int 64)).outcome (copying [0, 0, 64]) = (.ok 6, copying [0, 0, 64]) :=
  ⟨rfl, (copyFee_eq (v := .int 64) rfl (by decide)).trans (by norm_num [Fee.copy])⟩

end Exec

end EvmAudit
