import EvmAudit.Proofs.Machine.Footprint

/-! The state that an exploration starts from. What is not given of it is named. -/

namespace EvmAudit

structure Opening.All (W : Value → Prop) (o : Opening) : Prop where
  senderBalance : W o.senderBalance
  contractBalance : W o.contractBalance
  value : W o.value
  sender : W o.sender
  receiver : W o.receiver
  gasPrice : W o.gasPrice
  origin : W o.origin
  coinbase : W o.coinbase
  number : W o.number
  difficulty : W o.difficulty
  gasLimit : W o.gasLimit

namespace Opening

variable {W : Value → Prop} (hint : ∀ n, W (.int n)) (habsent : W .absent)

include hint habsent

theorem gives_entry (d : Document) (part name : String) : Gives W (entry d part name) := by
  refine gives_bind fun v => ?_
  split
  · split
    · split
      · exact gives_pure (hint _)
      · exact gives_error _
    · exact gives_error _
  · exact gives_pure habsent

theorem gives_ofDocument (d : Document) : Gives (Opening.All W) (ofDocument d) := by
  have h (part name : String) : Gives W (entry d part name) := gives_entry hint habsent d part name
  refine (h _ _).bind fun _ h₁ => (h _ _).bind fun _ h₂ => gives_bind fun v => ?_
  refine (h _ _).bind fun _ h₃ => (h _ _).bind fun _ h₄ => (h _ _).bind fun _ h₅ => ?_
  refine (h _ _).bind fun _ h₆ => (h _ _).bind fun _ h₇ => (h _ _).bind fun _ h₈ => ?_
  refine (h _ _).bind fun _ h₉ => (h _ _).bind fun _ h₁₀ => ?_
  refine gives_pure ⟨h₁, h₂, ?_, h₃, h₄, h₅, h₆, h₇, h₈, h₉, h₁₀⟩
  dsimp only
  split
  · exact hint 0
  · exact habsent

theorem gives_opening {ctx : Context}
    (hvar : ∀ {name : String} {c : Char}, name.toList.head? = some c → c ∈ ['i', 'I'] →
      W (.var name)) : Gives (Opening.All W) (Exec.opening ctx) := by
  unfold Exec.opening
  split
  · split
    · exact gives_error _
    · exact gives_bind fun d => gives_ofDocument hint habsent d
  · have hname {name : String} (c : Char) (h : name.toList.head? = some c) (hc : c ∈ ['i', 'I']) :
        W (.var name) :=
      hvar h hc
    exact gives_ok ⟨hname 'i' rfl (by decide), hname 'i' rfl (by decide), hname 'I' rfl (by decide),
      hname 'I' rfl (by decide), hname 'I' rfl (by decide), habsent, habsent, habsent, habsent,
      habsent, habsent⟩

end Opening

namespace Exec

variable {ctx : Context} {ps : List Part}

def furnish (o : Opening) : Exec Unit := do
  let senderBalance ← ofExcept (o.senderBalance.sub o.value)
  let contractBalance ← ofExcept (o.contractBalance.add o.value)
  let gasPrice ← givenOr o.gasPrice Names.gasPrice
  let origin ← givenOr o.origin Names.origin
  let coinbase ← givenOr o.coinbase "IH_c"
  let number ← givenOr o.number "IH_i"
  let difficulty ← givenOr o.difficulty "IH_d"
  let gasLimit ← givenOr o.gasLimit "IH_l"
  declare "IH_s"
  modifyWorld fun w =>
    { w with
      balance := Table.ofList [("Is", senderBalance), ("Ia", contractBalance)]
      value := o.value
      sender := o.sender
      receiver := o.receiver
      gasPrice
      origin
      coinbase
      timestamp := .var "IH_s"
      number
      difficulty
      gasLimit }

section Kinds

variable {K : Kind} [K.Lawful] {C : Nat → Prop} {R : Machine → Machine → Prop} [Permits R ps]

theorem holds_givenOr {v : Value} {name : String} (hv : ∀ k, C k → K.item k v)
    (hname : ∀ k, K.item k (.var name)) [Among .vars ps] : Holds R K C (givenOr v name) K.item := by
  have hdeclare : Holds R K C (do declare name; return .var name) K.item :=
    (holds_declare fun k _ => hname k).bind fun _ => holds_pure fun k _ => hname k
  unfold givenOr
  split
  · exact holds_ite (fun _ => hdeclare) fun _ => holds_pure hv
  · exact hdeclare

theorem touches_givenOr (v : Value) (name : String) [Among .vars ps] : Within R (givenOr v name) :=
  (holds_givenOr (fun _ _ => trivial) fun _ => trivial).within

theorem holds_furnish {o : Opening} (ho : ∀ k, o.All (K.item k))
    (hvar : ∀ {k} {name : String}, name.toList.head? = some 'I' → K.item k (.var name))
    (hheld : ∀ {k a b}, K.item k a → K.item k b → Gives (K.held k) (a.add b) ∧
      Gives (K.held k) (a.sub b)) : Holds (Machine.AlikeBut allParts) K C (furnish o) Done := by
  refine (holds_ofExcept fun k _ => (hheld (ho k).senderBalance (ho k).value).2).bind fun _ => ?_
  refine (holds_ofExcept fun k _ => (hheld (ho k).contractBalance (ho k).value).1).bind fun _ => ?_
  refine (holds_givenOr (fun k _ => (ho k).gasPrice) fun _ => hvar rfl).bind fun _ => ?_
  refine (holds_givenOr (fun k _ => (ho k).origin) fun _ => hvar rfl).bind fun _ => ?_
  refine (holds_givenOr (fun k _ => (ho k).coinbase) fun _ => hvar rfl).bind fun _ => ?_
  refine (holds_givenOr (fun k _ => (ho k).number) fun _ => hvar rfl).bind fun _ => ?_
  refine (holds_givenOr (fun k _ => (ho k).difficulty) fun _ => hvar rfl).bind fun _ => ?_
  refine (holds_givenOr (fun k _ => (ho k).gasLimit) fun _ => hvar rfl).bind fun _ => ?_
  refine (holds_declare fun _ _ => hvar rfl).bind fun _ =>
    ⟨touches_all _, leads_modifyWorld fun k p hC hp => ?_⟩
  obtain ⟨⟨⟨⟨⟨⟨⟨⟨⟨_, hsender⟩, hcontract⟩, hprice⟩, horigin⟩, hcoinbase⟩, hnumber⟩, hdifficulty⟩,
    hlimit⟩, -⟩ := hC
  have htime : K.item k (.var "IH_s") := hvar rfl
  obtain ⟨-, -, hvalue, hsent, hreceived, -, -, -, -, -, -⟩ := ho k
  refine ⟨{ hp.items with given := fun v hv => ?_ },
    (Table.all_empty.insert hsender).insert hcontract⟩
  simp only [World.given, List.mem_cons, List.not_mem_nil, or_false] at hv
  rcases hv with rfl | rfl | rfl | rfl | rfl | rfl | rfl | rfl | rfl | rfl <;> assumption

end Kinds

section

variable {γ : Type} {view : Machine → γ}
  (hview : ∀ (m : Machine) vars world, view { m with path := { m.path with vars, world } } = view m)

include hview

theorem fixes_givenOr (v : Value) (name : String) : Fixes view (givenOr v name) := by
  have hdeclare : Fixes view (do declare name; return Value.var name) := fun m => hview m _ _
  unfold givenOr
  split
  · exact fixes_ite hdeclare (fixes_pure _)
  · exact hdeclare

theorem fixes_furnish (o : Opening) : Fixes view (furnish o) := by
  refine (fixes_ofExcept _).bind fun _ => (fixes_ofExcept _).bind fun _ => ?_
  refine (fixes_givenOr hview _ _).bind fun _ => (fixes_givenOr hview _ _).bind fun _ => ?_
  refine (fixes_givenOr hview _ _).bind fun _ => (fixes_givenOr hview _ _).bind fun _ => ?_
  refine (fixes_givenOr hview _ _).bind fun _ => (fixes_givenOr hview _ _).bind fun _ => ?_
  exact Fixes.bind (fun m => hview m _ _) fun _ m => hview m _ _

end

variable {m m' : Machine}

theorem start_ok (h : (start ctx).outcome m = (.ok (), m')) :
    ∃ o paid payable owned, opening ctx = .ok o ∧ o.value.ge (.word (.const 0)) = .ok paid ∧
      o.senderBalance.ge o.value = .ok payable ∧ o.contractBalance.ge (.word (.const 0)) =
      .ok owned ∧ (furnish o).outcome { m with path := { m.path with
        vars := ((m.path.vars.insert "Is" o.sender).insert "Ia" o.receiver).insert "Iv" o.value
        conditions := m.path.conditions ++ [paid] ++ [payable] ++ [owned] } } = (.ok (), m') := by
  rw [start] at h
  obtain ⟨o, ho, h⟩ := outcome_ofExcept_bind_eq_ok.1 h
  obtain ⟨_, m₁, hvars, h⟩ := outcome_bind_eq_ok.1 h
  cases hvars
  obtain ⟨paid, hpaid, h⟩ := outcome_ofExcept_bind_eq_ok.1 h
  obtain ⟨_, m₂, hadd, h⟩ := outcome_bind_eq_ok.1 h
  cases hadd
  obtain ⟨payable, hpayable, h⟩ := outcome_ofExcept_bind_eq_ok.1 h
  obtain ⟨_, m₃, hadd, h⟩ := outcome_bind_eq_ok.1 h
  cases hadd
  obtain ⟨owned, howned, h⟩ := outcome_ofExcept_bind_eq_ok.1 h
  obtain ⟨_, m₄, hadd, h⟩ := outcome_bind_eq_ok.1 h
  cases hadd
  exact ⟨o, paid, payable, owned, ho, hpaid, hpayable, howned, h⟩

theorem touches_start : Touches [.vars, .conditions, .balance, .transaction] (start ctx) := by
  refine (touches_ofExcept _).bind fun o =>
    Within.bind (fun m => .of_replace (q := .vars) (.head _) m _) fun _ => ?_
  refine (touches_ofExcept _).bind fun _ => (touches_addCondition _).bind fun _ =>
    (touches_ofExcept _).bind fun _ => (touches_addCondition _).bind fun _ =>
    (touches_ofExcept _).bind fun _ => (touches_addCondition _).bind fun _ =>
    (touches_ofExcept _).bind fun _ => (touches_ofExcept _).bind fun _ => ?_
  refine (touches_givenOr _ _).bind fun _ => (touches_givenOr _ _).bind fun _ =>
    (touches_givenOr _ _).bind fun _ =>
    (touches_givenOr _ _).bind fun _ => (touches_givenOr _ _).bind fun _ =>
    (touches_givenOr _ _).bind fun _ =>
    (touches_declare _).bind fun _ => ?_
  intro m p hp
  cases p <;> first | rfl | exact absurd (by decide) hp

end Exec

end EvmAudit
