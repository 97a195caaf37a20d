import EvmAudit.Proofs.Explore.Reentry

/-! Calls of foreign code that are noted, and those of them that a change of storage follows on the
same path. -/

namespace EvmAudit

/-- The place is noted in the table; or, with the flag, as one whose call a change of storage
follows. -/
def Noted (t : Table Int Bool) (r : Int) : Bool → Prop
  | false => t.contains r = true
  | true => t.get? r = some true

theorem noted_insert_true (t : Table Int Bool) (c r : Int) (b : Bool) :
    Noted (t.insert c true) r b ↔ Noted t r b ∨ r = c := by
  cases b with
  | false =>
    rw [Noted, Table.contains_insert, Noted]
    simp [or_comm]
  | true =>
    rw [Noted, Table.get?_insert, Noted]
    split
    · simp_all
    · simp_all

theorem noted_insert_false {t : Table Int Bool} {c : Int} (h : t.contains c = false) (r : Int)
    (b : Bool) : Noted (t.insert c false) r b ↔ Noted t r b ∨ b = false ∧ r = c := by
  cases b with
  | false =>
    rw [Noted, Table.contains_insert, Noted]
    simp [or_comm]
  | true =>
    rw [Noted, Table.get?_insert, Noted]
    split
    next hr =>
      subst hr
      have hnone : t.get? r = none := by simpa [Table.contains] using h
      simp [hnone]
    · simp

theorem noted_foldl {mark : Table Int Bool → Int → Table Int Bool} {A : Bool → Prop} {r : Int}
    {b : Bool} (hmark : ∀ t c, Noted (mark t c) r b ↔ Noted t r b ∨ A b ∧ r = c) (cs : List Int)
    (t : Table Int Bool) : Noted (cs.foldl mark t) r b ↔ Noted t r b ∨ A b ∧ r ∈ cs := by
  induction cs generalizing t with
  | nil => simp
  | cons c cs ih => rw [List.foldl_cons, ih, hmark, List.mem_cons, and_or_left, or_assoc]

namespace Exec

variable {ctx : Context} {entries : Table Int String}
variable {g : Graph} {root : Call}

structure Performs (ctx : Context) (ops : List Operation) (n : Nat) (s : String × Machine) :
    Prop where
  operation : (Instruction.ofText s.1).operation ∈ ops
  ready : ((ready ctx s.1).outcome s.2).1 = .ok ()
  items : n ≤ s.2.path.stack.length

abbrev CallsOut (ctx : Context) (s : String × Machine) : Prop := Performs ctx [.call, .callCode] 7 s

abbrev Stores (ctx : Context) (s : String × Machine) : Prop := Performs ctx [.sstore] 2 s

/-! ### Instructions -/

def noting (m : Machine) : Table Int Bool :=
  (m.path.calls ++ [m.path.world.pc]).foldl
    (fun t c => if t.contains c then t else t.insert c false) m.shared.affected

theorem noted_noting (m : Machine) (r : Int) (b : Bool) : Noted (noting m) r b ↔
    Noted m.shared.affected r b ∨ b = false ∧ (r ∈ m.path.calls ∨ m.path.world.pc = r) := by
  rw [noting, noted_foldl (A := (· = false))]
  · simp [eq_comm]
  · intro t c
    split
    next hc =>
      constructor
      · exact .inl
      · rintro (h | ⟨rfl, rfl⟩)
        · exact h
        · exact hc
    next hc =>
      exact noted_insert_false (by simpa using hc) r b

theorem outcome_noting {x rest : Exec Unit} {ps : List Part} (hx : x = (do need 7; noteCall; rest))
    (hrest : Touches ps rest) (hcalls : .calls ∉ ps) (haffected : .affected ∉ ps) (m : Machine) :
    if 7 ≤ m.path.stack.length then
      (x.outcome m).2.path.calls = m.path.calls ++ [m.path.world.pc] ∧
      (x.outcome m).2.shared.affected = noting m
    else x.outcome m = (.error .stackUnderflow, m) := by
  split
  next hitems =>
    let m' : Machine :=
      { m with
        path := { m.path with calls := m.path.calls ++ [m.path.world.pc] }
        shared := { m.shared with affected := noting m } }
    have hall : x.outcome m = rest.outcome m' := by
      rw [hx, outcome_bind, outcome_need hitems]
      rfl
    rw [hall]
    exact ⟨hrest m' .calls hcalls, hrest m' .affected haffected⟩
  next hitems =>
    rw [hx]
    exact outcome_of_lt _ (Nat.lt_of_not_le hitems)

def settling (m : Machine) : Table Int Bool :=
  m.path.calls.foldl (fun t c => t.insert c true) m.shared.affected

theorem noted_settling (m : Machine) (r : Int) (b : Bool) :
    Noted (settling m) r b ↔ Noted m.shared.affected r b ∨ r ∈ m.path.calls := by
  rw [settling, noted_foldl (A := fun _ => True)]
  · simp
  · intro t c
    simp [noted_insert_true]

theorem outcome_settling (m : Machine) :
    if 2 ≤ m.path.stack.length then ((sstore ctx).outcome m).2.shared.affected = settling m
    else (sstore ctx).outcome m = (.error .stackUnderflow, m) := by
  have hrest : Touches [.pc, .stack, .storage] (do
      advance 1
      let position ← pop
      let v ← pop
      setStorage (Key.ofValue ctx.print position) v) :=
    (touches_advance 1).bind fun _ => touches_pop.bind fun _ => touches_pop.bind fun v =>
      touches_setStorage _ v
  split
  next hitems =>
    rw [sstore, outcome_bind, outcome_need hitems]
    exact hrest { m with shared := { m.shared with affected := settling m } } .affected (by decide)
  next hitems =>
    exact outcome_of_lt _ (Nat.lt_of_not_le hitems)

theorem mem_of_affected_mem_footprint {op : Operation} (h : .affected ∈ footprint op) :
    op ∈ [.call, .callCode] ∨ op ∈ [.sstore] := by
  cases op <;> simp [footprint] at h ⊢

theorem mem_of_calls_mem_footprint {op : Operation} (h : .calls ∈ footprint op) :
    op ∈ [.call, .callCode] := by
  cases op <;> simp [footprint] at h ⊢

theorem perform_calls (site : Site) (name : String) (op : Operation) (m : Machine) :
    let m' := ((perform ctx site name op).outcome m).2
    if op ∈ [.call, .callCode] ∧ 7 ≤ m.path.stack.length then
      m'.path.calls = m.path.calls ++ [m.path.world.pc] ∧ m'.shared.affected = noting m
    else m'.path.calls = m.path.calls ∧ m'.shared.affected =
      if op ∈ [.sstore] ∧ 2 ≤ m.path.stack.length then settling m else m.shared.affected := by
  dsimp only
  by_cases hcall : op ∈ [.call, .callCode]
  · have hstore : op ∉ [.sstore] := by
      rcases List.mem_pair.1 hcall with rfl | rfl <;> decide
    have hnoting : if 7 ≤ m.path.stack.length then
          ((perform ctx site name op).outcome m).2.path.calls = m.path.calls ++ [m.path.world.pc] ∧
            ((perform ctx site name op).outcome m).2.shared.affected = noting m
        else (perform ctx site name op).outcome m = (.error .stackUnderflow, m) := by
      rcases List.mem_pair.1 hcall with rfl | rfl
      · obtain ⟨rest, heq, hrest⟩ := call_eq_noting (closed_any ctx)
        have hholds := @hrest (Machine.AlikeBut _) _ (fun _ => True)
          (pledges_of_note (closed_any ctx) touches_notePayment) (credits (closed_any ctx))
        exact outcome_noting heq hholds.within (by decide) (by decide) m
      · obtain ⟨rest, heq, hrest⟩ := callCode_eq_noting (closed_any ctx)
        have hholds :=
          @hrest (Machine.AlikeBut _) _ (fun _ => True)
          (pledges_of_note (closed_any ctx) touches_notePayment)
        exact outcome_noting heq hholds.within (by decide) (by decide) m
    split at hnoting
    next hitems =>
      rw [if_pos ⟨hcall, hitems⟩]
      exact hnoting
    next hitems =>
      rw [if_neg fun h => hitems h.2, if_neg fun h => hstore h.1, hnoting]
      exact ⟨rfl, rfl⟩
  · have htouches := touches_perform ctx site name op m
    rw [if_neg fun h => hcall h.1]
    refine ⟨htouches .calls fun h => hcall (mem_of_calls_mem_footprint h), ?_⟩
    by_cases hstore : op ∈ [.sstore]
    · obtain rfl := List.mem_singleton.1 hstore
      have hsettling := @outcome_settling ctx m
      change ((sstore ctx).outcome m).2.shared.affected = _
      split at hsettling
      next hitems =>
        rw [if_pos ⟨hstore, hitems⟩, hsettling]
      next hitems =>
        rw [if_neg fun h => hitems h.2, hsettling]
    · rw [if_neg fun h => hstore h.1]
      exact htouches .affected fun h => (mem_of_affected_mem_footprint h).elim hcall hstore

def NotesAt (ctx : Context) (s : String × Machine) (r : Int) (b : Bool) : Prop :=
  CallsOut ctx s ∧ b = false ∧ (r ∈ s.2.path.calls ∨ s.2.path.world.pc = r) ∨
    Stores ctx s ∧ r ∈ s.2.path.calls

theorem noted_traced (site : Site) (text : String) (m : Machine) (r : Int) (b : Bool) :
    Noted ((traced ctx site text).outcome m).2.shared.affected r b ↔
      Noted m.shared.affected r b ∨ NotesAt ctx (text, m) r b := by
  rcases @traced_cases ctx site text m with ⟨e, hready, -, hbooks⟩ | ⟨m₁, hready, hbooks, -, hend⟩
  · have haffected := hbooks .affected (by decide)
    change _ = m.shared.affected at haffected
    have hnothing : ¬ NotesAt ctx (text, m) r b := by
      rintro (⟨h, -⟩ | ⟨h, -⟩) <;> cases hready.symm.trans h.ready
    change Noted (Machine.part _ .affected) r b ↔ _
    rw [haffected, or_iff_left hnothing]
  · have hresult : ((ready ctx text).outcome m).1 = .ok () := by rw [hready]
    have hstack := hbooks.stack
    have hcalls := hbooks.calls
    have hpc := hbooks.pc
    have haffected : m₁.shared.affected = m.shared.affected := hbooks .affected (by decide)
    have hafter : ((traced ctx site text).outcome m).2.shared.affected =
      ((effect ctx site text).outcome m₁).2.shared.affected := hend .affected (by decide)
    have hperforms (ops : List Operation) (n : Nat) : Performs ctx ops n (text, m) ↔
        (Instruction.ofText text).operation ∈ ops ∧ n ≤ m₁.path.stack.length :=
      ⟨fun h => ⟨h.operation, hstack ▸ h.items⟩, fun h => ⟨h.1, hresult, hstack ▸ h.2⟩⟩
    have hperform := @perform_calls ctx site (Instruction.ofText text).name
      (Instruction.ofText text).operation m₁
    rw [hafter, NotesAt, CallsOut, Stores, hperforms, hperforms, ← haffected, ← hcalls, ← hpc]
    dsimp only at hperform
    split at hperform
    next hcall =>
      have hstore : (Instruction.ofText text).operation ∉ [.sstore] := by
        rcases List.mem_pair.1 hcall.1 with h | h <;> rw [h] <;> decide
      rw [hperform.2, noted_noting]
      simp [hcall, hstore]
    next hcall =>
      rw [hperform.2]
      split
      next hstore =>
        rw [noted_settling]
        simp only [hcall, hstore, true_and, false_and, false_or]
      next hstore =>
        simp only [hcall, hstore, false_and, or_false]

theorem mem_calls_traced {site : Site} {text : String} {m m' : Machine}
    (h : Traces ctx site text m m') (r : Int) :
    r ∈ m'.path.calls ↔ r ∈ m.path.calls ∨ CallsOut ctx (text, m) ∧ m.path.world.pc = r := by
  rcases @traced_cases ctx site text m with ⟨e, -, hfails, -⟩ | ⟨m₁, hready, hbooks, -, hend⟩
  · rw [h] at hfails
    cases hfails
  · have hresult : ((ready ctx text).outcome m).1 = .ok () := by rw [hready]
    rw [h] at hend
    have hafter : m'.path.calls = ((effect ctx site text).outcome m₁).2.path.calls :=
      hend.calls
    have hperform := @perform_calls ctx site (Instruction.ofText text).name
      (Instruction.ofText text).operation m₁
    dsimp only at hperform
    rw [hbooks.stack, hbooks.calls, hbooks.pc] at hperform
    rw [hafter]
    split at hperform
    next hcall =>
      have hout : CallsOut ctx (text, m) := ⟨hcall.1, hresult, hcall.2⟩
      rw [hperform.1, List.mem_append, List.mem_singleton]
      simp [hout, eq_comm]
    next hcall =>
      have hout : ¬ CallsOut ctx (text, m) := fun h => hcall ⟨h.operation, h.items⟩
      rw [hperform.1]
      simp [hout]

/-! ### Paths and explorations -/

def CalledIn (ctx : Context) (history : List (String × Machine)) (p : Path) : Prop :=
  ∀ r, r ∈ p.calls ↔ ∃ s ∈ history, CallsOut ctx s ∧ s.2.path.world.pc = r

theorem keeps_calledIn : Keeps ctx (CalledIn ctx) where
  traced hbefore h r := by
    rw [mem_calls_traced h, hbefore r]
    simp [or_and_right, exists_or]

theorem Begins.calledIn (h : Begins ctx g entries root) : CalledIn ctx [] root.machine.path := by
  intro r
  have hcalls : root.machine.path.calls = [] := h.alike.calls
  simp [hcalls]

theorem noted_gather : Gathers ctx (fun m => { x : Int × Bool | Noted m.shared.affected x.1 x.2 })
    (fun _ s => { x | NotesAt ctx s x.1 x.2 }) where
  traced site text m := Set.ext fun x => noted_traced site text m x.1 x.2
  record m := by
    have haffected := touches_record m .affected (by decide)
    exact congrArg (fun t : Table Int Bool => { x : Int × Bool | Noted t x.1 x.2 }) haffected
  alike h := by
    have haffected := h .affected (by decide)
    exact congrArg (fun t : Table Int Bool => { x : Int × Bool | Noted t x.1 x.2 }) haffected

def CalledAt (ctx : Context) (entries : Table Int String) (root : Call) (r : Int) : Prop :=
  ∃ history s, Reached ctx entries root history s ∧ CallsOut ctx s ∧ s.2.path.world.pc = r

def SettledAt (ctx : Context) (entries : Table Int String) (root : Call) (r : Int) : Prop :=
  ∃ history s, Reached ctx entries root history s ∧ Stores ctx s ∧
    ∃ s' ∈ history, CallsOut ctx s' ∧ s'.2.path.world.pc = r

theorem SettledAt.calledAt {r : Int} (h : SettledAt ctx entries root r) :
    CalledAt ctx entries root r := by
  obtain ⟨history, s, hs, -, s', hs', hcall⟩ := h
  obtain ⟨history', hreached⟩ := hs.of_mem hs'
  exact ⟨history', s', hreached, hcall⟩

theorem notesAt_reached (hroot : Begins ctx g entries root) (r : Int) (b : Bool) :
    (∃ history s, Reached ctx entries root history s ∧ NotesAt ctx s r b) ↔
      if b then SettledAt ctx entries root r else CalledAt ctx entries root r := by
  have hcalled {history : List (String × Machine)} {s : String × Machine}
      (hs : Reached ctx entries root history s) :
      r ∈ s.2.path.calls ↔ ∃ s' ∈ history, CallsOut ctx s' ∧ s'.2.path.world.pc = r :=
    hs.keeps keeps_calledIn hroot.calledIn r
  cases b with
  | true =>
    rw [if_pos rfl, SettledAt]
    refine exists₂_congr fun history s => and_congr_right fun hs => ?_
    rw [NotesAt, ← hcalled hs]
    simp
  | false =>
    rw [if_neg Bool.false_ne_true]
    constructor
    · rintro ⟨history, s, hs, ⟨hcall, -, hr | hr⟩ | ⟨hstore, hr⟩⟩
      · obtain ⟨s', hs', hcall'⟩ := (hcalled hs).1 hr
        obtain ⟨history', hreached⟩ := hs.of_mem hs'
        exact ⟨history', s', hreached, hcall'⟩
      · exact ⟨history, s, hs, hcall, hr⟩
      · exact SettledAt.calledAt ⟨history, s, hs, hstore, (hcalled hs).1 hr⟩
    · rintro ⟨history, s, hs, hcall, hr⟩
      exact ⟨history, s, hs, .inl ⟨hcall, rfl, .inr hr⟩⟩

theorem Begins.noted (hroot : Begins ctx g entries root) (r : Int) (b : Bool) :
    Noted (root.ending ctx entries).shared.affected r b ↔
      if b then SettledAt ctx entries root r else CalledAt ctx entries root r := by
  have hempty : root.machine.shared.affected = {} := hroot.alike .affected (by decide)
  have hnothing : ¬ Noted root.machine.shared.affected r b := by
    rw [hempty]
    cases b <;> simp [Noted, Table.contains, Table.get?, Table.find?]
  have hending := @Gathers.mem_ending ctx entries _ _ _ noted_gather root (r, b)
  rw [exists_reached_iff] at hending
  exact hending.trans ((or_iff_right hnothing).trans (notesAt_reached hroot r b))

end Exec

end EvmAudit
