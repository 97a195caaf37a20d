import EvmAudit.Proofs.Explore.Bounds
import EvmAudit.Proofs.Explore.Payments

/-! The blocks that an exploration executes to their ends, in that order. Each of them files the
entry of its path, unless a block before it has filed one with the same transfers. -/

namespace EvmAudit

def FirstOf (l : List Entry) (e : Entry) : Prop :=
  ∃ before after, l = before ++ e :: after ∧ ∀ e' ∈ before, e'.flows ≠ e.flows

theorem FirstOf.mem {l : List Entry} {e : Entry} (h : FirstOf l e) : e ∈ l := by
  obtain ⟨before, after, rfl, -⟩ := h
  simp

theorem firstOf_concat {l : List Entry} {x e : Entry} :
    FirstOf (l ++ [x]) e ↔ FirstOf l e ∨ e = x ∧ ∀ e' ∈ l, e'.flows ≠ x.flows := by
  constructor
  · rintro ⟨before, after, hl, hbefore⟩
    rcases List.eq_nil_or_concat after with rfl | ⟨after', y, rfl⟩
    · obtain ⟨rfl, hx⟩ := List.append_inj' hl rfl
      cases hx
      exact .inr ⟨rfl, hbefore⟩
    · rw [List.concat_eq_append, ← List.cons_append, ← List.append_assoc] at hl
      obtain ⟨rfl, -⟩ := List.append_inj' hl rfl
      exact .inl ⟨before, after', rfl, hbefore⟩
  · rintro (⟨before, after, rfl, hbefore⟩ | ⟨rfl, hl⟩)
    · exact ⟨before, after ++ [x], by simp, hbefore⟩
    · exact ⟨l, [], rfl, hl⟩

theorem foldl_file (l : List Entry) :
    ∃ es : List Entry, l.foldl Tables.file (.ofEntries []) = .ofEntries es ∧
      (es.map Entry.flows).Nodup ∧ (∀ e, e ∈ es ↔ FirstOf l e) ∧
      ∀ e ∈ l, e.flows ∈ es.map Entry.flows := by
  induction l using List.reverseRecOn with
  | nil => exact ⟨[], rfl, List.nodup_nil, fun e => by simp [FirstOf], by simp⟩
  | append_singleton l x ih =>
    obtain ⟨es, hfold, hnodup, hmem, hfiled⟩ := ih
    rw [List.foldl_append, hfold]
    have hseen : x.flows ∈ es.map Entry.flows ↔ ∃ e' ∈ l, e'.flows = x.flows := by
      constructor
      · intro hx
        obtain ⟨e, he, hflows⟩ := List.mem_map.1 hx
        exact ⟨e, ((hmem e).1 he).mem, hflows⟩
      · rintro ⟨e', he', hflows⟩
        exact hflows ▸ hfiled e' he'
    rw [List.foldl_cons, List.foldl_nil, Tables.file]
    split
    next hx =>
      refine ⟨es, rfl, hnodup, fun e => ?_, fun e he => ?_⟩
      · obtain ⟨e', he', hflows⟩ := hseen.1 hx
        rw [firstOf_concat, hmem]
        exact ⟨.inl, fun h => h.resolve_right fun h' => h'.2 e' he' hflows⟩
      · rcases List.mem_append.1 he with he | he
        · exact hfiled e he
        · rw [List.mem_singleton.1 he]
          exact hx
    next hx =>
      replace hx : x.flows ∉ es.map Entry.flows := hx
      have hnew : ∀ e' ∈ l, e'.flows ≠ x.flows :=
        fun e' he' hflows => hx (hseen.2 ⟨e', he', hflows⟩)
      refine ⟨es ++ [x], by simp [Tables.append, Tables.ofEntries], ?_, fun e => ?_, fun e he => ?_⟩
      · rw [List.map_append]
        exact hnodup.append (List.nodup_singleton _) (by simpa using hx)
      · rw [firstOf_concat, List.mem_append, hmem, List.mem_singleton]
        exact or_congr Iff.rfl ⟨fun h => ⟨h, hnew⟩, And.left⟩
      · rw [List.map_append]
        rcases List.mem_append.1 he with he | he
        · exact List.mem_append_left _ (hfiled e he)
        · rw [List.mem_singleton.1 he]
          exact List.mem_append_right _ List.mem_cons_self

namespace Exec

variable {ctx : Context} {entries : Table Int String}

def Call.entry? (ctx : Context) (entries : Table Int String) (c : Call) : Option Entry :=
  match (enter ctx entries c.visit).outcome c.machine with
  | (.ok (some (site, texts)), m₁) =>
    match (runAll ctx site texts).outcome m₁ with
    | (.ok (), m) => some m.path.entry
    | _ => none
  | _ => none

theorem entry?_eq_some {c : Call} {e : Entry} :
    c.entry? ctx entries = some e ↔ ∃ m, Completes ctx entries c m ∧ e = m.path.entry := by
  unfold Call.entry?
  constructor
  · intro h
    split at h
    next site texts m₁ henter =>
      split at h
      next m hrun =>
        cases h
        exact ⟨m, ⟨site, texts, m₁, henter, hrun⟩, rfl⟩
      · cases h
    · cases h
  · rintro ⟨m, ⟨site, texts, m₁, henter, hrun⟩, rfl⟩
    rw [henter]
    dsimp only
    rw [hrun]

theorem tables_visit (last : Bool) (remaining : Nat) (v : Visit) (m : Machine) :
    ((visit ctx entries last v).outcome m).2.shared.tables =
      (Call.entry? ctx entries ⟨remaining, v, m⟩).elim m.shared.tables m.shared.tables.file := by
  have hvisit := congrArg Ledger.tables (@ledger_visit ctx entries last v m)
  have henter := congrArg Ledger.tables (@steady_enter ctx entries v m)
  refine hvisit.trans ?_
  rw [Call.entry?]
  generalize (enter ctx entries v).outcome m = o at henter ⊢
  obtain ⟨e | _ | ⟨site, texts⟩, m₁⟩ := o
  · rfl
  · rfl
  · have hrun := @tables_runAll ctx site texts m₁
    replace henter : m₁.shared.tables = m.shared.tables := henter
    dsimp only
    rw [← henter]
    generalize (runAll ctx site texts).outcome m₁ = o at hrun ⊢
    obtain ⟨e | u, m₂⟩ := o
    · exact hrun
    · dsimp only at hrun ⊢
      rw [Option.elim_some, ← hrun]
      exact tables_record m₂

def completions (ctx : Context) (entries : Table Int String) (c : Call) : List Entry :=
  (calls ctx entries c.remaining c.visit c.machine).filterMap (Call.entry? ctx entries)

theorem mem_completions {c : Call} {e : Entry} : e ∈ completions ctx entries c ↔
    Filed ctx entries c e := by
  simp only [completions, List.mem_filterMap, mem_calls, entry?_eq_some, Filed]
  constructor
  · rintro ⟨d, hreach, m, hm, he⟩
    exact ⟨d, m, hreach, hm, he⟩
  · rintro ⟨d, m, hreach, hm, he⟩
    exact ⟨d, hreach, m, hm, he⟩

theorem tables_ending (c : Call) :
    (c.ending ctx entries).shared.tables =
      (completions ctx entries c).foldl Tables.file c.machine.shared.tables := by
  rw [completions, List.foldl_filterMap]
  refine foldl_calls (Q := fun m => m.shared.tables) (fun _ _ _ => rfl) (fun _ _ => rfl)
    (fun remaining v m => ?_) c.remaining c.visit c.machine
  rw [tables_visit _ remaining]
  cases Call.entry? ctx entries ⟨remaining, v, m⟩ <;> rfl

theorem Begins.rows {g : Graph} {root : Call} (h : Begins ctx g entries root) :
    ∃ es : List Entry, (root.ending ctx entries).shared.tables = .ofEntries es ∧
      (es.map Entry.flows).Nodup ∧ (∀ e, e ∈ es ↔ FirstOf (completions ctx entries root) e) ∧
      ∀ e ∈ completions ctx entries root, e.flows ∈ es.map Entry.flows := by
  obtain ⟨conditions, -, hledger⟩ := h.ledger
  have hempty : root.machine.shared.tables = .ofEntries [] := congrArg Ledger.tables hledger
  rw [tables_ending, hempty]
  exact foldl_file _

end Exec

end EvmAudit
