import EvmAudit.Proofs.Explore.Lasting

/-! The tables that the detectors read. Every row is recorded in all of them at once, from a path
one of whose blocks is done, and no two rows have the same flows. -/

namespace EvmAudit

structure Entry where
  flows : List Flow
  conditions : List Condition
  storage : Table Key Value
  transferPcs : List Int
  conditionPcs : Table Nat Int

def Path.entry (p : Path) : Entry where
  flows := p.analysis.flows
  conditions := p.conditions
  storage := p.world.storage
  transferPcs := p.analysis.transferPcs
  conditionPcs := p.analysis.conditionPcs

namespace Tables

def append (t : Tables) (es : List Entry) : Tables where
  flows := t.flows ++ es.map Entry.flows
  conditions := t.conditions ++ es.map Entry.conditions
  storages := t.storages ++ es.map Entry.storage
  transfers := t.transfers ++ es.map Entry.transferPcs
  conditionPcs := t.conditionPcs ++ es.map Entry.conditionPcs

def ofEntries (es : List Entry) : Tables where
  flows := es.map Entry.flows
  conditions := es.map Entry.conditions
  storages := es.map Entry.storage
  transfers := es.map Entry.transferPcs
  conditionPcs := es.map Entry.conditionPcs

theorem append_nil (t : Tables) : t.append [] = t := by
  simp [append]

theorem append_append (t : Tables) (es es' : List Entry) :
    (t.append es).append es' = t.append (es ++ es') := by
  simp [append]

/-- The entry is added, unless one with its transfers is there already. -/
def file (t : Tables) (e : Entry) : Tables := if e.flows ∈ t.flows then t else t.append [e]

def Grows (P : Entry → Prop) (a b : Tables) : Prop :=
  ∃ es, b = a.append es ∧ (∀ e ∈ es, P e) ∧ (a.flows.Nodup → b.flows.Nodup)

variable {P Q : Entry → Prop} {a b c : Tables}

theorem Grows.of_eq (h : b = a) : a.Grows P b :=
  ⟨[], h.trans (append_nil a).symm, by simp, fun hn => h ▸ hn⟩

theorem grows_file (t : Tables) (e : Entry) : t.Grows (· = e) (t.file e) := by
  unfold file
  split
  · exact .of_eq rfl
  next hnew =>
    refine ⟨[e], rfl, fun e' he' => List.mem_singleton.1 he', fun hnodup => ?_⟩
    exact hnodup.append (List.nodup_singleton _) (by simpa using hnew)

theorem Grows.trans (h : a.Grows P b) (h' : b.Grows P c) : a.Grows P c := by
  obtain ⟨es, rfl, hes, hnodup⟩ := h
  obtain ⟨es', rfl, hes', hnodup'⟩ := h'
  refine ⟨es ++ es', append_append a es es', fun e he => ?_, fun hn => hnodup' (hnodup hn)⟩
  rcases List.mem_append.1 he with he | he
  · exact hes e he
  · exact hes' e he

theorem Grows.imp (hpq : ∀ e, P e → Q e) (h : a.Grows P b) : a.Grows Q b := by
  obtain ⟨es, hb, hes, hnodup⟩ := h
  exact ⟨es, hb, fun e he => hpq e (hes e he), hnodup⟩

end Tables

namespace Exec

variable {ctx : Context} {entries : Table Int String}

/-! ### Records -/

theorem tables_traced (site : Site) (text : String) (m : Machine) :
    ((traced ctx site text).outcome m).2.shared.tables = m.shared.tables :=
  (ledger_traced site text m).1.tables

theorem tables_runAll (site : Site) (texts : List String) (m : Machine) :
    ((runAll ctx site texts).outcome m).2.shared.tables = m.shared.tables :=
  (forall_ran (P := fun m' => m'.shared.tables = m.shared.tables)
    (fun text m' _ h => (tables_traced site text m').trans h) rfl).2

theorem tables_record (m : Machine) :
    (record.outcome m).2.shared.tables = m.shared.tables.file m.path.entry := by
  rw [record, outcome_bind_getPath, outcome_modifyShared, Tables.file]
  dsimp only
  split
  next h =>
    rw [List.contains_iff_mem] at h
    exact (if_pos h).symm
  next h =>
    rw [List.contains_iff_mem] at h
    exact (if_neg h).symm

theorem grows_record (m : Machine) :
    m.shared.tables.Grows (· = m.path.entry) (record.outcome m).2.shared.tables := by
  rw [tables_record]
  exact Tables.grows_file _ _

def Filed (ctx : Context) (entries : Table Int String) (c : Call) (e : Entry) : Prop :=
  ∃ d m, Relation.ReflTransGen (Next ctx entries) c d ∧ Completes ctx entries d m ∧ e = m.path.entry

theorem maintains_grows (root : Call) : Maintains ctx entries root fun m =>
    root.machine.shared.tables.Grows (Filed ctx entries root) m.shared.tables where
  traced _ _ hm := hm.trans (.of_eq (tables_traced _ _ _))
  record hreach hcompletes hm :=
    hm.trans ((grows_record _).imp fun _ he => ⟨_, _, hreach, hcompletes, he⟩)
  entered v hm := hm.trans (.of_eq (congrArg Ledger.tables (steady_enter v _)))
  onward previous site last hm :=
    hm.trans (.of_eq (congrArg Ledger.tables (steady_onward previous site last _)))
  withPath _ _ _ hm := hm
  withEdges _ _ hm := hm

theorem maintains_recorded (root : Call) (cs : List Condition) :
    Maintains ctx entries root fun m => cs ∈ m.shared.tables.conditions where
  traced _ _ hm := by rwa [tables_traced]
  record {_ m} _ _ hm := by
    obtain ⟨es, htables, -⟩ := grows_record m
    rw [htables]
    exact List.mem_append_left _ hm
  entered {m} v hm := by
    rwa [show ((enter ctx entries v).outcome m).2.shared.tables =
      _ from congrArg Ledger.tables (steady_enter v m)]
  onward {m} previous site last hm := by
    rwa [show ((onward ctx previous site last).outcome m).2.shared.tables = _ from
      congrArg Ledger.tables (steady_onward previous site last m)]
  withPath _ _ _ hm := hm
  withEdges _ _ hm := hm

theorem Next.conditions_subset {c d : Call} (h : Next ctx entries c d) :
    ((explore ctx entries d.remaining d.visit).outcome d.machine).2.shared.conditions ⊆
      ((explore ctx entries c.remaining c.visit).outcome c.machine).2.shared.conditions :=
  fun cs hcs => (maintains_recorded c cs).ending_of_next .refl h hcs

theorem filed_of_moment {root c : Call} {m : Machine}
    (hroot : root.machine.shared.tables = .ofEntries []) (hreach : Reaches ctx entries root c)
    (hm : Moment ctx entries c m) : ∃ es : List Entry, m.shared.tables = .ofEntries es ∧
      (∀ e ∈ es, Filed ctx entries root e) ∧ (es.map Entry.flows).Nodup := by
  obtain ⟨es, htables, hfiled, hnodup⟩ := (maintains_grows root).holds (.of_eq rfl) hreach hm
  rw [hroot] at htables hnodup
  replace htables : m.shared.tables = .ofEntries es := htables
  replace hnodup := hnodup List.nodup_nil
  rw [htables] at hnodup
  exact ⟨es, htables, hfiled, hnodup⟩

end Exec

end EvmAudit
