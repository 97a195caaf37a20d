import EvmAudit.Document.Snapshot
import EvmAudit.Proofs.Explore.Histories
import EvmAudit.Proofs.Graph.Links
import EvmAudit.Proofs.Machine.Bare
import EvmAudit.Proofs.Machine.Opening

/-! Copies of a path. Each branch goes on with a copy, which shares with the path what stands inside
a list. So the branches are independent as long as no list holds a list or a record. -/

namespace EvmAudit

open Document

namespace Document

/-! ### Copies of documents -/

def isContainer : Document → Bool
  | .array _ | .object _ => true
  | _ => false

mutual

def flat : Document → Bool
  | .array items => items.all fun d => !d.isContainer
  | .object members => flatMembers members
  | _ => true

def flatMembers : List (String × Document) → Bool
  | [] => true
  | (_, d) :: rest => flat d && flatMembers rest

end

mutual

/-- The copy of a record, as it reads after a change of the lists and records in the record
itself. -/
def copyAfter (change : Document → Document) : Document → Document
  | .array items => .array (items.map change)
  | .object members => .object (copyMembersAfter change members)
  | d => d

def copyMembersAfter (change : Document → Document) : List (String × Document) →
    List (String × Document)
  | [] => []
  | (name, d) :: rest => (name, copyAfter change d) :: copyMembersAfter change rest

end

def SparesScalars (change : Document → Document) : Prop := ∀ d, d.isContainer = false → change d = d

def Isolated (d : Document) : Prop := ∀ change, SparesScalars change → d.copyAfter change = d

theorem copyAfter_of_flat {change : Document → Document} (hchange : SparesScalars change)
    (d : Document) : d.flat = true → d.copyAfter change = d := by
  refine flat.induct (fun d => d.flat = true → d.copyAfter change = d)
    (fun members => flatMembers members = true → copyMembersAfter change members = members) ?_ ?_
    ?_ ?_ ?_ d
  · intro items h
    have hitems : ∀ d ∈ items, change d = d := fun d hd =>
      hchange d (by simpa using List.all_eq_true.1 h d hd)
    rw [copyAfter, List.map_congr_left hitems, List.map_id']
  · intro members ih h
    rw [copyAfter, ih h]
  · intro d harray hobject _
    cases d <;> first | rfl | exact (harray _ rfl).elim | exact (hobject _ rfl).elim
  · exact fun _ => rfl
  · intro name d rest ihd ihrest h
    obtain ⟨hd, hrest⟩ := Bool.and_eq_true_iff.1 h
    rw [copyMembersAfter, ihd hd, ihrest hrest]

def erased (d : Document) : Document := if d.isContainer then .null else d

theorem flat_of_copyAfter_erased (d : Document) : d.copyAfter erased = d → d.flat = true := by
  refine flat.induct (fun d => d.copyAfter erased = d → d.flat = true)
    (fun members => copyMembersAfter erased members = members → flatMembers members = true) ?_ ?_
    ?_ ?_ ?_ d
  · intro items h
    have hitems : items.map erased = items := Document.array.inj h
    refine List.all_eq_true.2 fun d hd => ?_
    have hsame : erased d = d := List.map_inj_left.1 (hitems.trans (List.map_id items).symm) d hd
    cases d <;> first | rfl | cases hsame
  · intro members ih h
    exact ih (Document.object.inj h)
  · intro d harray hobject _
    cases d <;> first | rfl | exact (harray _ rfl).elim | exact (hobject _ rfl).elim
  · exact fun _ => rfl
  · intro name d rest ihd ihrest h
    obtain ⟨hd, hrest⟩ := List.cons.inj h
    exact Bool.and_eq_true_iff.2 ⟨ihd (Prod.mk.inj hd).2, ihrest hrest⟩

theorem flat_iff_isolated (d : Document) : d.flat = true ↔ d.Isolated := by
  refine ⟨fun h change hchange => copyAfter_of_flat hchange d h,
    fun h => flat_of_copyAfter_erased d (h _ ?_)⟩
  intro d hd
  rw [erased, if_neg (by simp [hd])]

theorem changedItems_eq (items : List Document) : changedItems items = items.map changed := by
  induction items with
  | nil => rfl
  | cons d rest ih => rw [changedItems, ih, List.map_cons]

theorem copyAfterChange_eq (d : Document) : d.copyAfterChange = d.copyAfter changed := by
  refine flat.induct (fun d => d.copyAfterChange = d.copyAfter changed)
    (fun members => copyMembers members = copyMembersAfter changed members) ?_ ?_ ?_ ?_ ?_ d
  · intro items
    rw [copyAfterChange, changedItems_eq, copyAfter]
  · intro members ih
    rw [copyAfterChange, ih, copyAfter]
  · intro d harray hobject
    cases d <;> first | rfl | exact (harray _ rfl).elim | exact (hobject _ rfl).elim
  · rfl
  · intro name d rest ihd ihrest
    rw [copyMembers, ihd, ihrest, copyMembersAfter]

theorem flatMembers_iff {members : List (String × Document)} :
    flatMembers members = true ↔ ∀ e ∈ members, e.2.flat = true := by
  induction members with
  | nil => simp [flatMembers]
  | cons e rest ih => simp [flatMembers, ih]

theorem flat_array_iff {items : List Document} :
    (Document.array items).flat = true ↔ ∀ d ∈ items, d.isContainer = false := by
  simp [flat]

end Document

/-! ### The document of a path -/

def Value.document (print : Printer) : Value → Document
  | .record => .object []
  | .conditions cs => .array (cs.map fun c => .text (print.condition c))
  | v => .text (print.value v)

def Key.text : Key → String
  | .at n => toString n
  | .named s => s

def Table.document {κ : Type} [DecidableEq κ] (print : Printer) (name : κ → String)
    (t : Table κ Value) : Document :=
  .object (t.entries.map fun e => (name e.1, e.2.document print))

def Analysis.document (a : Analysis) : Document :=
  .object [("gas", .int a.gas), ("gas_mem", .int a.memoryGas),
    ("money_flow", .array (a.flows.map fun f => .text (f.source ++ f.destination ++ f.amount))),
    ("reentrancy_bug", .array (a.reentrancy.map .bool)),
    ("money_concurrency_bug", .array (a.transferPcs.map .int)),
    ("time_dependency_bug", .object (a.conditionPcs.entries.map fun e => (toString e.1, .int e.2)))]

def givenNames : List String :=
  ["value", "sender_address", "receiver_address", "gas_price", "origin", "currentCoinbase",
    "currentTimestamp", "currentNumber", "currentDifficulty", "currentGasLimit"]

def World.document (print : Printer) (w : World) : Document :=
  .object ([("pc", .int w.pc), ("balance", w.balance.document print id),
    ("Ia", w.storage.document print Key.text), ("miu_i", w.activeWords.document print)] ++
    (givenNames.zip w.given).map fun e => (e.1, e.2.document print))

/-- The lists and records of a path that has gone through these blocks. The conditions stand among
the words in use. -/
def Path.document (print : Printer) (visited : List Int) (p : Path) : Document :=
  .object [("stack", .array (p.stack.map (Value.document print))),
    ("calls", .array (p.calls.map .int)),
    ("memory", .array (p.bytes.toList.map (Value.document print))),
    ("visited", .array (visited.map .int)),
    ("overflow_pcs", .array (p.overflowPcs.map .int)), ("mem", p.words.document print Key.text),
    ("analysis", p.analysis.document), ("sha3_list", p.hashes.document print id),
    ("global_state", p.world.document print),
    ("path_conditions_and_vars",
      .object ((Names.conditions, .array (p.conditions.map fun c => .text (print.condition c))) ::
        p.vars.entries.map fun e => (e.1, e.2.document print)))]

variable {print : Printer} {visited : List Int}

theorem Value.flat_document (v : Value) : (v.document print).flat = true := by
  cases v with
  | conditions cs => exact flat_array_iff.2 (by simp [Document.isContainer])
  | _ => rfl

theorem Value.isContainer_document (v : Value) :
    (v.document print).isContainer = v.isContainer := by
  cases v <;> rfl

theorem Document.flatMembers_map {α : Type} {name : α → String} {item : α → Document}
    (h : ∀ a, (item a).flat = true) (es : List α) :
    flatMembers (es.map fun e => (name e, item e)) = true := by
  rw [flatMembers_iff]
  intro e he
  obtain ⟨x, -, rfl⟩ := List.mem_map.1 he
  exact h x

theorem Document.flat_map {α : Type} {item : α → Document} (h : ∀ a, (item a).isContainer = false)
    (xs : List α) : (Document.array (xs.map item)).flat = true := by
  rw [flat_array_iff]
  intro d hd
  obtain ⟨x, -, rfl⟩ := List.mem_map.1 hd
  exact h x

theorem Table.flat_document {κ : Type} [DecidableEq κ] (name : κ → String) (t : Table κ Value) :
    (t.document print name).flat = true :=
  flatMembers_map (fun e => e.2.flat_document) t.entries

theorem Analysis.flat_document (a : Analysis) : a.document.flat = true := by
  refine flatMembers_iff.2 ?_
  simp only [List.forall_mem_cons, List.not_mem_nil, false_implies, implies_true, and_true]
  exact ⟨rfl, rfl, flat_map (fun _ => rfl) _, flat_map (fun _ => rfl) _,
    flat_map (fun _ => rfl) _, flatMembers_map (fun _ => rfl) _⟩

theorem World.flat_document (w : World) : (w.document print).flat = true := by
  refine flatMembers_iff.2 fun e he => ?_
  rcases List.mem_append.1 he with he | he
  · simp only [List.mem_cons, List.not_mem_nil, or_false] at he
    rcases he with rfl | rfl | rfl | rfl
    · rfl
    · exact Table.flat_document _ _
    · exact Table.flat_document _ _
    · exact Value.flat_document _
  · exact flatMembers_iff.1 (flatMembers_map (fun e => e.2.flat_document) _) e he

theorem Path.flat_document_iff {p : Path} :
    (p.document print visited).flat = true ↔ (∀ v ∈ p.stack, v.Bare) ∧
    ∀ v ∈ p.bytes.toList, v.Bare := by
  have hitems (vs : List Value) : (Document.array (vs.map (Value.document print))).flat = true ↔
      ∀ v ∈ vs, v.Bare := by
    simp [flat_array_iff, Value.isContainer_document, Value.Bare]
  have hvars : Document.flat (.object ((Names.conditions,
      .array (p.conditions.map fun c => .text (print.condition c))) ::
      p.vars.entries.map fun e => (e.1, e.2.document print))) = true :=
    Bool.and_eq_true_iff.2 ⟨flat_map (fun _ => rfl) _,
    flatMembers_map (fun e => e.2.flat_document) _⟩
  rw [document, Document.flat, flatMembers_iff]
  simp only [List.forall_mem_cons, hitems, hvars, Table.flat_document, Analysis.flat_document,
    World.flat_document, flat_map (fun n : Int => (rfl : (Document.int n).isContainer = false)),
    true_and, and_true, List.not_mem_nil, false_implies, implies_true]

theorem Path.Bare.flat {p : Path} (h : p.Bare) : (p.document print visited).flat = true := by
  refine Path.flat_document_iff.2 ⟨h.items.stack, fun v hv => ?_⟩
  obtain ⟨i, -, rfl⟩ := List.mem_map.1 hv
  exact h.bytes i

theorem Path.snapshot_of_flat {p : Path} (h : (p.document print visited).flat = true) :
    (p.document print visited).snapshot = .ok (p.document print visited) := by
  have hchanged : Document.SparesScalars Document.changed := by
    intro d hd
    cases d <;> first | rfl | cases hd
  have hcopy : (p.document print visited).snapshot =
      .ok (p.document print visited).copyAfterChange := rfl
  rw [hcopy, copyAfterChange_eq, copyAfter_of_flat hchanged _ h]

theorem Path.snapshot_ne {p : Path} {cs : List Condition} {rest : List Value}
    (h : p.stack = .conditions cs :: rest) :
    (p.document print visited).snapshot ≠ .ok (p.document print visited) := by
  intro hsame
  have hmembers := Document.object.inj (Except.ok.inj hsame)
  have hstack := (Prod.mk.inj (List.cons.inj hmembers).1).2
  rw [h, copyAfterChange_eq] at hstack
  have htop := (List.cons.inj (Document.array.inj hstack)).1
  have hlength := congrArg List.length (Document.array.inj htop)
  simp [changedItems_eq] at hlength

theorem Path.not_flat {p : Path} {cs : List Condition} {rest : List Value}
    (h : p.stack = .conditions cs :: rest) : (p.document print visited).flat = false := by
  refine Bool.eq_false_iff.2 fun hflat => ?_
  have htop := (Path.flat_document_iff.1 hflat).1 _ (h ▸ List.mem_cons_self)
  cases htop

/-- No list of the path holds a list or a record. So a copy of it reads like the path, and goes on
to do so whatever becomes of the lists and records of the path. -/
structure Path.Separable (print : Printer) (p : Path) : Prop where
  flat (visited : List Int) : (p.document print visited).flat = true
  copy (visited : List Int) : (p.document print visited).snapshot = .ok (p.document print visited)
  isolated (visited : List Int) : (p.document print visited).Isolated

theorem Path.Bare.separable {p : Path} (h : p.Bare) : p.Separable print :=
  ⟨fun _ => h.flat, fun _ => Path.snapshot_of_flat h.flat, fun _ => (flat_iff_isolated _).1 h.flat⟩

namespace Exec

variable {ctx : Context} {entries : Table Int String}

/-! ### Branches -/

theorem Begins.bare {g : Graph} {root : Call} (h : Begins ctx g entries root) :
    root.machine.path.Bare := by
  obtain ⟨o, paid, payable, owned, ho, -, -, -, hfurnish⟩ := start_ok h.started
  have hopening : o.All Value.Bare :=
    Opening.gives_opening (W := Value.Bare) (fun _ => rfl) rfl (fun _ _ => rfl) o ho
  have hbytes : root.machine.path.bytes = {} := h.alike.bytes
  have hholds : Holds _ (.ofItems Value.Bare fun _ => True) (fun _ => True) (furnish o) Done :=
    holds_furnish (fun _ => hopening) (fun _ => rfl) fun _ _ => ⟨gives_trivial _, gives_trivial _⟩
  refine ⟨hholds.items ?_ hfurnish fun _ => trivial, fun i => hbytes ▸ rfl⟩
  have hgiven : ∀ v ∈ ({} : World).given, v.Bare := by decide
  exact ⟨by simp, Table.all_empty, Table.all_empty, ((Table.all_empty.insert hopening.sender).insert
    hopening.receiver).insert hopening.value, Table.all_empty, trivial, hgiven⟩

theorem keeps_bare (hsource : ctx.SparesConditions)
    (hchain : on ctx.settings.useGlobalBlockchain = false) : Keeps ctx fun _ p => p.Bare where
  traced hbefore h := bare_traced hsource hchain hbefore h
  continues hbefore h := by
    obtain ⟨pc, conditions, conditionPcs, rfl⟩ := h
    exact ⟨{ hbefore.items with }, hbefore.bytes⟩

/-- The instruction reads a parameter from the call data that is named like the conditions of the
path. -/
structure ReadsConditions (ctx : Context) (site : Site) (s : String × Machine) : Prop where
  load : (Instruction.ofText s.1).operation = .callDataLoad
  parameter : ∃ map code n ps, ctx.source = some map ∧ map.sourceCode s.2.path.world.pc = .ok code ∧
    Text.startsWith code "function" = true ∧ s.2.path.stack.head?.bind Value.toInt? = some n ∧
    map.parameters.get? site.function = some ps ∧ parameterName? ps n = some Names.conditions

theorem outcome_dataName {map : SourceMap} {code function name : String} {position : Value}
    {n : Int} {ps : List Parameter} {m : Machine} (hmap : ctx.source = some map)
    (hcode : map.sourceCode (m.path.world.pc - 1) = .ok code)
    (hfunction : Text.startsWith code "function" = true) (hn : position.toInt? = some n)
    (hps : map.parameters.get? function = some ps) (hname : parameterName? ps n = some name) :
    ∃ m', (dataName ctx position function).outcome m = (.ok name, m') ∧ m'.path = m.path := by
  refine ⟨((noteParameters ps n).outcome m).2, ?_, rfl⟩
  rw [dataName, hmap]
  dsimp only
  rw [hn, hps]
  dsimp only
  rw [outcome_bind, show pc.outcome m = (.ok m.path.world.pc, m) from rfl]
  dsimp only
  rw [hcode, outcome_bind, outcome_ofExcept]
  dsimp only
  rw [if_pos hfunction, hname]
  rfl

theorem stack_of_readsConditions {site : Site} {text : String} {m m' : Machine}
    (hs : ReadsConditions ctx site (text, m)) (h : Traces ctx site text m m') :
    ∃ rest, m'.path.stack = .conditions m.path.conditions :: rest := by
  obtain ⟨hload, map, code, n, ps, hmap, hcode, hfunction, hn, hps, hname⟩ := hs
  obtain ⟨m₁, m₂, -, hbefore, heffect, hafter⟩ := performs_of_traced h
  rw [effect, show (Instruction.ofText text).operation = .callDataLoad from hload] at heffect
  obtain ⟨hitems, hload⟩ :=
    taken_of_need (show (do need 1; advance 1; _ : Exec Unit).outcome m₁ = _ from heffect)
  obtain ⟨position, rest, hposition⟩ := List.exists_cons_of_length_pos hitems
  rw [hposition, outcome_pop_taken] at hload
  rw [hbefore.stack] at hposition
  have hn : position.toInt? = some n := by simpa [hposition] using hn
  have hcode : map.sourceCode ((m₁.taken rest).path.world.pc - 1) = .ok code := by
    have hpc : (m₁.taken rest).path.world.pc - 1 = m.path.world.pc := by
      rw [← hbefore.pc]
      exact Int.add_sub_cancel _ _
    rw [hpc]
    exact hcode
  obtain ⟨m₃, hdata, hpath⟩ := outcome_dataName hmap hcode hfunction hn hps hname
  rw [outcome_bind, hdata] at hload
  cases hload
  rw [hafter.stack, ← hbefore.conditions]
  refine ⟨rest, ?_⟩
  change Value.conditions m₃.path.conditions :: m₃.path.stack = _
  rw [hpath]
  rfl

/-- Copies of the states of an exploration. If no parameter has the name of the conditions, no list
holds a list or a record, before or after any instruction, and whatever is done to the state, its
copy stays. After an instruction that reads a parameter of that name a list stands in the stack, and
the copy shares it. -/
theorem copies_isolated {g : Graph} {root : Call} {history : List (String × Machine)}
    {s : String × Machine} (hchain : on ctx.settings.useGlobalBlockchain = false)
    (hroot : Begins ctx g entries root) (hs : Reached ctx entries root history s) :
    (ctx.SparesConditions → s.2.path.Separable ctx.print) ∧
    ∀ site m', (traced ctx site s.1).outcome s.2 = (.ok (), m') →
      (ctx.SparesConditions → m'.path.Separable ctx.print) ∧
      (ReadsConditions ctx site s → ∀ visited, (m'.path.document ctx.print visited).flat = false ∧
        ¬ (m'.path.document ctx.print visited).Isolated ∧
        (m'.path.document ctx.print visited).snapshot ≠
          .ok (m'.path.document ctx.print visited)) := by
  have hbare (hsource : ctx.SparesConditions) : s.2.path.Bare :=
    hs.keeps (keeps_bare hsource hchain) hroot.bare
  refine ⟨fun hsource => (hbare hsource).separable,
    fun site m' h => ⟨fun hsource => ?_, fun hreads visited => ?_⟩⟩
  · exact (bare_traced hsource hchain (hbare hsource) h).separable
  · obtain ⟨rest, hstack⟩ := stack_of_readsConditions hreads h
    have hflat := @Path.not_flat ctx.print visited _ _ _ hstack
    exact ⟨hflat, fun h => by simp [(flat_iff_isolated _).2 h] at hflat, Path.snapshot_ne hstack⟩

def readParameter : Listing.Code := .ofDrafts
  [⟨0, "PUSH1", some "04"⟩, ⟨2, "CALLDATALOAD", none⟩, ⟨3, "STOP", none⟩]

def parameterContext (name : String) : Context where
  decide := fun _ => .sat []
  source := some {
    contract := "c.sol:C"
    root := ""
    text := .ofContent "function"
    positions := []
    items := .ofList [(2, .ofRange 0 8)]
    varNames := []
    callNames := []
    callees := []
    parameters :=
      .ofList [("fallback", [{ name, kind := "uint256", size := none, position := some 0 }])]
    signatures := {} }

theorem spares_parameterContext {name : String} (h : name ≠ Names.conditions) :
    (parameterContext name).SparesConditions := by
  intro map hmap function ps hps p hp
  cases hmap
  have hps' : ((Table.empty : Table String (List Parameter)).insert "fallback" _).get? function =
      some ps := hps
  rw [Table.get?_insert] at hps'
  split at hps' <;> cases hps'
  rw [List.mem_singleton.1 hp]
  exact h

theorem block_readParameter : (readParameter.linked.blocks.get? 0).map Block.instructions =
    some (["PUSH1 0x04 "] ++ "CALLDATALOAD " :: ["STOP "]) := by
  rw [Listing.Code.linked_sorted]
  decide +kernel

theorem signatures_readParameter : readParameter.linked.signatures = .ok {} := by
  have htexts : readParameter.linked.instructions.values =
      ["PUSH1 0x04 ", "CALLDATALOAD ", "STOP "] := by
    rw [Listing.Code.linked_sorted]
    decide +kernel
  rw [Graph.signatures, htexts]
  rfl

theorem begins_readParameter {name : String} (hstart : ((start (parameterContext name)).outcome
      { shared := { graph := readParameter.linked } }).1.isOk = true) :
    Begins (parameterContext name) readParameter.linked {}
    (.first (parameterContext name) readParameter.linked) :=
  begins_first (.inr signatures_readParameter) hstart

theorem reached_readParameter {name : String}
    (hrun : Call.Passes (parameterContext name) readParameter.linked ["PUSH1 0x04 "]) :
    ∃ history, Reached (parameterContext name) {}
    (.first (parameterContext name) readParameter.linked) history ("CALLDATALOAD ",
      Call.openedBy (parameterContext name) readParameter.linked ["PUSH1 0x04 "]) :=
  ⟨_, reached_first rfl block_readParameter (show (1 : Int) ≤ 10 by decide)
    (show (0 : Int) ≤ 4000000 by decide) hrun⟩

/-- A parameter of another name is put on the stack as a word, and the state stays separable. -/
theorem copies_isolated_readParameter : ∃ history s m',
    on (parameterContext "amount").settings.useGlobalBlockchain = false ∧
    Begins (parameterContext "amount") readParameter.linked {}
      (.first (parameterContext "amount") readParameter.linked) ∧
    Reached (parameterContext "amount") {} (.first (parameterContext "amount") readParameter.linked)
    history s ∧ (parameterContext "amount").SparesConditions ∧ s.2.path.Separable {} ∧
    (traced (parameterContext "amount") Site.first s.1).outcome s.2 = (.ok (), m') ∧
    m'.path.Separable {} := by
  have hrun : ((runAll (parameterContext "amount") Site.first ["PUSH1 0x04 "]).outcome
        (Call.opened (parameterContext "amount") readParameter.linked)).1.isOk = true ∧
      ((traced (parameterContext "amount") Site.first "CALLDATALOAD ").outcome
        (Call.openedBy (parameterContext "amount") readParameter.linked ["PUSH1 0x04 "])).1.isOk =
        true := by
    decide +kernel
  have hroot := @begins_readParameter "amount" (by decide +kernel)
  obtain ⟨history, hs⟩ := reached_readParameter hrun.1
  have hspares := @spares_parameterContext "amount" (by decide)
  have hmain := copies_isolated rfl hroot hs
  exact ⟨history, _, _, rfl, hroot, hs, hspares, hmain.1 hspares, outcome_eq_of_isOk hrun.2,
    (hmain.2 _ _ (outcome_eq_of_isOk hrun.2)).1 hspares⟩

/-- A parameter that is named like the conditions puts their list on the stack, where a copy shares
it. -/
theorem copy_shared : ∃ history s m',
    Begins (parameterContext Names.conditions) readParameter.linked {}
      (.first (parameterContext Names.conditions) readParameter.linked) ∧
    Reached (parameterContext Names.conditions) {}
      (.first (parameterContext Names.conditions) readParameter.linked) history s ∧
    (traced (parameterContext Names.conditions) Site.first s.1).outcome s.2 = (.ok (), m') ∧
    (m'.path.document {} [0]).flat = false ∧
    (m'.path.document {} [0]).snapshot ≠ .ok (m'.path.document {} [0]) := by
  have hrun :
      let m :=
        Call.openedBy (parameterContext Names.conditions) readParameter.linked ["PUSH1 0x04 "]
      let o := (traced (parameterContext Names.conditions) Site.first "CALLDATALOAD ").outcome m
      ((runAll (parameterContext Names.conditions) Site.first ["PUSH1 0x04 "]).outcome
        (Call.opened (parameterContext Names.conditions) readParameter.linked)).1.isOk = true ∧
      o.1.isOk = true ∧ o.2.path.stack = [.conditions m.path.conditions] := by
    decide +kernel
  obtain ⟨hrun, hok, hstack⟩ := hrun
  obtain ⟨history, hs⟩ := reached_readParameter hrun
  exact ⟨history, _, _, begins_readParameter (by decide +kernel), hs, outcome_eq_of_isOk hok,
    Path.not_flat hstack, Path.snapshot_ne hstack⟩

end Exec

end EvmAudit
