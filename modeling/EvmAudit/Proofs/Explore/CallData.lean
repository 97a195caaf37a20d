import EvmAudit.Proofs.Explore.Variables
import EvmAudit.Proofs.Listing.Reading

/-! Reads of the call data. Without a source, each of them pushes a variable that is new, so that
two reads on one path never agree, whatever their positions. -/

namespace EvmAudit

open Listing (Code)

namespace Exec

variable {ctx : Context} {entries : Table Int String} {g : Graph} {root : Call}
variable {history : List (String × Machine)} {m m' : Machine} {s : String × Machine} {site : Site}
  {text : String}

def readsData (text : String) : Bool := decide ((Instruction.ofText text).operation = .callDataLoad)

def dataWord (m : Machine) : Value := .var m.shared.names.freshData.1

theorem dataWord_ne (h : m.shared.names.data < m'.shared.names.data) :
    dataWord m ≠ dataWord m' := by
  intro hword
  have hname : m.shared.names.freshData.1 = m'.shared.names.freshData.1 :=
    Term.var.inj (Value.word.inj hword)
  have hnumber := numbered_injective "Id_" hname
  omega

theorem freshData_ne {name : String} (h : name.toList.take 3 ≠ ['I', 'd', '_']) (g : Names) :
    g.freshData.1 ≠ name := by
  rintro rfl
  rw [Names.freshData, String.toList_append] at h
  exact h rfl

theorem outcome_callDataLoad (hsource : ctx.source = none) (hm : m.path.SelfNamed)
    {position : Value} {rest : List Value} (hstack : m.path.stack = position :: rest)
    (function : String) : ∃ m', (callDataLoad ctx function).outcome m = (.ok (), m') ∧
      m'.path.stack = dataWord m :: rest ∧ m'.shared.names.data = m.shared.names.data + 1 := by
  have hname : dataName ctx position function = fresh Names.freshData := by
    unfold dataName
    rw [hsource]
  have hself : m.shared.names.freshData.1 ∉ ["Is", "Ia", "Iv"] := by
    simp only [List.mem_cons, List.not_mem_nil, or_false, not_or]
    exact ⟨freshData_ne (by decide) _, freshData_ne (by decide) _, freshData_ne (by decide) _⟩
  have hread (m₁ : Machine) (hpath : m₁.path = (m.taken rest).path) :
      ∃ m', outcome (do push (← itemNamed m.shared.names.freshData.1)) m₁ = (.ok (), m') ∧
        m'.path.stack = dataWord m :: rest ∧ m'.shared = m₁.shared := by
    have hword : m₁.path.wordFor m.shared.names.freshData.1 = dataWord m := by
      rw [hpath]
      exact Path.SelfNamed.wordFor (p := (m.taken rest).path) hm hself
    obtain ⟨vars, hnamed⟩ := outcome_wordFor m.shared.names.freshData.1 m₁
    rw [itemNamed, if_neg (freshData_ne (by decide) _), outcome_bind, hnamed, hword]
    refine ⟨_, rfl, ?_, rfl⟩
    rw [hpath]
    rfl
  obtain ⟨m', hm', hpushed, hshared⟩ := hread { m.taken rest with
    shared := { m.shared with names := m.shared.names.freshData.2 } } rfl
  refine ⟨m', ?_, hpushed, by rw [hshared]; rfl⟩
  rw [callDataLoad, outcome_need_advance _ (by simp [hstack]), hstack, outcome_pop_taken, hname,
    outcome_bind]
  exact hm'

theorem traced_callDataLoad (hsource : ctx.source = none) (hm : m.path.SelfNamed)
    (hready : ((ready ctx text).outcome m).1 = .ok ()) (hreads : readsData text = true)
    (hitems : m.path.stack ≠ []) (site : Site) :
    ∃ m', Traces ctx site text m m' ∧ m'.path.stack = dataWord m :: m.path.stack.tail ∧
      m'.shared.names.data = m.shared.names.data + 1 := by
  obtain ⟨position, rest, hstack⟩ := List.exists_cons_of_ne_nil hitems
  refine traced_ok hready fun m₁ hbefore => ?_
  have hstack₁ : m₁.path.stack = position :: rest := hbefore.stack.trans hstack
  have hself : m₁.path.SelfNamed := by
    rw [Path.SelfNamed, hbefore.vars]
    exact hm
  obtain ⟨m₂, hm₂, hpushed, hcount⟩ := outcome_callDataLoad hsource hself hstack₁ site.function
  refine ⟨m₂, ?_, fun m' hafter => ⟨?_, ?_⟩⟩
  · rw [effect, of_decide_eq_true hreads]
    exact hm₂
  · have hkept := hafter.stack
    rw [hkept, hpushed, hstack, dataWord, dataWord, hbefore.names, List.tail_cons]
  · have hkept := hafter.names
    rw [hkept, hcount, hbefore.names]

theorem callDataLoad_of_traced (hsource : ctx.source = none) (hm : m.path.SelfNamed)
    (hreads : readsData text = true) (h : Traces ctx site text m m') :
    ((ready ctx text).outcome m).1 = .ok () ∧ m.path.stack ≠ [] ∧
    m'.shared.names.data = m.shared.names.data + 1 := by
  obtain ⟨m₁, m₂, hready, hbefore, heffect, -⟩ := performs_of_traced h
  rw [effect, of_decide_eq_true hreads] at heffect
  replace heffect : (callDataLoad ctx site.function).outcome m₁ = (.ok (), m₂) := heffect
  have hitems : 1 ≤ m₁.path.stack.length := by
    unfold callDataLoad at heffect
    exact items_of_need heffect
  have hnonempty : m.path.stack ≠ [] := List.ne_nil_of_length_pos (hbefore.stack ▸ hitems)
  have hok : ((ready ctx text).outcome m).1 = .ok () := by rw [hready]
  obtain ⟨m₃, hm₃, -, hcount⟩ := traced_callDataLoad hsource hm hok hreads hnonempty site
  cases h.symm.trans hm₃
  exact ⟨hok, hnonempty, hcount⟩

def Pushes (ctx : Context) (s : String × Machine) (v : Value) : Prop :=
  ∀ site, ∃ m', Traces ctx site s.1 s.2 m' ∧ m'.path.stack = v :: s.2.path.stack.tail

theorem pushes_dataWord (hsource : ctx.source = none) (hm : m.path.SelfNamed)
    (hready : ((ready ctx text).outcome m).1 = .ok ()) (hreads : readsData text = true)
    (hitems : m.path.stack ≠ []) : Pushes ctx (text, m) (dataWord m) := by
  intro site
  obtain ⟨m', hm', hpushed, -⟩ := traced_callDataLoad hsource hm hready hreads hitems site
  exact ⟨m', hm', hpushed⟩

def dataReads (history : List (String × Machine)) : List (String × Machine) :=
  history.filter fun r => readsData r.1

theorem dataReads_append_read (h : readsData s.1 = true) :
    dataReads (history ++ [s]) = dataReads history ++ [s] := by
  simp [dataReads, h]

theorem dataReads_append_other (h : readsData s.1 = false) :
    dataReads (history ++ [s]) = dataReads history := by
  simp [dataReads, h]

/-- The reads of the call data so far have pushed their own words, under numbers that increase up to
the last that has been used. -/
structure DataRead (ctx : Context) (history : List (String × Machine)) (m : Machine) : Prop where
  named : m.path.SelfNamed
  pushes : ∀ r ∈ dataReads history, Pushes ctx r (dataWord r.2)
  below : ∀ r ∈ dataReads history, r.2.shared.names.data < m.shared.names.data
  ordered : (dataReads history).Pairwise fun r r' => r.2.shared.names.data < r'.2.shared.names.data

theorem DataRead.append_read (h : DataRead ctx history m) (hreads : readsData text = true)
    (hpushes : Pushes ctx (text, m) (dataWord m)) :
    (∀ r ∈ dataReads (history ++ [(text, m)]), Pushes ctx r (dataWord r.2)) ∧
      (dataReads (history ++ [(text, m)])).Pairwise fun r r' =>
        r.2.shared.names.data < r'.2.shared.names.data := by
  rw [dataReads_append_read (s := (text, m)) hreads]
  constructor
  · intro r hr
    rcases List.mem_append.1 hr with hr | hr
    · exact h.pushes r hr
    · rwa [List.mem_singleton.1 hr]
  · refine List.pairwise_append.2 ⟨h.ordered, List.pairwise_singleton _ _, fun r hr r' hr' => ?_⟩
    rw [List.mem_singleton.1 hr']
    exact h.below r hr

theorem upholds_dataRead (hsource : ctx.source = none) : Upholds ctx (DataRead ctx) where
  traced {history site text m m'} hbefore h := by
    have hnames := @naming_traced ctx site text m
    rw [h] at hnames
    have hnamed := hnames.selfNamed hbefore.named
    have hbelow (r : String × Machine) (hr : r ∈ dataReads history) :
        r.2.shared.names.data < m'.shared.names.data :=
      Nat.lt_of_lt_of_le (hbefore.below r hr) hnames.grow.data
    cases hreads : readsData text with
    | true =>
      obtain ⟨hready, hitems, hcount⟩ := callDataLoad_of_traced hsource hbefore.named hreads h
      obtain ⟨hpushes, hordered⟩ := hbefore.append_read hreads
        (pushes_dataWord hsource hbefore.named hready hreads hitems)
      refine ⟨hnamed, hpushes, fun r hr => ?_, hordered⟩
      rw [dataReads_append_read (s := (text, m)) hreads] at hr
      rcases List.mem_append.1 hr with hr | hr
      · exact hbelow r hr
      · rw [List.mem_singleton.1 hr, hcount]
        exact Nat.lt_succ_self _
    | false =>
      have hsame : dataReads (history ++ [(text, m)]) = dataReads history :=
        dataReads_append_other hreads
      refine ⟨hnamed, fun r hr => hbefore.pushes r ?_, fun r hr => hbelow r ?_, ?_⟩
      · rwa [hsame] at hr
      · rwa [hsame] at hr
      · rw [hsame]
        exact hbefore.ordered
  continues {history m m'} hbefore h hnames := by
    obtain ⟨pc, conditions, conditionPcs, hpath⟩ := h
    refine ⟨?_, hbefore.pushes, fun r hr => ?_, hbefore.ordered⟩
    · rw [hpath]
      exact hbefore.named
    · exact Nat.lt_of_lt_of_le (hbefore.below r hr) hnames.data

/-- On every path, the reads of the call data push variables that are all different, at equal
positions as at different ones. -/
theorem call_data_words_nodup (hsource : ctx.source = none) (hroot : Begins ctx g entries root)
    (hs : Reached ctx entries root history s) (hreads : readsData s.1 = true)
    (hitems : s.2.path.stack ≠ []) (htime : ctx.deadline ≠ some (s.2.shared.executed + 1)) :
    (∀ r ∈ dataReads (history ++ [s]), Pushes ctx r (dataWord r.2)) ∧
      ((dataReads (history ++ [s])).map fun r => dataWord r.2).Nodup := by
  have hop := of_decide_eq_true hreads
  have hread := hs.upholds (upholds_dataRead hsource)
    ⟨hroot.selfNamed, List.forall_mem_nil _, List.forall_mem_nil _, .nil⟩
  have hready : ((ready ctx s.1).outcome s.2).1 = .ok () :=
    ready_ok (by rw [hop]; exact fun _ => rfl) (by rw [hop]; rfl) (by rw [hop]; decide) htime
  obtain ⟨hpushes, hordered⟩ := hread.append_read hreads
    (pushes_dataWord hsource hread.named hready hreads hitems)
  exact ⟨hpushes, List.pairwise_map.2 (hordered.imp dataWord_ne)⟩

def readTwice : Code := .ofDrafts
  [⟨0, "PUSH1", some "04"⟩, ⟨2, "CALLDATALOAD", none⟩, ⟨3, "PUSH1", some "04"⟩,
    ⟨5, "CALLDATALOAD", none⟩, ⟨6, "STOP", none⟩]

def readTwiceTexts : List String := ["PUSH1 0x04 ", "CALLDATALOAD ", "PUSH1 0x04 "]

theorem block_readTwice : (readTwice.linked.blocks.get? 0).map Block.instructions =
    some (readTwiceTexts ++ "CALLDATALOAD " :: ["STOP "]) := by
  rw [Code.linked_sorted]
  decide +kernel

theorem run_readTwice :
    let m := Call.openedBy affirming readTwice.linked readTwiceTexts
    let o := (traced affirming Site.first "CALLDATALOAD ").outcome m
    Call.Passes affirming readTwice.linked readTwiceTexts ∧
    (Call.openedBy affirming readTwice.linked ["PUSH1 0x04 "]).path.stack = [.int 4] ∧
    m.path.stack = [.int 4, .var "Id_1"] ∧ o.1.isOk = true ∧
    o.2.path.stack = [.var "Id_2", .var "Id_1"] ∧
    Call.Passes affirming readTwice.linked (["PUSH1 0x04 "] ++ ["CALLDATALOAD "]) := by
  decide +kernel

theorem call_data_words_nodup_readTwice : ∃ history s,
    Reached affirming {} (.first affirming readTwice.linked) history s ∧
    s.1 = "CALLDATALOAD " ∧ (∀ r ∈ dataReads (history ++ [s]), Pushes affirming r (dataWord r.2)) ∧
    ((dataReads (history ++ [s])).map fun r => dataWord r.2).Nodup := by
  obtain ⟨hrun, -, hstack, -⟩ := run_readTwice
  have hroot : Begins affirming readTwice.linked {} _ := begins_first (.inl rfl) (by decide +kernel)
  have hs := reached_first rfl block_readTwice (by decide) (by decide) hrun
  obtain ⟨hpushes, hnodup⟩ := call_data_words_nodup rfl hroot hs (by decide) (by simp [hstack])
    (Option.some_ne_none _).symm
  exact ⟨_, _, hs, rfl, hpushes, hnodup⟩

/-- Two reads of the call data at position 4, one after the other, push different variables. -/
theorem call_data_read_twice_differs : ∃ front r between s m',
    Reached affirming {} (.first affirming readTwice.linked) (front ++ r :: between) s ∧
    r.1 = "CALLDATALOAD " ∧ r.2.path.stack = [.int 4] ∧
    s.1 = "CALLDATALOAD " ∧ s.2.path.stack = [.int 4, .var "Id_1"] ∧
    (traced affirming Site.first s.1).outcome s.2 = (.ok (), m') ∧
    m'.path.stack = [.var "Id_2", .var "Id_1"] := by
  obtain ⟨hrun, hfirst, hsecond, hok, hpushed, hread⟩ := run_readTwice
  have hs := reached_first rfl block_readTwice (by decide) (by decide) hrun
  have htexts : readTwiceTexts = ["PUSH1 0x04 "] ++ "CALLDATALOAD " :: ["PUSH1 0x04 "] := rfl
  rw [htexts, steps_openedBy hread] at hs
  exact ⟨_, _, _, _, _, hs, rfl, hfirst, rfl, hsecond, outcome_eq_of_isOk hok, hpushed⟩

end Exec

end EvmAudit
