import EvmAudit.Proofs.Explore.Histories
import EvmAudit.Proofs.Graph.Links
import EvmAudit.Proofs.Term.Written

/-! Reading storage after it was written. An entry is kept under a number or under a text, and a
read looks under both. A read that finds nothing makes up a word, and keeps it under the text of its
position in normal form, whatever may be there. -/

namespace EvmAudit

def found? (p : Printer) (storage : Table Key Value) (position : Value) : Option Value :=
  (position.toInt?.bind fun n => storage.get? (.at n)).or (storage.get? (.named (p.value position)))

namespace Path

def madeUp (ctx : Context) (p : Path) (position : Value) : Value :=
  p.wordFor (Names.storage ctx.print (ctx.simplify.value position) "")

def readAt (ctx : Context) (p : Path) (position : Value) : Value :=
  (found? ctx.print p.world.storage position).getD (p.madeUp ctx position)

end Path

theorem Value.toInt?_simplify (s : Simplifier) (v : Value) : (s.value v).toInt? = v.toInt? := by
  cases v <;> rfl

theorem Key.ofValue_of_toInt? {p : Printer} {v : Value} {n : Int} (h : v.toInt? = some n) :
    ofValue p v = .at n := by
  rw [ofValue, h]

theorem Key.ofValue_of_toInt?_none {p : Printer} {v : Value} (h : v.toInt? = none) :
    ofValue p v = .named (p.value v) := by
  rw [ofValue, h]

theorem found?_of_toInt?_none {p : Printer} {storage : Table Key Value} {q : Value}
    (h : q.toInt? = none) : found? p storage q = storage.get? (.named (p.value q)) := by
  rw [found?, h]
  rfl

theorem get?_of_found?_none {p : Printer} {storage : Table Key Value} {q : Value}
    (h : found? p storage q = none) : storage.get? (Key.ofValue p q) = none := by
  obtain ⟨hnumber, htext⟩ := Option.or_eq_none_iff.1 h
  cases hq : q.toInt? with
  | none => rwa [Key.ofValue_of_toInt?_none hq]
  | some n =>
    rw [hq] at hnumber
    rwa [Key.ofValue_of_toInt? hq]

theorem Printer.Sound.value_const {p : Printer} (h : p.Sound) (c : Word) :
    p.value (.word (.const c)) = p.value (.int c.toNat) := h.const c

namespace Exec

variable {ctx : Context} {entries : Table Int String}
variable {s : String × Machine} {rest : List Value}

/-! ### Instructions -/

/-- What an instruction writes to storage: a store its operand, and a read that finds nothing the
word that it makes up. -/
def written? (ctx : Context) (s : String × Machine) : Option (Key × Value) :=
  match (Instruction.ofText s.1).operation, s.2.path.stack with
  | .sstore, p :: v :: _ => some (Key.ofValue ctx.print p, v)
  | .sload, q :: _ =>
    if (found? ctx.print s.2.path.world.storage q).isSome then none
    else some (Key.ofValue ctx.print (ctx.simplify.value q), s.2.path.madeUp ctx q)
  | _, _ => none

theorem written?_of_sload {q : Value} (hop : (Instruction.ofText s.1).operation = .sload)
    (hstack : s.2.path.stack = q :: rest) :
    written? ctx s = if (found? ctx.print s.2.path.world.storage q).isSome then none
      else some (Key.ofValue ctx.print (ctx.simplify.value q), s.2.path.madeUp ctx q) := by
  rw [written?, hop, hstack]

theorem written?_of_sstore {p v : Value} (hop : (Instruction.ofText s.1).operation = .sstore)
    (hstack : s.2.path.stack = p :: v :: rest) :
    written? ctx s = some (Key.ofValue ctx.print p, v) := by
  rw [written?, hop, hstack]

def storing (storage : Table Key Value) : Option (Key × Value) → Table Key Value
  | some (k, v) => storage.insert k v
  | none => storage

theorem get?_storing (storage : Table Key Value) (written : Option (Key × Value)) (k : Key) :
    (storing storage written).get? k = (written.toList.lookup k).or (storage.get? k) := by
  rcases written with _ | ⟨k', v⟩
  · rfl
  · rw [storing, Table.get?_insert, Option.toList_some, List.lookup_cons, List.lookup_nil]
    by_cases h : k = k'
    · simp [h]
    · simp [h, beq_false_of_ne h]

section Local

variable (hsource : ctx.source = none) (hglobal : on ctx.settings.useGlobalStorage = false)
variable {rest : List Value}

include hsource hglobal

theorem outcome_sload {m : Machine} {q : Value} (h : m.path.stack = q :: rest) :
    ∃ m', (sload ctx).outcome m = (.ok (), m') ∧ m'.path.stack = m.path.readAt ctx q :: rest ∧
      m'.path.world.storage = storing m.path.world.storage
        (if (found? ctx.print m.path.world.storage q).isSome then none else
          some (Key.ofValue ctx.print (ctx.simplify.value q), m.path.madeUp ctx q)) := by
  have hmade : ∃ m', (loadUnknown ctx q).outcome (m.taken rest) = (.ok (), m') ∧
      m'.path.stack = m.path.madeUp ctx q :: rest ∧
      m'.path.world.storage =
      m.path.world.storage.insert (Key.ofValue ctx.print (ctx.simplify.value q))
      (m.path.madeUp ctx q) := by
    have hlabel : storageLabel ctx = pure "" := by
      unfold storageLabel
      rw [hsource]
    obtain ⟨vars, hword⟩ :=
      outcome_wordFor (Names.storage ctx.print (ctx.simplify.value q) "") (m.taken rest)
    rw [loadUnknown, hlabel, pure_bind, outcome_bind, hword]
    exact ⟨_, rfl, rfl, rfl⟩
  rw [sload, outcome_need_advance _ (by simp [h]), h, outcome_pop_taken, outcome_bind_getWorld]
  dsimp only
  have hstorage : (m.taken rest).path.world.storage = m.path.world.storage := rfl
  rw [hstorage, hglobal]
  unfold Path.readAt found?
  cases hnumber : q.toInt?.bind fun n => m.path.world.storage.get? (.at n) with
  | some v => exact ⟨_, rfl, rfl, rfl⟩
  | none =>
    rw [Option.none_or]
    cases htext : m.path.world.storage.get? (.named (ctx.print.value q)) with
    | some v =>
      refine ⟨{ m.taken rest with path := { (m.taken rest).path with stack := v :: rest } }, ?_,
        rfl, rfl⟩
      cases q.toInt? <;> rfl
    | none =>
      obtain ⟨m', hm', hstack, hstored⟩ := hmade
      refine ⟨m', ?_, hstack, hstored⟩
      rw [← hm']
      cases q.toInt? <;> rfl

omit hsource hglobal in
theorem outcome_sstore {m : Machine} {p v : Value} (h : m.path.stack = p :: v :: rest) :
    ∃ m', (sstore ctx).outcome m = (.ok (), m') ∧
    m'.path.world.storage = m.path.world.storage.insert (Key.ofValue ctx.print p) v := by
  have hpops (m₁ : Machine) (h₁ : m₁.path.stack = p :: v :: rest) :
      ∃ m', outcome (do
          let position ← pop
          let v ← pop
          setStorage (Key.ofValue ctx.print position) v) m₁ = (.ok (), m') ∧
          m'.path.world.storage = m₁.path.world.storage.insert (Key.ofValue ctx.print p) v := by
    rw [outcome_bind, outcome_pop h₁]
    exact ⟨_, rfl, rfl⟩
  rw [sstore, outcome_bind, outcome_need (by simp [h])]
  exact hpops _ h

omit hsource hglobal in
theorem mem_of_storage_mem_footprint {op : Operation} (h : .storage ∈ footprint op) :
    op = .sload ∨ op = .sstore := by
  cases op <;> simp [footprint] at h ⊢

theorem traced_sload {s : String × Machine} {q : Value} (site : Site)
    (hop : (Instruction.ofText s.1).operation = .sload) (hstack : s.2.path.stack = q :: rest)
    (htime : ctx.deadline ≠ some (s.2.shared.executed + 1)) :
    ∃ m', Traces ctx site s.1 s.2 m' ∧ m'.path.stack = s.2.path.readAt ctx q :: rest := by
  have hready : ((ready ctx s.1).outcome s.2).1 = .ok () :=
    ready_ok (by rw [hop]; exact fun _ => rfl) (by rw [hop]; rfl) (by rw [hop]; decide) htime
  refine traced_ok hready fun m₁ hbefore => ?_
  have hstack₁ : m₁.path.stack = q :: rest := hbefore.stack.trans hstack
  obtain ⟨m₂, hm₂, hread, -⟩ := outcome_sload hsource hglobal hstack₁
  refine ⟨m₂, by rw [effect, hop]; exact hm₂, fun m' hafter => ?_⟩
  have hsame : m₁.path.readAt ctx q = s.2.path.readAt ctx q := by
    unfold Path.readAt Path.madeUp Path.wordFor
    rw [hbefore.vars, hbefore.storage]
  exact hafter.stack.trans (hread.trans (by rw [hsame]))

theorem storage_traced {site : Site} {text : String} {m m' : Machine}
    (h : Traces ctx site text m m') :
    m'.path.world.storage = storing m.path.world.storage (written? ctx (text, m)) := by
  obtain ⟨m₁, m₂, -, hbefore, heffect, hafter⟩ := performs_of_traced h
  have hmade (q : Value) : m₁.path.madeUp ctx q = m.path.madeUp ctx q := by
    rw [Path.madeUp, Path.wordFor, hbefore.vars]
    rfl
  rw [hafter.storage]
  by_cases hload : (Instruction.ofText text).operation = .sload
  · rw [effect, hload] at heffect
    replace heffect : (sload ctx).outcome m₁ = (.ok (), m₂) := heffect
    have hitems : 1 ≤ m₁.path.stack.length := by
      unfold sload at heffect
      exact items_of_need heffect
    obtain ⟨q, rest, hq⟩ := List.exists_cons_of_length_pos hitems
    obtain ⟨m₃, hm₃, -, hstored⟩ := outcome_sload hsource hglobal hq
    cases hm₃.symm.trans heffect
    rw [hstored, hmade, hbefore.storage,
      written?_of_sload (s := (text, m)) hload (hbefore.stack.symm.trans hq)]
  · by_cases hstore : (Instruction.ofText text).operation = .sstore
    · rw [effect, hstore] at heffect
      replace heffect : (sstore ctx).outcome m₁ = (.ok (), m₂) := heffect
      have hitems : 2 ≤ m₁.path.stack.length := by
        unfold sstore at heffect
        exact items_of_need heffect
      obtain ⟨p, v, rest, hp⟩ := exists_two_items hitems
      obtain ⟨m₃, hm₃, hstored⟩ := outcome_sstore hp
      cases hm₃.symm.trans heffect
      rw [hstored, hbefore.storage,
        written?_of_sstore (s := (text, m)) hstore (hbefore.stack.symm.trans hp)]
      rfl
    · have hnothing : written? ctx (text, m) = none := by
        unfold written?
        split
        · exact absurd ‹_› hstore
        · exact absurd ‹_› hload
        · rfl
      have hframe := touches_perform ctx site (Instruction.ofText text).name
        (Instruction.ofText text).operation m₁ .storage fun hmem =>
          (mem_of_storage_mem_footprint hmem).elim hload hstore
      rw [heffect] at hframe
      rw [hnothing, storing, ← hbefore.storage]
      exact hframe

end Local

/-! ### Paths -/

def lastWritten (ctx : Context) (history : List (String × Machine)) (k : Key) : Option Value :=
  (history.filterMap (written? ctx)).reverse.lookup k

theorem lastWritten_append (front back : List (String × Machine)) (k : Key) :
    lastWritten ctx (front ++ back) k = (lastWritten ctx back k).or (lastWritten ctx front k) := by
  rw [lastWritten, List.filterMap_append, List.reverse_append, List.lookup_append]
  rfl

theorem lastWritten_singleton (s : String × Machine) (k : Key) :
    lastWritten ctx [s] k = (written? ctx s).toList.lookup k := by
  rw [lastWritten, List.filterMap_cons]
  cases written? ctx s <;> rfl

/-- The storage of a path has under each key what was written last under it. -/
def StoredIn (ctx : Context) (history : List (String × Machine)) (p : Path) : Prop :=
  ∀ k, p.world.storage.get? k = lastWritten ctx history k

theorem keeps_storedIn (hsource : ctx.source = none)
    (hglobal : on ctx.settings.useGlobalStorage = false) : Keeps ctx (StoredIn ctx) where
  traced hbefore h k := by
    rw [storage_traced hsource hglobal h, get?_storing, lastWritten_append, lastWritten_singleton,
      hbefore k]

theorem Begins.storedIn {g : Graph} {root : Call} (h : Begins ctx g entries root) :
    StoredIn ctx [] root.machine.path := by
  intro k
  have hstorage : root.machine.path.world.storage = {} := h.alike.storage
  rw [hstorage]
  rfl

section Reading

variable {root : Call} {history : List (String × Machine)} {s : String × Machine}
variable {rest : List Value}

theorem written?_of_number {n : Int} (hop : (Instruction.ofText s.1).operation ≠ .sstore)
    (hentry : (s.2.path.world.storage.get? (.at n)).isSome) :
    (written? ctx s).toList.lookup (.at n) = none := by
  unfold written?
  split
  · exact absurd ‹_› hop
  next q rest _ _ =>
    split
    · rfl
    next hmissing =>
      have hnone : s.2.path.world.storage.get? (Key.ofValue ctx.print q) = none :=
        get?_of_found?_none (by simpa using hmissing)
      have hkey : Key.ofValue ctx.print (ctx.simplify.value q) ≠ .at n := by
        intro hkey
        cases hq : q.toInt? with
        | none =>
          rw [Key.ofValue_of_toInt?_none (by rwa [Value.toInt?_simplify])] at hkey
          cases hkey
        | some k =>
          rw [Key.ofValue_of_toInt? (by rwa [Value.toInt?_simplify])] at hkey
          rw [Key.ofValue_of_toInt? hq, hkey] at hnone
          rw [hnone] at hentry
          cases hentry
      rw [Option.toList_some, List.lookup_cons, beq_false_of_ne hkey.symm, List.lookup_nil]
  · rfl

theorem lastWritten_number (hkept : Keeps ctx (StoredIn ctx))
    (hroot : StoredIn ctx [] root.machine.path) {before between : List (String × Machine)}
    (hs : Reached ctx entries root (before ++ between) s)
    (hreads : ∀ s' ∈ between, (Instruction.ofText s'.1).operation ≠ .sstore) {n : Int} {v : Value}
    (hv : lastWritten ctx before (.at n) = some v) :
    lastWritten ctx (before ++ between) (.at n) = some v := by
  induction between using List.reverseRecOn generalizing s with
  | nil => rwa [List.append_nil]
  | append_singleton between s' ih =>
    have hsplit : before ++ (between ++ [s']) = before ++ between ++ s' :: [] := by
      rw [List.append_assoc]
    have hs' : Reached ctx entries root (before ++ between) s' := hs.of_split hsplit
    have hentry := ih hs' fun x hx => hreads x (List.mem_append_left _ hx)
    have hstored := hs'.keeps hkept hroot (.at n)
    rw [hentry] at hstored
    rw [← List.append_assoc, lastWritten_append, lastWritten_singleton,
      written?_of_number (hreads s' (by simp)) (by rw [hstored]; rfl), hentry]
    rfl

theorem lastWritten_store {w : String × Machine} {p v : Value}
    (hop : (Instruction.ofText w.1).operation = .sstore) (hstack : w.2.path.stack = p :: v :: rest)
    (before between : List (String × Machine)) (k : Key) :
    lastWritten ctx (before ++ w :: between) k =
      (lastWritten ctx between k).or
        (if k = Key.ofValue ctx.print p then some v else lastWritten ctx before k) := by
  rw [lastWritten_append, ← List.singleton_append, lastWritten_append, lastWritten_singleton,
    written?_of_sstore hop hstack, Option.or_assoc, Option.toList_some, List.lookup_cons,
    List.lookup_nil]
  by_cases hk : k = Key.ofValue ctx.print p
  · simp [hk]
  · simp [hk, beq_false_of_ne hk]

theorem get?_after_read {q : Value} {k : Key} {u : Value}
    (hop : (Instruction.ofText s.1).operation = .sload) (hstack : s.2.path.stack = q :: rest)
    (hu : s.2.path.world.storage.get? k = some u) :
    (storing s.2.path.world.storage (written? ctx s)).get? k = some u ∨
      found? ctx.print s.2.path.world.storage q = none ∧ ctx.simplify.value q ≠ q ∧
      k = Key.ofValue ctx.print (ctx.simplify.value q) ∧
        (storing s.2.path.world.storage (written? ctx s)).get? k =
          some (s.2.path.madeUp ctx q) := by
  rw [written?_of_sload hop hstack]
  cases hfound : found? ctx.print s.2.path.world.storage q with
  | some v => exact .inl hu
  | none =>
    rw [Option.isSome_none, if_neg Bool.false_ne_true, storing]
    by_cases hk : k = Key.ofValue ctx.print (ctx.simplify.value q)
    · refine .inr ⟨rfl, fun hnormal => ?_, hk, by rw [hk, Table.get?_insert_self]⟩
      rw [hk, hnormal, get?_of_found?_none hfound] at hu
      cases hu
    · exact .inl (by rwa [Table.get?_insert_of_ne hk])

end Reading

/-- A read of storage on any path, without a source map and without a look at the chain. It always
succeeds, unless time runs out. Of the entries that are there it changes none, unless the text of
its position is there in normal form only. After a store at a position with the same number it gives
what was stored; after one at a symbolic position with the same text it does too, unless a read in
between has written under that text. A constant word finds no entry under the number that it is, and
a number finds the entry under the constant only if there is none under the number. -/
theorem storage_read_after_write {g : Graph} {root : Call} {history : List (String × Machine)}
    {s : String × Machine} {q : Value} {rest : List Value} (hroot : Begins ctx g entries root)
    (hprint : ctx.print.Sound) (hsource : ctx.source = none)
    (hglobal : on ctx.settings.useGlobalStorage = false) (hs : Reached ctx entries root history s)
    (hop : (Instruction.ofText s.1).operation = .sload) (hstack : s.2.path.stack = q :: rest)
    (htime : ctx.deadline ≠ some (s.2.shared.executed + 1)) (site : Site) :
    (∃ m', (traced ctx site s.1).outcome s.2 = (.ok (), m') ∧
      m'.path.stack = s.2.path.readAt ctx q :: rest ∧
      ∀ k u, s.2.path.world.storage.get? k = some u →
        m'.path.world.storage.get? k = some u ∨
          found? ctx.print s.2.path.world.storage q = none ∧ ctx.simplify.value q ≠ q ∧
          k = Key.ofValue ctx.print (ctx.simplify.value q) ∧
            m'.path.world.storage.get? k = some (s.2.path.madeUp ctx q)) ∧
    ∀ before w between p v rest', history = before ++ w :: between →
      (Instruction.ofText w.1).operation = .sstore → w.2.path.stack = p :: v :: rest' →
      (∀ s' ∈ between, (Instruction.ofText s'.1).operation ≠ .sstore) →
      (∀ n, p.toInt? = some n → q.toInt? = some n → s.2.path.readAt ctx q = v) ∧
      (p.toInt? = none → q.toInt? = none → ctx.print.value p = ctx.print.value q →
        s.2.path.readAt ctx q = (lastWritten ctx between (.named (ctx.print.value q))).getD v) ∧
      (∀ c, p = .word (.const c) → q = .int c.toNat →
        s.2.path.readAt ctx q = (s.2.path.world.storage.get? (.at c.toNat)).getD
          ((lastWritten ctx between (.named (ctx.print.value p))).getD v)) ∧
      ∀ c, p = .int c.toNat → q = .word (.const c) →
        s.2.path.readAt ctx q =
          (lastWritten ctx (before ++ between) (.named (ctx.print.value q))).getD
            (s.2.path.madeUp ctx q) := by
  have hkept := @keeps_storedIn ctx hsource hglobal
  have hstored := hs.keeps hkept hroot.storedIn
  constructor
  · obtain ⟨m', hm', hread⟩ := traced_sload hsource hglobal site hop hstack htime
    refine ⟨m', hm', hread, fun k u hu => ?_⟩
    rw [storage_traced hsource hglobal hm']
    exact get?_after_read hop hstack hu
  · rintro before w between p v rest' rfl hstore hoperands hreads
    have hlast := @lastWritten_store ctx _ _ _ _ hstore hoperands before between
    refine ⟨fun n hp hq => ?_, fun hp hq htext => ?_, ?_, ?_⟩
    · have hentry : lastWritten ctx (before ++ [w]) (.at n) = some v := by
        rw [lastWritten_store hstore hoperands before [], Key.ofValue_of_toInt? hp, if_pos rfl]
        rfl
      have hsplit : before ++ w :: between = before ++ [w] ++ between := by simp
      have hnumber : s.2.path.world.storage.get? (.at n) = some v := by
        rw [hstored, hsplit]
        exact lastWritten_number hkept hroot.storedIn (hsplit ▸ hs) hreads hentry
      rw [Path.readAt, found?, hq, Option.bind_some, hnumber]
      rfl
    · rw [Path.readAt, found?_of_toInt?_none hq, hstored, hlast, Key.ofValue_of_toInt?_none hp,
        htext, if_pos rfl]
      cases lastWritten ctx between (.named (ctx.print.value q)) <;> rfl
    · rintro c rfl rfl
      have hword : Key.ofValue ctx.print (.word (.const c)) =
          .named (ctx.print.value (.word (.const c))) := rfl
      rw [Path.readAt, found?, ← hprint.value_const, hstored (.named _), hlast, hword, if_pos rfl]
      change ((s.2.path.world.storage.get? (.at c.toNat)).or _).getD _ = _
      cases s.2.path.world.storage.get? (.at c.toNat) with
      | some u => rfl
      | none => cases lastWritten ctx between (.named (ctx.print.value (.word (.const c)))) <;> rfl
    · rintro c rfl rfl
      have hnumber : Key.named (ctx.print.value (.word (.const c))) ≠
          Key.ofValue ctx.print (.int c.toNat) := fun h => by cases h
      rw [Path.readAt, found?_of_toInt?_none rfl, hstored, hlast, if_neg hnumber,
        lastWritten_append]

open Listing

def storeAndRead : Code := .ofDrafts
  [⟨0, "PUSH1", some "07"⟩, ⟨2, "CALLER", none⟩, ⟨3, "SSTORE", none⟩, ⟨4, "PUSH1", some "00"⟩,
    ⟨6, "SLOAD", none⟩, ⟨7, "CALLER", none⟩, ⟨8, "SLOAD", none⟩, ⟨9, "STOP", none⟩]

def storeAndReadTexts : List String :=
  ["PUSH1 0x07 ", "CALLER "] ++ "SSTORE " :: ["PUSH1 0x00 ", "SLOAD ", "CALLER "]

theorem block_storeAndRead : (storeAndRead.linked.blocks.get? 0).map Block.instructions =
    some (storeAndReadTexts ++ "SLOAD " :: ["STOP "]) := by
  rw [Code.linked_sorted]
  decide +kernel

theorem run_storeAndRead :
    let passes := Call.Passes affirming storeAndRead.linked
    let behind := Call.openedBy affirming storeAndRead.linked
    passes storeAndReadTexts ∧ passes (["PUSH1 0x07 ", "CALLER "] ++ ["SSTORE "]) ∧
    (behind ["PUSH1 0x07 ", "CALLER "]).path.stack = [.word (.var "Is"), .int 7] ∧
    (behind storeAndReadTexts).path.stack = [.word (.var "Is"), .word (.var "Ia_store-0-")] ∧
    lastWritten affirming (steps affirming Site.first ["PUSH1 0x00 ", "SLOAD ", "CALLER "]
      (behind (["PUSH1 0x07 ", "CALLER "] ++ ["SSTORE "])))
      (.named (Printer.value {} (.word (.var "Is")))) = none := by
  decide +kernel

/-- The value that is stored is read back, though there is a read elsewhere in between. -/
theorem storage_read_after_write_storeAndRead : ∃ history s m',
    Reached affirming {} (.first affirming storeAndRead.linked) history s ∧
    s.1 = "SLOAD " ∧ s.2.path.stack.head? = some (.word (.var "Is")) ∧
    (traced affirming Site.first s.1).outcome s.2 = (.ok (), m') ∧
    m'.path.stack.head? = some (.int 7) := by
  obtain ⟨hrun, hstore, hoperands, hposition, hbetween⟩ := run_storeAndRead
  have hroot : Begins affirming storeAndRead.linked {} _ :=
    begins_first (.inl rfl) (by decide +kernel)
  have hs := reached_first rfl block_storeAndRead (by decide) (by decide) hrun
  have hreads : ∀ text ∈ ["PUSH1 0x00 ", "SLOAD ", "CALLER "],
      (Instruction.ofText text).operation ≠ .sstore := by decide
  obtain ⟨⟨m', hm', hstack, -⟩, hread⟩ :=
    storage_read_after_write hroot Printer.sound_default rfl (by decide) hs (by decide)
    hposition (by decide) Site.first
  obtain ⟨-, hsame, -⟩ :=
    hread _ _ _ _ _ _ (steps_openedBy hstore) (by decide) hoperands fun s' hs' =>
    hreads _ (text_mem_of_mem_steps hs')
  refine ⟨_, _, m', hs, rfl, by rw [hposition]; rfl, hm', ?_⟩
  rw [hstack, hsame rfl rfl rfl]
  exact congrArg (fun u : Option Value => some (u.getD (.int 7))) hbetween

def storeAndMiss : Code := .ofDrafts
  [⟨0, "PUSH1", some "07"⟩, ⟨2, "PUSH1", some "00"⟩, ⟨4, "SSTORE", none⟩, ⟨5, "CALLER", none⟩,
    ⟨6, "DUP1", none⟩, ⟨7, "SUB", none⟩, ⟨8, "SLOAD", none⟩, ⟨9, "STOP", none⟩]

def storeAndMissTexts : List String :=
  ["PUSH1 0x07 ", "PUSH1 0x00 ", "SSTORE ", "CALLER ", "DUP1 ", "SUB "]

theorem block_storeAndMiss : (storeAndMiss.linked.blocks.get? 0).map Block.instructions =
    some (storeAndMissTexts ++ "SLOAD " :: ["STOP "]) := by
  rw [Code.linked_sorted]
  decide +kernel

theorem run_storeAndMiss :
    let m := Call.openedBy affirming storeAndMiss.linked storeAndMissTexts
    let o := (traced affirming Site.first "SLOAD ").outcome m
    Call.Passes affirming storeAndMiss.linked storeAndMissTexts ∧ o.1.isOk = true ∧
    m.path.stack = [.word (.const 0)] ∧ m.path.world.storage.get? (.at 0) = some (.int 7) ∧
    o.2.path.stack = [.word (.var "Ia_store-0-")] := by
  decide +kernel

def storeAndSpoil : Code := .ofDrafts
  [⟨0, "CALLER", none⟩, ⟨1, "PUSH1", some "00"⟩, ⟨3, "MSTORE8", none⟩, ⟨4, "PUSH1", some "07"⟩,
    ⟨6, "PUSH1", some "00"⟩, ⟨8, "MLOAD", none⟩, ⟨9, "PUSH1", some "00"⟩, ⟨11, "ADD", none⟩,
    ⟨12, "SSTORE", none⟩, ⟨13, "PUSH1", some "00"⟩, ⟨15, "MLOAD", none⟩, ⟨16, "SLOAD", none⟩,
    ⟨17, "STOP", none⟩]

def storeAndSpoilTexts : List String :=
  ["CALLER ", "PUSH1 0x00 ", "MSTORE8 ", "PUSH1 0x07 ", "PUSH1 0x00 ", "MLOAD ", "PUSH1 0x00 ",
    "ADD ", "SSTORE ", "PUSH1 0x00 ", "MLOAD "]

theorem block_storeAndSpoil : (storeAndSpoil.linked.blocks.get? 0).map Block.instructions =
    some (storeAndSpoilTexts ++ "SLOAD " :: ["STOP "]) := by
  rw [Code.linked_sorted]
  decide +kernel

theorem run_storeAndSpoil :
    let m := Call.openedBy affirming storeAndSpoil.linked storeAndSpoilTexts
    let o := (traced affirming Site.first "SLOAD ").outcome m
    Call.Passes affirming storeAndSpoil.linked storeAndSpoilTexts ∧ o.1.isOk = true ∧
    m.path.world.storage.get? (.named "bvsmod_i(Is, 256)") = some (.int 7) ∧
    o.2.path.world.storage.get? (.named "bvsmod_i(Is, 256)") ≠ some (.int 7) := by
  decide +kernel

/-- After 7 was stored at 0, a read at the constant word 0 gives another value; and a read at a word
that is not in normal form changes the entry that was stored under its normal form. -/
theorem storage_read_missed :
    (∃ history s m',
      Reached affirming {} (.first affirming storeAndMiss.linked) history s ∧
      s.1 = "SLOAD " ∧ (traced affirming Site.first s.1).outcome s.2 = (.ok (), m') ∧
      s.2.path.stack = [.word (.const 0)] ∧ s.2.path.world.storage.get? (.at 0) = some (.int 7) ∧
      m'.path.stack = [.word (.var "Ia_store-0-")]) ∧
    ∃ history s m' k,
      Reached affirming {} (.first affirming storeAndSpoil.linked) history s ∧
      s.1 = "SLOAD " ∧ (traced affirming Site.first s.1).outcome s.2 = (.ok (), m') ∧
      s.2.path.world.storage.get? k = some (.int 7) ∧
      m'.path.world.storage.get? k ≠ some (.int 7) := by
  obtain ⟨hmiss, hmissed, hstack⟩ := run_storeAndMiss
  obtain ⟨hspoil, hspoiled, hentry⟩ := run_storeAndSpoil
  exact ⟨⟨_, _, _, reached_first rfl block_storeAndMiss (by decide) (by decide) hmiss, rfl,
      outcome_eq_of_isOk hmissed, hstack⟩,
    _, _, _, _, reached_first rfl block_storeAndSpoil (by decide) (by decide) hspoil, rfl,
      outcome_eq_of_isOk hspoiled, hentry⟩

end Exec

end EvmAudit
