import Mathlib.Order.Bounds.Basic
import EvmAudit.Proofs.Graph.Links

/-! The shape of the graph of a listing: its blocks are runs of lines that do not overlap, a block
ends as its last line says, and control falls to the line behind it, where the next block begins. -/

namespace EvmAudit

namespace Graph

def Falls (g : Graph) (k : Int) : Prop :=
  ∃ e, g.endings.get? k = some e ∧ fallsThrough e = true

variable {g : Graph} {keys : List Int} {k next : Int} {b : Block}

def LinkedTo (g g' : Graph) (k next : Int) : Prop :=
  g'.blocks.get? k = (g.blocks.get? k).map (fun b => { b with fallsTo := some next }) ∧
    g'.edges.get? k = some [next]

def SameAt (g g' : Graph) (k : Int) : Prop :=
  g'.blocks.get? k = g.blocks.get? k ∧ g'.edges.get? k = g.edges.get? k

theorem linkNext_spec {key : Int} (he : g.edges.get? key = some []) :
    ∃ g₁, g.linkNext key next = .ok g₁ ∧ g₁.endings = g.endings ∧ (∀ k, k ≠ key → SameAt g g₁ k) ∧
      (g.Falls key → LinkedTo g g₁ key next) ∧ (¬ g.Falls key → g₁ = g) := by
  unfold linkNext
  cases hend : g.endings.get? key with
  | none =>
    refine ⟨g, rfl, rfl, fun _ _ => ⟨rfl, rfl⟩, ?_, fun _ => rfl⟩
    rintro ⟨e, h, -⟩
    rw [hend] at h
    cases h
  | some ending =>
    have hiff : g.Falls key ↔ fallsThrough ending = true := by simp [Falls, hend]
    cases hf : fallsThrough ending with
    | false => exact ⟨g, by simp [hf], rfl, fun _ _ => ⟨rfl, rfl⟩, by simp [hiff, hf], fun _ => rfl⟩
    | true =>
      refine ⟨_, by simp only [hf, he, if_true]; rfl, ?_, fun k hk => ?_, fun _ => ?_,
        fun h => absurd (hiff.2 hf) h⟩ <;> unfold updateBlock
      · split <;> rfl
      · split
        · exact ⟨rfl, Table.get?_insert_of_ne hk _ _⟩
        · exact ⟨Table.get?_insert_of_ne hk _ _, Table.get?_insert_of_ne hk _ _⟩
      · cases hb : g.blocks.get? key <;> simp [LinkedTo, hb]

theorem linkAll_spec (hedges : ∀ k ∈ keys, g.edges.get? k = some []) (hnd : keys.Nodup) :
    (linkAll keys g).2 = none ∧
    ∀ k, (∃ next, [k, next] <:+: keys ∧ g.Falls k ∧ LinkedTo g (linkAll keys g).1 k next) ∨
        ((∀ next, [k, next] <:+: keys → ¬ g.Falls k) ∧ SameAt g (linkAll keys g).1 k) := by
  have hshort (keys : List Int) (hlen : keys.length < 2) (k next : Int) : ¬ [k, next] <:+: keys :=
    fun h => by simpa using lt_of_le_of_lt h.length_le hlen
  induction keys generalizing g with
  | nil =>
    exact ⟨rfl, fun k => Or.inr ⟨fun next h => absurd h (hshort [] (by simp) k next), rfl, rfl⟩⟩
  | cons key rest ih =>
    cases rest with
    | nil =>
      exact ⟨rfl, fun k =>
        Or.inr ⟨fun next h => absurd h (hshort [key] (by simp) k next), rfl, rfl⟩⟩
    | cons next rest =>
      obtain ⟨g₁, hlink, hendings, hframe, hfalls, hstays⟩ :=
        @linkNext_spec g next key (hedges key (by simp))
      obtain ⟨hkey, hrest⟩ := List.nodup_cons.1 hnd
      have hfalls₁ (k : Int) : g₁.Falls k ↔ g.Falls k := by rw [Falls, hendings]; rfl
      have hedges₁ (j : Int) (hj : j ∈ next :: rest) : g₁.edges.get? j = some [] := by
        rw [(hframe j fun h => hkey (h ▸ hj)).2]
        exact hedges j (List.mem_cons_of_mem key hj)
      obtain ⟨hnone, hall⟩ := ih hedges₁ hrest
      rw [linkAll, hlink]
      dsimp only
      refine ⟨hnone, fun k => ?_⟩
      by_cases hk : k = key
      · -- The first address does not come again, so its block is settled by the first link.
        subst hk
        have hlater : SameAt g₁ (linkAll (next :: rest) g₁).1 k := by
          rcases hall k with ⟨n, hin, -, -⟩ | ⟨-, hsame⟩
          · exact absurd (hin.subset List.mem_cons_self) hkey
          · exact hsame
        by_cases hf : g.Falls k
        · refine Or.inl ⟨next, ⟨[], rest, rfl⟩, hf, ?_⟩
          exact ⟨hlater.1.trans (hfalls hf).1, hlater.2.trans (hfalls hf).2⟩
        · exact Or.inr ⟨fun _ _ => hf, hstays hf ▸ hlater⟩
      · have hin (n : Int) : [k, n] <:+: key :: next :: rest ↔ [k, n] <:+: next :: rest := by
          rw [List.infix_cons_iff, List.cons_prefix_cons]
          simp [hk]
        obtain ⟨hb, he⟩ := hframe k hk
        simp only [hin, ← hfalls₁]
        rw [SameAt, ← hb, ← he]
        rcases hall k with ⟨n, hn, hf, hl⟩ | hsame
        · exact Or.inl ⟨n, hn, hf, by rw [LinkedTo, ← hb]; exact hl⟩
        · exact Or.inr hsame

def Unlinked (g : Graph) : Prop :=
  ∀ k b, g.blocks.get? k = some b →
    b.start = k ∧ b.ending = g.endings.get? k ∧ g.edges.get? k = some []

theorem Unlinked.addBlock (h : g.Unlinked) (e : Int × Int) : (g.addBlock e).Unlinked := by
  unfold Graph.addBlock
  split
  · intro k b hb
    by_cases hk : k = e.1
    · subst hk
      rw [Table.get?_insert_self] at hb
      cases hb
      exact ⟨rfl, rfl, Table.get?_insert_self _ _ _⟩
    · rw [Table.get?_insert_of_ne hk] at hb
      obtain ⟨hstart, hending, hedges⟩ := h k b hb
      exact ⟨hstart, hending, (Table.get?_insert_of_ne hk _ _).trans hedges⟩
  · exact h

theorem Unlinked.foldl (h : g.Unlinked) (es : List (Int × Int)) :
    (es.foldl Graph.addBlock g).Unlinked := by
  induction es generalizing g with
  | nil => exact h
  | cons e es ih => exact ih (h.addBlock e)

end Graph

namespace Listing

variable {l last : Line} {found : Option Ending} {rest : List Line}

/-! ### Blocks and the lines behind them -/

/-- What is known of the ending of a block after one of its lines: a jump has settled it, and before
a jump at most that the block is terminal, as it is if the line halts. -/
def Settled (found : Option Ending) (l : Line) : Prop :=
  if l.jumps then found = l.ending else found = none ∧ l.halts = false ∨ found = some .terminal

theorem Line.ending_of_not_jumps (h : l.jumps = false) :
    l.ending = none ∧ l.halts = false ∨ l.ending = some .terminal := by
  obtain ⟨hj, hi⟩ : l.mnemonic ≠ "JUMP" ∧ l.mnemonic ≠ "JUMPI" := by simpa [jumps] using h
  cases hh : l.halts <;> simp [ending, hh, hj, hi]

theorem Line.ending_of_jumps (h : l.jumps = true) : ∃ e, l.ending = some e := by
  rcases Bool.or_eq_true _ _ ▸ h with hm | hm <;> simp_all [ending, halts]

theorem settled_ending (l : Line) : Settled l.ending l := by
  unfold Settled
  split
  · rfl
  next h =>
    exact Line.ending_of_not_jumps (by simpa using h)

theorem Settled.next {found : Option Ending} {l n : Line} (h : Settled found l)
    (hl : l.jumps = false) : Settled (n.ending.or found) n := by
  unfold Settled at h ⊢
  rw [hl] at h
  split
  next hn =>
    obtain ⟨e, he⟩ := Line.ending_of_jumps hn
    simp [he]
  next hn =>
    have hn' := Line.ending_of_not_jumps (by simpa using hn)
    rcases h with h | h <;> rcases hn' with hn' | hn' <;> simp_all

theorem endingFrom_quiet {ls : List Line} (h : quiet ls = true) :
    endingFrom found false ls = found.getD .terminal := by
  induction ls with
  | nil => rfl
  | cons n rest ih =>
    simp only [quiet, List.all_cons, Bool.and_eq_true, Bool.not_eq_true'] at h
    obtain ⟨⟨hclose, htarget⟩, hrest⟩ := h
    obtain ⟨hhalts, hjumps⟩ : n.halts = false ∧ n.jumps = false := by
      simpa [Line.closes] using hclose
    have hending : n.ending = none := by
      rcases Line.ending_of_not_jumps hjumps with ⟨he, -⟩ | he
      · exact he
      · have := closes_of_ending he
        simp [hclose] at this
    simp [endingFrom, htarget, hjumps, hending, ih (by simpa [quiet] using hrest)]

theorem endingFrom_cases {known : Bool} (hs : Settled found l)
    (hlast : (l :: body known l.jumps rest).getLast? = some last) :
    last.jumps = true ∧ some (endingFrom found l.jumps rest) = last.ending ∨
      last.jumps = false ∧ (endingFrom found l.jumps rest = .terminal ∨
        endingFrom found l.jumps rest = .fallsTo ∧ last.halts = false ∧
          ∃ n tail, rest = body known l.jumps rest ++ n :: tail ∧ n.isTarget = true) := by
  induction rest generalizing known found l with
  | nil =>
    obtain rfl : l = last := by simpa [body] using hlast
    cases hj : l.jumps with
    | true =>
      obtain ⟨e, he⟩ := Line.ending_of_jumps hj
      simp_all [Settled, endingFrom]
    | false => cases found <;> simp_all [Settled, endingFrom]
  | cons n rest ih =>
    rw [body] at hlast ⊢
    rw [endingFrom]
    by_cases hend : (l.jumps || n.isTarget) = true
    · rw [if_pos hend] at hlast ⊢
      obtain rfl : l = last := by simpa using hlast
      cases hj : l.jumps with
      | true =>
        obtain ⟨e, he⟩ := Line.ending_of_jumps hj
        simp_all [Settled]
      | false => cases found <;> simp_all [Settled]
    · obtain ⟨hj, ht⟩ : l.jumps = false ∧ n.isTarget = false := by simpa using hend
      rw [if_neg hend] at hlast ⊢
      split at hlast
      · -- The end of the block was known too early, and no later line moves it on.
        rename_i hquiet
        obtain rfl : l = last := by simpa using hlast
        have hrest : endingFrom found false (n :: rest) = found.getD .terminal :=
          endingFrom_quiet (by simpa using (Bool.and_eq_true _ _ ▸ hquiet).2)
        rw [endingFrom, if_neg (by simp [ht])] at hrest
        cases found <;> simp_all [Settled]
      next hquiet =>
        rw [if_neg hquiet, if_neg hend]
        rw [List.getLast?_cons_cons] at hlast
        rcases ih (hs.next hj) hlast with h | ⟨h, he | ⟨he, hhalts, m, tail, htail, hm⟩⟩
        · exact Or.inl h
        · exact Or.inr ⟨h, Or.inl he⟩
        · exact Or.inr ⟨h, Or.inr ⟨he, hhalts, m, tail, by rw [List.cons_append, ← htail], hm⟩⟩

theorem endingFrom_halts {known : Bool}
    (hlast : (l :: body known l.jumps rest).getLast? = some last) (h : last.halts = true) :
    endingFrom l.ending l.jumps rest = .terminal := by
  rcases endingFrom_cases (settled_ending l) hlast with ⟨hj, -⟩ | ⟨-, he | ⟨-, hhalts, -⟩⟩
  · simp [(Line.of_halts h).2.1] at hj
  · exact he
  · simp [h] at hhalts

theorem endingFrom_iff {known : Bool}
    (hlast : (l :: body known l.jumps rest).getLast? = some last) :
    (endingFrom l.ending l.jumps rest = .conditional ↔ last.mnemonic = "JUMPI") ∧
      (endingFrom l.ending l.jumps rest = .unconditional ↔ last.mnemonic = "JUMP") := by
  rcases endingFrom_cases (settled_ending l) hlast with ⟨hj, he⟩ | ⟨hj, he⟩
  · rcases Bool.or_eq_true _ _ ▸ hj with hm | hm <;>
      simp_all [Line.ending, Line.halts]
  · obtain ⟨hm, hm'⟩ : last.mnemonic ≠ "JUMP" ∧ last.mnemonic ≠ "JUMPI" := by
      simpa [Line.jumps] using hj
    rcases he with he | ⟨he, -⟩ <;> simp [he, hm, hm']

theorem not_leads_of_body {known : Bool} {before after : List Line} {l n : Line}
    {inner rest : List Line} (h : body known l.jumps rest = inner ++ n :: after) :
    leads (before ++ l :: inner) n = false := by
  induction rest generalizing known before l inner with
  | nil => simp [body] at h
  | cons m rest ih =>
    rw [body] at h
    split at h
    · simp at h
    next hend =>
      split at h
      · simp at h
      · cases inner with
        | nil =>
          obtain ⟨rfl, -⟩ := List.cons.inj h
          rw [Code.leads_concat]
          simpa using hend
        | cons x inner =>
          obtain ⟨rfl, hinner⟩ := List.cons.inj h
          simpa using @ih _ (before ++ [l]) m inner hinner

namespace Code

variable {c : Code} {g : Graph} {before rest : List Line} {l : Line}
variable {j k' : Int} {known : Bool} {n : Line}

theorem split_after {before' rest' : List Line} {l' : Line} (hc : c.lines = before ++ l :: rest)
    (hc' : c.lines = before' ++ l' :: rest') (hlt : l.address < l'.address) :
    ∃ mid, rest = mid ++ l' :: rest' ∧ before' = before ++ l :: mid := by
  rw [hc] at hc'
  rcases List.append_eq_append_iff.1 hc' with ⟨mid, rfl, hmid⟩ | ⟨mid, rfl, hmid⟩
  · cases mid with
    | nil =>
      obtain ⟨rfl, -⟩ := List.cons.inj hmid
      exact absurd hlt (lt_irrefl _)
    | cons x mid =>
      obtain ⟨rfl, rfl⟩ := List.cons.inj hmid
      exact ⟨mid, rfl, rfl⟩
  · exfalso
    cases mid with
    | nil =>
      obtain ⟨rfl, -⟩ := List.cons.inj hmid
      exact lt_irrefl _ hlt
    | cons x mid =>
      obtain ⟨rfl, -⟩ := List.cons.inj hmid
      exact lt_asymm hlt ((address_lt hc).1 l' (by simp))

theorem lt_of_body (hc : c.lines = before ++ l :: rest) (hn : n ∈ l :: body known l.jumps rest)
    (hj : Led c.lines j) (hlt : (l.address : Int) < j) : (n.address : Int) < j := by
  obtain ⟨before', l', rest', hc', hl', rfl⟩ := hj
  rcases List.mem_cons.1 hn with rfl | hn
  · exact hlt
  obtain ⟨mid, rfl, rfl⟩ := split_after hc hc' (by exact_mod_cast hlt)
  have hprefix := body_isPrefix known l.jumps (mid ++ l' :: rest')
  by_cases hlen : (body known l.jumps (mid ++ l' :: rest')).length ≤ mid.length
  · have hmid := List.prefix_of_prefix_length_le hprefix (List.prefix_append _ _) hlen
    exact_mod_cast (address_lt hc').1 n (by simp [hmid.subset hn])
  · have hmid : mid ++ [l'] <+: body known l.jumps (mid ++ l' :: rest') :=
      List.prefix_of_prefix_length_le ⟨rest', by simp⟩ hprefix (by simp; omega)
    obtain ⟨after, hafter⟩ := hmid
    have hbody : body known l.jumps (mid ++ l' :: rest') = mid ++ l' :: after := by
      rw [← hafter]
      simp
    rw [not_leads_of_body hbody] at hl'
    cases hl'

def span (c : Code) (g : Graph) (k : Int) : List Line :=
  match g.blocks.get? k with
  | none => []
  | some b => (c.lines.dropWhile fun l => decide ((l.address : Int) ≠ k)).take b.instructions.length

theorem span_eq (hc : c.lines = before ++ l :: rest) (hb : g.blocks.get? l.address = some b)
    (htexts : b.instructions = (l :: body known l.jumps rest).map Line.text) :
    c.span g l.address = l :: body known l.jumps rest := by
  have hbefore : ∀ n ∈ before, decide ((n.address : Int) ≠ l.address) = true := by
    intro n hn
    have := (address_lt hc).1 n hn
    simp only [decide_eq_true_eq]
    omega
  have hdrop : c.lines.dropWhile (fun n => decide ((n.address : Int) ≠ l.address)) = l :: rest := by
    rw [hc, List.dropWhile_append_of_pos hbefore]
    simp
  have hlen : b.instructions.length = (body known l.jumps rest).length + 1 := by
    rw [htexts]
    simp
  simp only [span, hb, hdrop, hlen, List.take_succ_cons, List.cons.injEq, true_and]
  exact (List.prefix_iff_eq_take.1 (body_isPrefix known l.jumps rest)).symm

theorem exists_next {xs : List Int} (hsorted : xs.Pairwise (· < ·)) (hk : k ∈ xs) (hk' : k' ∈ xs)
    (hlt : k < k') : ∃ next, [k, next] <:+: xs := by
  obtain ⟨before, after, rfl⟩ := List.append_of_mem hk
  cases after with
  | nil =>
    rw [List.pairwise_append] at hsorted
    rcases List.mem_append.1 hk' with h | h
    · exact absurd hlt (lt_asymm (hsorted.2.2 k' h k (by simp)))
    · rw [List.mem_singleton.1 h] at hlt
      exact absurd hlt (lt_irrefl k)
  | cons next after => exact ⟨next, before, after, by simp⟩

/-- The graph fits the listing. -/
structure WellFormed (c : Code) (g : Graph) : Prop where
  /-- There is a block for each leader. -/
  blocks : ∀ k, g.blocks.contains k = true ↔ Led c.lines k
  /-- A block is a run of the listing that starts at its address. -/
  texts : ∀ k b, g.blocks.get? k = some b →
    b.start = k ∧ (c.span g k).head?.map (fun l => (l.address : Int)) = some k ∧
      b.instructions = (c.span g k).map Line.text
  disjoint : ∀ k k', k ≠ k' → (c.span g k).Disjoint (c.span g k')
  /-- The last line tells which jump a block ends with, if any. -/
  ending : ∀ k b l, g.blocks.get? k = some b → (c.span g k).getLast? = some l →
    g.endings.get? k = b.ending ∧ (b.ending = some .conditional ↔ l.mnemonic = "JUMPI") ∧
      (b.ending = some .unconditional ↔ l.mnemonic = "JUMP")
  /-- Control falls to the next block, which begins with the line behind the last one. -/
  falls : ∀ k b, g.blocks.get? k = some b →
    b.ending = some .fallsTo ∨ b.ending = some .conditional →
    (∃ k', g.blocks.contains k' = true ∧ k < k') →
    ∃ next, b.fallsTo = some next ∧ g.edges.get? k = some [next] ∧
      IsLeast { k' | g.blocks.contains k' = true ∧ k < k' } next ∧
      ∃ before n rest, c.lines = before ++ c.span g k ++ n :: rest ∧ next = n.address

theorem unlinked_graph (c : Code) : c.graph.Unlinked :=
  Graph.Unlinked.foldl (by rintro k b ⟨⟩) _

theorem endings_graph (c : Code) : c.graph.endings = (outlineOf c.lines).endings :=
  (Graph.SameText.foldl ⟨rfl, rfl⟩ _).endings

theorem withFallThrough_graph (c : Code) : c.graph.withFallThrough = (c.linked, none) ∧ ∀ k,
    (∃ next, [k, next] <:+: sortInts (outlineOf c.lines).endings.keys ∧ c.graph.Falls k ∧
      Graph.LinkedTo c.graph c.linked k next) ∨
    ((∀ next, [k, next] <:+: sortInts (outlineOf c.lines).endings.keys → ¬ c.graph.Falls k) ∧
      Graph.SameAt c.graph c.linked k) := by
  have hedges : ∀ k ∈ sortInts (outlineOf c.lines).endings.keys,
      c.graph.edges.get? k = some [] := by
    intro k hk
    rw [sortInts, List.mem_mergeSort, Table.mem_keys] at hk
    obtain ⟨before, l, rest, hc, hl, rfl⟩ := led_of_ending hk
    obtain ⟨b, hb, -⟩ := block_leader hc hl
    exact (c.unlinked_graph _ b hb).2.2
  obtain ⟨hnone, hall⟩ := Graph.linkAll_spec hedges ((sorted_endings c.lines).imp ne_of_lt)
  rw [linked_eq]
  refine ⟨?_, hall⟩
  rw [Graph.withFallThrough, endings_graph, ← hnone]

theorem next_unique {next next' : Int}
    (h : [k, next] <:+: sortInts (outlineOf c.lines).endings.keys)
    (h' : [k, next'] <:+: sortInts (outlineOf c.lines).endings.keys) : next = next' := by
  obtain ⟨hled, hlt, hleast⟩ := next_leader h
  obtain ⟨hled', hlt', hleast'⟩ := next_leader h'
  have := hleast next' hled'
  have := hleast' next hled
  omega

theorem shape_linked (h : c.linked.blocks.get? k = some b) :
    ∃ before l rest, c.lines = before ++ l :: rest ∧ leads before l = true ∧ k = l.address ∧
      c.span c.linked k = l :: body (l.closes || presets before l) l.jumps rest ∧
      b.start = k ∧ b.instructions = (c.span c.linked k).map Line.text ∧
      b.ending = some (endingFrom l.ending l.jumps rest) ∧ c.linked.endings.get? k = b.ending ∧
      ∀ next, [k, next] <:+: sortInts (outlineOf c.lines).endings.keys → c.graph.Falls k →
        b.fallsTo = some next ∧ c.linked.edges.get? k = some [next] := by
  obtain ⟨before, l, rest, hc, hl, rfl, htexts, hending, -⟩ := block_linked h
  obtain ⟨b₀, hb₀, -⟩ := block_leader hc hl
  obtain ⟨hstart, hending₀, -⟩ := c.unlinked_graph _ b₀ hb₀
  rw [endings_graph, endings_leader hc hl] at hending₀
  have hspan := span_eq hc h htexts
  refine ⟨before, l, rest, hc, hl, rfl, hspan, ?_⟩
  rw [hspan, hending]
  rcases c.withFallThrough_graph.2 l.address with ⟨next, hin, -, hblock, hedges⟩ | ⟨hno,
    hblock, -⟩ <;>
    rw [hblock, hb₀] at h <;> cases h
  · refine ⟨hstart, htexts, hending₀, hending₀.symm, fun next' hin' _ => ?_⟩
    rw [hedges, next_unique hin' hin]
    exact ⟨rfl, rfl⟩
  · exact ⟨hstart, htexts, hending₀, hending₀.symm, fun next hin hf => absurd hf (hno next hin)⟩

theorem next_line {known : Bool} {next : Int} (hc : c.lines = before ++ l :: rest)
    (hnext : Led c.lines next ∧ (l.address : Int) < next ∧
      ∀ j, Led c.lines j → j ≤ l.address ∨ next ≤ j)
      (hlead : ∀ n tail, rest = body known l.jumps rest ++ n :: tail →
        leads (before ++ l :: body known l.jumps rest) n = true) :
    ∃ n tail, rest = body known l.jumps rest ++ n :: tail ∧ next = n.address := by
  obtain ⟨hled, hlt, hleast⟩ := hnext
  have hafter (m : Line) (hm : m ∈ l :: body known l.jumps rest) : (m.address : Int) < next :=
    lt_of_body hc hm hled hlt
  obtain ⟨before', l', rest', hc', -, rfl⟩ := hled
  obtain ⟨mid, hmid, -⟩ := split_after hc hc' (by exact_mod_cast hlt)
  obtain ⟨tail, htail⟩ := body_isPrefix known l.jumps rest
  have hl' : l' ∈ tail := by
    have hmem : l' ∈ body known l.jumps rest ++ tail := by
      rw [htail, hmid]
      simp
    rcases List.mem_append.1 hmem with hm | hm
    · exact absurd (hafter l' (List.mem_cons_of_mem l hm)) (lt_irrefl _)
    · exact hm
  cases tail with
  | nil => cases hl'
  | cons n tail =>
    have hcn : c.lines = (before ++ l :: body known l.jumps rest) ++ n :: tail := by
      rw [hc, ← htail]
      simp [htail]
    refine ⟨n, tail, htail.symm, ?_⟩
    have hle : (l'.address : Int) ≤ n.address := by
      have hn : (l.address : Int) < n.address := by
        exact_mod_cast (address_lt hcn).1 l (by simp)
      rcases hleast n.address ⟨_, n, tail, hcn, hlead n tail htail.symm, rfl⟩ with h | h
      · exact absurd hn (not_lt_of_ge h)
      · exact h
    have hge : (n.address : Int) ≤ l'.address := by
      rcases List.mem_cons.1 hl' with rfl | hm
      · exact le_refl _
      · exact le_of_lt ((address_lt hcn).2.lt_of_mem hm)
    exact le_antisymm hle hge

theorem leads_behind {tail : List Line} (hne : endingFrom l.ending l.jumps rest ≠ .terminal)
    (hrest : rest = body known l.jumps rest ++ n :: tail) :
    leads (before ++ l :: body known l.jumps rest) n = true := by
  obtain ⟨last, hlast⟩ : ∃ last, (l :: body known l.jumps rest).getLast? = some last :=
    ⟨_, List.getLast?_eq_some_getLast (by simp)⟩
  rw [leads, List.getLast?_append, hlast]
  rcases endingFrom_cases (settled_ending l)
    hlast with ⟨hj, -⟩ | ⟨-, h | ⟨-, -, m, tail', hrest', hm⟩⟩
  · simp [hj]
  · exact absurd h hne
  · have heq := hrest.symm.trans hrest'
    rw [List.append_cancel_left_eq] at heq
    obtain ⟨rfl, -⟩ := List.cons.inj heq
    simp [hm]

theorem span_bounds (hn : n ∈ c.span c.linked k) :
    Led c.lines k ∧ k ≤ n.address ∧ ∀ j, Led c.lines j → k < j → (n.address : Int) < j := by
  cases hb : c.linked.blocks.get? k with
  | none =>
    rw [span, hb] at hn
    cases hn
  | some b =>
    obtain ⟨before, l, rest, hc, hl, rfl, hspan, -⟩ := shape_linked hb
    rw [hspan] at hn
    refine ⟨⟨before, l, rest, hc, hl, rfl⟩, ?_, fun j => lt_of_body hc hn⟩
    rcases List.mem_cons.1 hn with rfl | hn
    · exact le_refl _
    · exact le_of_lt ((address_lt hc).2.lt_of_mem ((body_isPrefix _ _ _).subset hn))

theorem contains_linked (c : Code) (k : Int) : c.linked.blocks.contains k = true ↔
    Led c.lines k := by
  constructor
  · intro h
    obtain ⟨b, hb⟩ := Table.contains_iff.1 h
    obtain ⟨before, l, rest, hc, hl, rfl, -⟩ := shape_linked hb
    exact ⟨before, l, rest, hc, hl, rfl⟩
  · rintro ⟨before, l, rest, hc, hl, rfl⟩
    obtain ⟨b, hb, -⟩ := block_leader hc hl
    rw [Table.contains]
    rcases c.withFallThrough_graph.2 l.address with ⟨next, -, -, hblock, -⟩ | ⟨-, hblock, -⟩ <;>
      rw [hblock, hb] <;> rfl

theorem mem_endings (hj : Led c.lines j) : j ∈ sortInts (outlineOf c.lines).endings.keys := by
  obtain ⟨before, l, rest, hc, hl, rfl⟩ := hj
  rw [sortInts, List.mem_mergeSort, Table.mem_keys, Table.contains, endings_leader hc hl]
  rfl

theorem falls_linked (h : c.linked.blocks.get? k = some b)
    (hfalls : b.ending = some .fallsTo ∨ b.ending = some .conditional) (hled' : Led c.lines k')
    (hlt : k < k') : ∃ next, b.fallsTo = some next ∧ c.linked.edges.get? k = some [next] ∧
      (Led c.lines next ∧ k < next ∧ ∀ j, Led c.lines j → j ≤ k ∨ next ≤ j) ∧
      ∃ before n rest, c.lines = before ++ c.span c.linked k ++ n :: rest ∧ next = n.address := by
  obtain ⟨before, l, rest, hc, hl, rfl, hspan, -, -, hending, -, hlink⟩ := shape_linked h
  rw [hending, Option.some.injEq, Option.some.injEq] at hfalls
  have hne : endingFrom l.ending l.jumps rest ≠ .terminal := by
    rcases hfalls with he | he <;> simp [he]
  have hf : c.graph.Falls l.address := by
    refine ⟨endingFrom l.ending l.jumps rest, by rw [endings_graph, endings_leader hc hl], ?_⟩
    rcases hfalls with he | he <;> rw [he] <;> rfl
  obtain ⟨next, hin⟩ := exists_next (sorted_endings c.lines)
    (mem_endings ⟨before, l, rest, hc, hl, rfl⟩) (mem_endings hled') hlt
  have hnext := next_leader hin
  obtain ⟨hfallsTo, hedges⟩ := hlink next hin hf
  obtain ⟨n, tail, hrest, rfl⟩ :=
    @next_line _ _ _ _ (l.closes || presets before l) next hc hnext fun n tail => leads_behind hne
  refine ⟨_, hfallsTo, hedges, hnext, before, n, tail, ?_, rfl⟩
  rw [hspan, List.append_assoc, List.cons_append, ← hrest, hc]

theorem wellFormed_linked (c : Code) : c.WellFormed c.linked where
  blocks := c.contains_linked
  texts k b h := by
    obtain ⟨before, l, rest, -, -, rfl, hspan, hstart, htexts, -⟩ := shape_linked h
    refine ⟨hstart, ?_, htexts⟩
    rw [hspan]
    rfl
  disjoint k k' hne n hn hn' := by
    obtain ⟨hled, hle, hlt⟩ := span_bounds hn
    obtain ⟨hled', hle', hlt'⟩ := span_bounds hn'
    rcases lt_or_gt_of_ne hne with h | h
    · exact absurd (hlt k' hled' h) (not_lt_of_ge hle')
    · exact absurd (hlt' k hled h) (not_lt_of_ge hle)
  ending k b last h hlast := by
    obtain ⟨before, l, rest, -, -, rfl, hspan, -, -, hending, hsame, -⟩ := shape_linked h
    rw [hspan] at hlast
    rw [hending] at hsame ⊢
    exact ⟨hsame, by simpa using endingFrom_iff hlast⟩
  falls k b h hfalls hlater := by
    obtain ⟨k', hk', hlt⟩ := hlater
    obtain ⟨next, hfallsTo, hedges, ⟨hled, hgt, hleast⟩, hline⟩ :=
      falls_linked h hfalls ((c.contains_linked k').1 hk') hlt
    refine ⟨next, hfallsTo, hedges, ⟨⟨(c.contains_linked next).2 hled, hgt⟩, fun j hj => ?_⟩, hline⟩
    rcases hleast j ((c.contains_linked j).1 hj.1) with hle | hle
    · exact absurd hj.2 (not_lt_of_ge hle)
    · exact hle

/-- A listing without a source map is always read to its end. Whenever it is, its blocks are made
and linked without a failure, and the graph fits the listing. -/
theorem graph_wellFormed (c : Code) :
    (outline none (c.lines.map Line.row)).2.2 = none ∧
      ∀ items, (outline items (c.lines.map Line.row)).2.2 = none →
        ∃ g, (Graph.ofOutline (outline items (c.lines.map Line.row)).1).withBlocks.withFallThrough =
          (g, none) ∧ c.WellFormed g := by
  refine ⟨by rw [outline_rows], fun items h => ⟨c.linked, ?_, c.wellFormed_linked⟩⟩
  rw [withBlocks_outline h, c.withFallThrough_graph.1]

def branchOver : Code := .ofDrafts
  [⟨0, "CALLER", none⟩, ⟨1, "PUSH1", some "05"⟩, ⟨3, "JUMPI", none⟩, ⟨4, "STOP", none⟩,
    ⟨5, "JUMPDEST", none⟩, ⟨6, "STOP", none⟩]

theorem graph_wellFormed_branchOver :
    (outline none (branchOver.lines.map Line.row)).2.2 = none ∧
      ∃ g, (Graph.ofOutline
        (outline none (branchOver.lines.map Line.row)).1).withBlocks.withFallThrough = (g, none) ∧
          branchOver.WellFormed g :=
  have h := graph_wellFormed branchOver
  ⟨h.1, h.2 none h.1⟩

end Code

end Listing

end EvmAudit
