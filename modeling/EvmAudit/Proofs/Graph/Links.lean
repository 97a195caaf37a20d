import Mathlib.Data.List.Sort
import EvmAudit.Graph.Build
import EvmAudit.Proofs.Graph.Blocks
import EvmAudit.Proofs.Listing.Decoding

/-! The links of fall-through in the graph of a listing: each leads from a block to the line behind
it, which begins the next block. -/

namespace EvmAudit

deriving instance DecidableEq for Graph

namespace Graph

variable {g : Graph}

/-- The blocks, with the addresses put in order by `sort`. -/
def blocksBy (sort : List Int → List Int) (g : Graph) : Graph :=
  g.ends.entries.foldl
    (fun g (key, stop) =>
      if g.instructions.contains key then
        { g with
          blocks := g.blocks.insert key { g.blockAt key stop with
            instructions := (g.instructions.get? key).toList ++
              ((sort g.instructions.keys).filter fun a => decide (key < a ∧ a ≤ stop)).filterMap
              g.instructions.get? }
          edges := g.edges.insert key [] }
      else g) g

theorem linkNext_ok {g' : Graph} {key next : Int} (h : g.linkNext key next = .ok g') :
    SameText g g' ∧ ∀ k b, g'.blocks.get? k = some b → ∃ b₀, g.blocks.get? k = some b₀ ∧
      (b = b₀ ∨ k = key ∧ b = { b₀ with fallsTo := some next }) := by
  have hsame : g' = g → SameText g g' ∧ ∀ k b, g'.blocks.get? k = some b →
      ∃ b₀, g.blocks.get? k = some b₀ ∧
        (b = b₀ ∨ k = key ∧ b = { b₀ with fallsTo := some next }) := by
    rintro rfl
    exact ⟨⟨rfl, rfl⟩, fun k b hb => ⟨b, hb, Or.inl rfl⟩⟩
  unfold linkNext at h
  split at h
  · cases h
    exact hsame rfl
  · split at h
    · split at h
      · cases h
      · cases h
        unfold updateBlock
        split
        · exact ⟨⟨rfl, rfl⟩, fun k b hb => ⟨b, hb, Or.inl rfl⟩⟩
        next b₀ hb₀ =>
          refine ⟨⟨rfl, rfl⟩, fun k b hb => ?_⟩
          by_cases hk : k = key
          · subst hk
            rw [Table.get?_insert_self] at hb
            cases hb
            exact ⟨b₀, hb₀, Or.inr ⟨rfl, rfl⟩⟩
          · rw [Table.get?_insert_of_ne hk] at hb
            exact ⟨b, hb, Or.inl rfl⟩
    · cases h
      exact hsame rfl

theorem sameText_linkAll (keys : List Int) (g : Graph) : SameText g (linkAll keys g).1 := by
  induction keys generalizing g with
  | nil => exact ⟨rfl, rfl⟩
  | cons key rest ih =>
    cases rest with
    | nil => exact ⟨rfl, rfl⟩
    | cons next rest =>
      rw [linkAll]
      split
      next g' h =>
        obtain ⟨hlink, -⟩ := linkNext_ok h
        exact ⟨(ih g').instructions.trans hlink.instructions, (ih g').endings.trans hlink.endings⟩
      · exact ⟨rfl, rfl⟩

theorem get?_linkAll {keys : List Int} {k : Int} {b : Block}
    (h : (linkAll keys g).1.blocks.get? k = some b) : ∃ b₀, g.blocks.get? k = some b₀ ∧
      (b = b₀ ∨ ∃ next, [k, next] <:+: keys ∧ b = { b₀ with fallsTo := some next }) := by
  induction keys generalizing g with
  | nil => exact ⟨b, h, Or.inl rfl⟩
  | cons key rest ih =>
    cases rest with
    | nil => exact ⟨b, h, Or.inl rfl⟩
    | cons next rest =>
      rw [linkAll] at h
      split at h
      next g' hlink =>
        obtain ⟨b₁, hb₁, hb⟩ := ih h
        obtain ⟨b₀, hb₀, hb₁⟩ := (linkNext_ok hlink).2 k b₁ hb₁
        refine ⟨b₀, hb₀, ?_⟩
        rcases hb with rfl | ⟨n, hn, rfl⟩
        · rcases hb₁ with rfl | ⟨rfl, rfl⟩
          · exact Or.inl rfl
          · exact Or.inr ⟨next, ⟨[], rest, rfl⟩, rfl⟩
        · refine Or.inr ⟨n, hn.trans (List.suffix_cons key _).isInfix, ?_⟩
          rcases hb₁ with rfl | ⟨-, rfl⟩ <;> rfl
      · exact ⟨b, h, Or.inl rfl⟩

def Unexplored (g : Graph) : Prop := ∀ k b, g.blocks.get? k = some b → b.branch = none

theorem unexplored_foldl (h : g.Unexplored) (es : List (Int × Int)) :
    (es.foldl addBlock g).Unexplored := by
  induction es generalizing g with
  | nil => exact h
  | cons e es ih =>
    refine ih ?_
    unfold addBlock
    split
    · intro k b hb
      by_cases hk : k = e.1
      · subst hk
        rw [Table.get?_insert_self] at hb
        cases hb
        rfl
      · rw [Table.get?_insert_of_ne hk] at hb
        exact h k b hb
    · exact h

theorem unexplored_linkAll (h : g.Unexplored) (keys : List Int) :
    (linkAll keys g).1.Unexplored := by
  intro k b hb
  obtain ⟨b₀, hb₀, rfl | ⟨next, -, rfl⟩⟩ := get?_linkAll hb
  · exact h k b hb₀
  · exact h k b₀ hb₀

end Graph

namespace Listing

theorem closes_of_ending {l : Line} {e : Ending} (h : l.ending = some e) : l.closes = true := by
  unfold Line.ending at h
  split at h
  · simp [Line.closes, *]
  · split at h
    · simp [Line.closes, Line.jumps, *]
    · split at h
      · simp [Line.closes, Line.jumps, *]
      · cases h

theorem Reading.contains_ends (ls : List Line) {k : Int}
    (h : (Reading.lines {} ls).outline.endings.contains k = true) :
    (Reading.lines {} ls).outline.ends.contains k = true := by
  induction ls using List.reverseRecOn generalizing k with
  | nil => cases h
  | append_singleton ls l ih =>
    rw [lines_concat] at h ⊢
    generalize Reading.lines {} ls = r at h ih ⊢
    have hold (hk : r.outline.endings.contains k = true) : (r.endsAfter l).contains k = true := by
      unfold endsAfter
      split
      · split
        · exact ih hk
        · simp [Table.contains_insert, ih hk]
      · split
        · simp [Table.contains_insert, ih hk]
        · exact ih hk
    rw [line_endings] at h
    rw [line_ends]
    unfold endingsAfter at h
    split at h
    next e he =>
      rw [Table.contains_insert, Bool.or_eq_true, decide_eq_true_eq] at h
      rcases h with rfl | h
      · have hc := closes_of_ending he
        have ht : l.isTarget = false := by
          cases ht : l.isTarget
          · rfl
          · rw [isTarget_of_closes ht] at hc
            cases hc
        simp [endsAfter, ht, hc, Table.contains_insert]
      · exact hold h
    · exact hold h

namespace Code

variable {c : Code} {before rest : List Line} {l : Line}

theorem led_of_ending {k : Int} (h : (outlineOf c.lines).endings.contains k = true) :
    Led c.lines k := by
  refine led_of_contains ?_
  have hends := @Reading.contains_ends c.lines k
  rw [outlineOf] at h ⊢
  generalize Reading.lines {} c.lines = r at h hends ⊢
  have hclose : r.close.endings = r.close.ends.keys.foldl
      (fun es key => if es.contains key then es else es.insert key .fallsTo)
      (if r.outline.endings.contains r.block then r.outline.endings
        else r.outline.endings.insert r.block .terminal) := rfl
  rw [Table.contains, hclose, Reading.get?_foldl_fallsTo] at h
  by_cases hk : k ∈ r.close.ends.keys
  · exact Table.mem_keys.1 hk
  · rw [if_neg hk, Option.or_none] at h
    rw [Table.contains, Reading.ends_close]
    by_cases hb : k = r.block
    · simp [hb]
    · rw [if_neg hb]
      refine hends ?_
      split at h
      · exact h
      · rwa [Table.get?_insert_of_ne hb] at h

theorem nodup_keys_endings (ls : List Line) : (outlineOf ls).endings.keys.Nodup := by
  have hlines : (Reading.lines {} ls).outline.endings.keys.Nodup := by
    induction ls using List.reverseRecOn with
    | nil => exact List.nodup_nil
    | append_singleton ls l ih =>
      rw [Reading.lines_concat, Reading.line_endings]
      unfold Reading.endingsAfter
      split
      · exact Table.nodup_keys_insert ih _ _
      · exact ih
  have hfold (keys : List Int) (es : Table Int Ending) (h : es.keys.Nodup) :
      (keys.foldl (fun es key => if es.contains key then es else es.insert key .fallsTo)
        es).keys.Nodup := by
    induction keys generalizing es with
    | nil => exact h
    | cons key keys ih =>
      refine ih _ ?_
      dsimp only
      split
      · exact h
      · exact Table.nodup_keys_insert h _ _
  refine hfold _ _ ?_
  split
  · exact hlines
  · exact Table.nodup_keys_insert hlines _ _

theorem sorted_endings (ls : List Line) :
    (sortInts (outlineOf ls).endings.keys).Pairwise (· < ·) := by
  have hle : (sortInts (outlineOf ls).endings.keys).Pairwise (fun a b => decide (a ≤ b) = true) :=
    List.pairwise_mergeSort (fun a b c hab hbc => by simp at *; omega)
      (fun a b => by simp; omega) _
  have hne : (sortInts (outlineOf ls).endings.keys).Nodup :=
    (List.mergeSort_perm _ _).nodup_iff.2 (nodup_keys_endings ls)
  exact (hle.and hne).imp fun ⟨h, hne⟩ => lt_of_le_of_ne (by simpa using h) hne

theorem next_leader {k next : Int} (h : [k, next] <:+: sortInts (outlineOf c.lines).endings.keys) :
    Led c.lines next ∧ k < next ∧ ∀ j, Led c.lines j → j ≤ k ∨ next ≤ j := by
  have hmem (j : Int) : j ∈ sortInts (outlineOf c.lines).endings.keys ↔
      (outlineOf c.lines).endings.contains j = true := by
    rw [sortInts, List.mem_mergeSort, Table.mem_keys]
  have hsorted := sorted_endings c.lines
  obtain ⟨xs, ys, hsplit⟩ := h
  rw [← hsplit] at hsorted hmem
  simp only [List.append_assoc, List.cons_append, List.nil_append, List.pairwise_append,
    List.pairwise_cons] at hsorted
  obtain ⟨-, ⟨hk, hnext, -⟩, hxs⟩ := hsorted
  refine ⟨led_of_ending ((hmem next).1 (by simp)), hk next (by simp), fun j hj => ?_⟩
  obtain ⟨before, l, rest, hc, hl, rfl⟩ := hj
  have hin := (hmem l.address).2 (by simp [Table.contains, endings_leader hc hl])
  simp only [List.append_assoc, List.cons_append, List.nil_append, List.mem_append,
    List.mem_cons] at hin
  rcases hin with hj | hj | hj | hj
  · exact Or.inl (le_of_lt (hxs _ hj k (by simp)))
  · exact Or.inl hj.le
  · exact Or.inr hj.ge
  · exact Or.inr (le_of_lt (hnext _ hj))

def linked (c : Code) : Graph :=
  (Graph.ofOutline (outline none (c.lines.map Line.row)).1).withBlocks.withFallThrough.1

theorem linked_eq (c : Code) :
    c.linked = (Graph.linkAll (sortInts (outlineOf c.lines).endings.keys) c.graph).1 := by
  have hendings : c.graph.endings = (outlineOf c.lines).endings :=
    (Graph.SameText.foldl ⟨rfl, rfl⟩ _).endings
  rw [linked, withBlocks_outline (by rw [outline_rows]), Graph.withFallThrough, hendings]

/-- The same with a sorting that can be evaluated. -/
def assembled (c : Code) : Graph :=
  (Graph.linkAll ((outlineOf c.lines).endings.keys.insertionSort (· ≤ ·))
    ((Graph.ofOutline (outlineOf c.lines)).blocksBy (List.insertionSort (· ≤ ·)))).1

theorem linked_sorted (c : Code) : c.linked = c.assembled := by
  have hsort : sortInts = List.insertionSort (· ≤ ·) :=
    funext fun xs => List.mergeSort_eq_insertionSort _ xs
  rw [linked_eq, assembled, ← hsort]
  rfl

theorem unexplored_linked (c : Code) : c.linked.Unexplored := by
  rw [linked_eq]
  refine Graph.unexplored_linkAll (Graph.unexplored_foldl ?_ _) _
  rintro k b ⟨⟩

theorem block_linked {k : Int} {b : Block} (h : c.linked.blocks.get? k = some b) :
    ∃ before l rest, c.lines = before ++ l :: rest ∧ leads before l = true ∧ k = l.address ∧
      b.instructions = (l :: body (l.closes || presets before l) l.jumps rest).map Line.text ∧
      c.linked.endings.get? k = some (endingFrom l.ending l.jumps rest) ∧
      ∀ next, b.fallsTo = some next → Led c.lines next ∧ k < next ∧ ∀ j, Led c.lines j → j ≤ k ∨
      next ≤ j := by
  have hendings : c.linked.endings = (outlineOf c.lines).endings := by
    rw [linked_eq, (Graph.sameText_linkAll _ _).endings]
    exact (Graph.SameText.foldl ⟨rfl, rfl⟩ _).endings
  rw [linked_eq] at h
  obtain ⟨b₀, hb₀, hb⟩ := Graph.get?_linkAll h
  obtain ⟨before, l, rest, hc, hl, rfl⟩ := led_of_block hb₀
  obtain ⟨b₁, hb₁, htexts, hnone⟩ := block_leader hc hl
  rw [hb₀] at hb₁
  cases hb₁
  refine ⟨before, l, rest, hc, hl, rfl, ?_, by rw [hendings, endings_leader hc hl], ?_⟩
  · rcases hb with rfl | ⟨next, -, rfl⟩ <;> exact htexts
  · intro next hnext
    rcases hb with rfl | ⟨next', hadj, rfl⟩
    · rw [hnone] at hnext
      cases hnext
    · cases hnext
      exact next_leader hadj

end Code

theorem body_jumped (known : Bool) (rest : List Line) : body known true rest = [] := by
  cases rest <;> simp [body]

theorem endingFrom_jumped (e : Ending) (rest : List Line) : endingFrom (some e) true rest = e := by
  cases rest <;> simp [endingFrom]

theorem jump_ends_body {known jumped : Bool} {found : Option Ending} {rest front back : List Line}
    {n : Line} {e : Ending} (h : body known jumped rest = front ++ n :: back) (hj : n.jumps = true)
    (he : n.ending = some e) : back = [] ∧ endingFrom found jumped rest = e := by
  induction rest generalizing known jumped found front with
  | nil => simp [body] at h
  | cons m rest ih =>
    rw [body] at h
    split at h
    · simp at h
    next hgo =>
      split at h
      · simp at h
      · rw [endingFrom, if_neg hgo]
        cases front with
        | nil =>
          obtain ⟨rfl, hback⟩ := List.cons.inj h
          rw [hj, body_jumped] at hback
          rw [hj, he]
          exact ⟨hback.symm, endingFrom_jumped e rest⟩
        | cons x front =>
          obtain ⟨rfl, hback⟩ := List.cons.inj h
          exact ih hback

theorem Code.jump_last {c : Code} {k : Int} {b : Block} {front back : List String} {text : String}
    {e : Ending} (h : c.linked.blocks.get? k = some b) (hb : b.instructions = front ++ text :: back)
    (hjump : ∀ l : Line, l.text = text → l.jumps = true ∧ l.ending = some e) :
    back = [] ∧ c.linked.endings.get? k = some e := by
  obtain ⟨before, l, rest, -, -, -, htexts, hending, -⟩ := block_linked h
  rw [htexts] at hb
  obtain ⟨lines, tail, hlines, rfl, htail⟩ := List.map_eq_append_iff.1 hb
  obtain ⟨n, after, rfl, htext, rfl⟩ := List.map_eq_cons_iff.1 htail
  obtain ⟨hj, he⟩ := hjump n htext
  rw [hending]
  cases lines with
  | nil =>
    obtain ⟨rfl, hafter⟩ := List.cons.inj hlines
    rw [hj, body_jumped] at hafter
    rw [hj, he, ← hafter]
    exact ⟨rfl, congrArg some (endingFrom_jumped e rest)⟩
  | cons x lines =>
    obtain ⟨rfl, hbody⟩ := List.cons.inj hlines
    obtain ⟨hafter, hend⟩ := @jump_ends_body _ _ l.ending _ _ _ _ _ hbody hj he
    rw [hafter, hend]
    exact ⟨rfl, rfl⟩

theorem Line.of_jumpIf {l : Line} {text : String} (htext : l.text = text)
    (h : (Instruction.ofText text).operation = .jumpIf) :
    l.jumps = true ∧ l.ending = some .conditional := by
  subst htext
  simp [jumps, ending, halts, mnemonic_of_jumpIf h]

end Listing

end EvmAudit
