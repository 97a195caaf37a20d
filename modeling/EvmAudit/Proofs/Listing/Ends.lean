import EvmAudit.Proofs.Listing.Extent
import EvmAudit.Proofs.Table

/-! The ends and endings of all blocks after a whole listing has been read: for each leader its own,
and for no other address. -/

namespace EvmAudit.Listing

def endingFrom : Option Ending → Bool → List Line → Ending
  | found, _, [] => found.getD .terminal
  | found, jumped, n :: rest =>
    if jumped || n.isTarget then found.getD .fallsTo
    else endingFrom (n.ending.or found) n.jumps rest

namespace Reading

variable {k : Int}

/-- A reading in the middle of a listing: its addresses are behind it, and so are the blocks. -/
structure Midway (r : Reading) (ls : List Line) : Prop where
  block_le : r.block ≤ r.address
  ends_le : ∀ k, r.outline.ends.contains k = true → k ≤ r.block
  endings_le : ∀ k, r.outline.endings.contains k = true → k ≤ r.block
  stop_le : ∀ e ∈ r.outline.ends.get? r.block, e ≤ r.address
  ended : r.atBlockStart = true → r.outline.ends.get? r.block = some r.address
  ahead : Increasing r.address ls

variable {r : Reading} {l : Line} {ls : List Line}

theorem Midway.contains_address (h : r.Midway ls) :
    r.outline.ends.contains r.address = true ↔ r.address = r.block ∧
    (r.outline.ends.get? r.block).isSome = true := by
  constructor
  · intro hc
    have heq : r.address = r.block := le_antisymm (h.ends_le _ hc) h.block_le
    exact ⟨heq, heq ▸ hc⟩
  · rintro ⟨heq, hc⟩
    rw [heq]
    exact hc

theorem block_le_blockOf (h : r.Midway (l :: ls)) : r.block ≤ r.blockOf l := by
  have hlt := h.ahead.1
  have hle := h.block_le
  unfold blockOf
  split <;> omega

theorem Midway.blockOf_le (h : r.Midway (l :: ls)) : r.blockOf l ≤ l.address := by
  have hlt := h.ahead.1
  have hle := h.block_le
  unfold blockOf
  split <;> omega

theorem contains_endsAfter_cases (hk : (r.endsAfter l).contains k = true) :
    r.outline.ends.contains k = true ∨ k = r.block ∨ k = r.blockOf l := by
  unfold endsAfter at hk
  split at hk
  next ht =>
    split at hk
    · exact Or.inl hk
    · rw [Table.contains_insert, Bool.or_eq_true, decide_eq_true_eq] at hk
      rcases hk with rfl | hk
      · split
        · exact Or.inr (Or.inr (by simp [blockOf, ht]))
        · exact Or.inr (Or.inl rfl)
      · exact Or.inl hk
  · split at hk
    · rw [Table.contains_insert, Bool.or_eq_true, decide_eq_true_eq] at hk
      rcases hk with rfl | hk
      · exact Or.inr (Or.inr rfl)
      · exact Or.inl hk
    · exact Or.inl hk

theorem contains_endsAfter (h : r.Midway (l :: ls)) (hk : (r.endsAfter l).contains k = true) :
    k ≤ r.blockOf l := by
  have hle := block_le_blockOf h
  rcases contains_endsAfter_cases hk with hk | rfl | rfl
  · exact (h.ends_le k hk).trans hle
  · exact hle
  · exact le_refl _

theorem contains_endingsAfter (h : r.Midway (l :: ls))
    (hk : (r.endingsAfter l).contains k = true) : k ≤ r.blockOf l := by
  have hle := block_le_blockOf h
  unfold endingsAfter at hk
  split at hk
  · rw [Table.contains_insert, Bool.or_eq_true, decide_eq_true_eq] at hk
    rcases hk with rfl | hk
    · exact le_refl _
    · exact (h.endings_le k hk).trans hle
  · exact (h.endings_le k hk).trans hle

theorem Midway.get?_eq_none (h : r.Midway (l :: ls)) (hk : r.block < k) :
    r.outline.ends.get? k = none := by
  by_contra hne
  have := h.ends_le k (Option.isSome_iff_ne_none.2 hne)
  omega

theorem isTarget_of_closes (h : l.isTarget = true) : l.closes = false := by
  obtain ⟨-, hhalts, hjumps, -⟩ := Line.of_target (l := l) (by simpa [Line.isTarget] using h)
  simp [Line.closes, hhalts, hjumps]

theorem Midway.get?_blockOf (h : r.Midway (l :: ls)) :
    (r.endsAfter l).get? (r.blockOf l) = if l.closes then some (l.address : Int)
      else if r.atBlockStart || l.isTarget then
        if l.isTarget && r.atBlockStart && !r.outline.ends.contains r.address then some r.address
        else none else r.outline.ends.get? r.block := by
  have hlt : r.block < l.address := lt_of_le_of_lt h.block_le h.ahead.1
  have hnone := h.get?_eq_none hlt
  unfold endsAfter
  cases ht : l.isTarget with
  | true =>
    have hb : r.blockOf l = l.address := by simp [blockOf, ht]
    rw [hb]
    cases hs : r.atBlockStart <;> cases hc : r.outline.ends.contains r.address <;>
      simp [isTarget_of_closes ht, hnone, Table.get?_insert, ne_of_gt hlt]
  | false =>
    cases hc : l.closes with
    | true => simp
    | false =>
      cases hs : r.atBlockStart <;> simp [blockOf, hs, ht, hnone]

theorem Midway.line (h : r.Midway (l :: ls)) : (r.line l).Midway ls where
  block_le := h.blockOf_le
  ends_le _ hk := contains_endsAfter h hk
  endings_le _ hk := contains_endingsAfter h hk
  stop_le := by
    intro e he
    have hlt : r.address < l.address := h.ahead.1
    rw [line_ends, line_block, h.get?_blockOf] at he
    rw [line_address]
    split at he
    · simp only [Option.mem_some_iff] at he
      exact le_of_eq he.symm
    · split at he
      · split at he
        · simp only [Option.mem_some_iff] at he
          omega
        · simp at he
      · exact (h.stop_le e he).trans (le_of_lt hlt)
  ended := by
    intro hj
    have hc : l.closes = true := by simp [Line.closes, show l.jumps = true from hj]
    simp [h.get?_blockOf, hc]
  ahead := h.ahead.2

theorem Midway.get?_endsAfter_of_lt (h : r.Midway (l :: ls)) (hk : k < r.block) :
    (r.endsAfter l).get? k = r.outline.ends.get? k := by
  have hb := block_le_blockOf h
  have hlt : r.block < l.address := lt_of_le_of_lt h.block_le h.ahead.1
  unfold endsAfter
  split
  · split
    · rfl
    · refine Table.get?_insert_of_ne ?_ _ _
      split <;> omega
  · split
    · exact Table.get?_insert_of_ne (by omega) _ _
    · rfl

theorem Midway.get?_endsAfter_block (h : r.Midway (l :: ls))
    (hb : (r.atBlockStart || l.isTarget) = true) : (r.endsAfter l).get? r.block =
      some (if r.atBlockStart then (r.outline.ends.get? r.block).getD r.address
        else if r.address = r.block then (r.outline.ends.get? r.block).getD r.address else
          r.address) := by
  have hlt : r.block < l.address := lt_of_le_of_lt h.block_le h.ahead.1
  have hof : r.blockOf l = l.address := by simp [blockOf, hb]
  have hne : r.block ≠ (l.address : Int) := by omega
  cases hs : r.atBlockStart with
  | true =>
    have hend := h.ended hs
    unfold endsAfter
    rw [hof, hs]
    split
    · split
      · simp [hend]
      · simp [Table.get?_insert_of_ne hne, hend]
    · split
      · simp [Table.get?_insert_of_ne hne, hend]
      · simp [hend]
  | false =>
    have ht : l.isTarget = true := by simpa [hs] using hb
    unfold endsAfter
    rw [if_pos ht, hs]
    by_cases hc : r.outline.ends.contains r.address = true
    · obtain ⟨heq, hsome⟩ := h.contains_address.1 hc
      obtain ⟨e, he⟩ := Option.isSome_iff_exists.1 hsome
      rw [if_pos hc]
      simp [heq, he]
    · rw [if_neg hc]
      have hnone : r.address = r.block → r.outline.ends.get? r.block = none := by
        intro heq
        by_contra hne
        exact hc (h.contains_address.2 ⟨heq, Option.isSome_iff_ne_none.2 hne⟩)
      by_cases heq : r.address = r.block
      · simp [heq, hnone heq]
      · simp [heq]

theorem ends_close (r : Reading) (k : Int) :
    r.close.ends.get? k =
      if k = r.block then some ((r.outline.ends.get? k).getD r.address) else
        r.outline.ends.get? k := by
  have hclose : r.close.ends = if r.outline.ends.contains r.block then r.outline.ends
      else r.outline.ends.insert r.block r.address := rfl
  rw [hclose]
  by_cases hc : r.outline.ends.contains r.block = true
  · obtain ⟨e, he⟩ := Table.contains_iff.1 hc
    by_cases hk : k = r.block <;> simp [hc, hk, he]
  · have hnone : r.outline.ends.get? r.block = none := by simpa [Table.contains] using hc
    by_cases hk : k = r.block <;> simp [hc, hk, hnone, Table.get?_insert]

theorem Midway.ends_of_lt (h : r.Midway ls) (hk : k < r.block) :
    (r.lines ls).close.ends.get? k = r.outline.ends.get? k := by
  induction ls generalizing r with
  | nil =>
    change r.close.ends.get? k = _
    rw [ends_close, if_neg (by omega)]
  | cons l ls ih =>
    have hb := block_le_blockOf h
    have hl := ih h.line (lt_of_lt_of_le hk hb)
    rw [← h.get?_endsAfter_of_lt hk]
    exact hl

theorem Midway.ends_block (h : r.Midway ls) :
    (r.lines ls).close.ends.get? r.block =
      some (stopFrom r.block (r.outline.ends.get? r.block) r.atBlockStart r.address ls) := by
  induction ls generalizing r with
  | nil =>
    change r.close.ends.get? r.block = _
    rw [ends_close, if_pos rfl]
    rfl
  | cons l ls ih =>
    have hlt : r.block < l.address := lt_of_le_of_lt h.block_le h.ahead.1
    rw [stopFrom]
    cases hb : r.atBlockStart || l.isTarget with
    | true =>
      have hof : r.blockOf l = l.address := by simp [blockOf, hb]
      have hrest := h.line.ends_of_lt (k := r.block) (by simpa [hof] using hlt)
      refine hrest.trans ((h.get?_endsAfter_block hb).trans ?_)
      cases hs : r.atBlockStart with
      | true => rfl
      | false =>
        have ht : l.isTarget = true := by simpa [hs] using hb
        simp [ht]
    | false =>
      obtain ⟨hs, ht⟩ : r.atBlockStart = false ∧ l.isTarget = false := by simpa using hb
      have hof : r.blockOf l = r.block := by simp [blockOf, hb]
      have hget : (r.endsAfter l).get? r.block = nextFound (r.outline.ends.get? r.block) l := by
        have := h.get?_blockOf
        rw [hof] at this
        simpa [hb, nextFound] using this
      have hrest := ih h.line
      rw [line_block, line_ends, line_atBlockStart, line_address, hof, hget] at hrest
      rw [hs, ht, if_neg (by simp), if_neg (by simp)]
      exact hrest

theorem Midway.get?_endingsAfter_of_ne (hk : k ≠ r.blockOf l) :
    (r.endingsAfter l).get? k = r.outline.endings.get? k := by
  unfold endingsAfter
  split
  · exact Table.get?_insert_of_ne hk _ _
  · rfl

theorem get?_endingsAfter_blockOf (h : r.Midway (l :: ls)) :
    (r.endingsAfter l).get? (r.blockOf l) =
      if r.atBlockStart || l.isTarget then l.ending else
        l.ending.or (r.outline.endings.get? r.block) := by
  have hlt : r.block < l.address := lt_of_le_of_lt h.block_le h.ahead.1
  have hnone : r.outline.endings.get? l.address = none := by
    by_contra hne
    have := h.endings_le _ (Option.isSome_iff_ne_none.2 hne)
    omega
  unfold endingsAfter
  cases he : l.ending with
  | some e => cases hb : r.atBlockStart || l.isTarget <;> simp
  | none => cases hb : r.atBlockStart || l.isTarget <;> simp [blockOf, hb, hnone]

theorem get?_foldl_fallsTo (keys : List Int) (es : Table Int Ending) (k : Int) :
    (keys.foldl (fun es key => if es.contains key then es else es.insert key .fallsTo) es).get? k =
      (es.get? k).or (if k ∈ keys then some .fallsTo else none) := by
  induction keys generalizing es with
  | nil => simp
  | cons key keys ih =>
    rw [List.foldl_cons, ih]
    by_cases hc : es.contains key = true
    · obtain ⟨e, he⟩ := Table.contains_iff.1 hc
      by_cases hk : k = key <;> simp [hc, hk, he]
    · have hnone : es.get? key = none := by simpa [Table.contains] using hc
      by_cases hk : k = key <;> simp [hc, hk, hnone, Table.get?_insert]

theorem endings_close (r : Reading) (hk : r.close.ends.contains k = true) :
    r.close.endings.get? k =
      some ((r.outline.endings.get? k).getD (if k = r.block then .terminal else .fallsTo)) := by
  have hmem : k ∈ r.close.ends.keys := Table.mem_keys.2 hk
  have hclose : r.close.endings = r.close.ends.keys.foldl
      (fun es key => if es.contains key then es else es.insert key .fallsTo)
      (if r.outline.endings.contains r.block then r.outline.endings
        else r.outline.endings.insert r.block .terminal) := rfl
  rw [hclose, get?_foldl_fallsTo, if_pos hmem]
  by_cases hc : r.outline.endings.contains r.block = true
  · obtain ⟨e, he⟩ := Table.contains_iff.1 hc
    rw [if_pos hc]
    by_cases hb : k = r.block
    · simp [hb, he]
    · cases r.outline.endings.get? k <;> simp [hb]
  · have hnone : r.outline.endings.get? r.block = none := by simpa [Table.contains] using hc
    rw [if_neg hc]
    by_cases hb : k = r.block
    · simp [hb, hnone]
    · cases hg : r.outline.endings.get? k <;> simp [hb, Table.get?_insert, hg]

theorem Midway.endings_of_lt (h : r.Midway ls) (hk : k < r.block)
    (hc : r.outline.ends.contains k = true) :
    (r.lines ls).close.endings.get? k = some ((r.outline.endings.get? k).getD .fallsTo) := by
  induction ls generalizing r with
  | nil =>
    have hc' : r.close.ends.contains k = true := by
      simpa [Table.contains, ends_close, show k ≠ r.block by omega] using hc
    change r.close.endings.get? k = _
    rw [endings_close r hc', if_neg (by omega)]
  | cons l ls ih =>
    have hb := block_le_blockOf h
    have hc' : (r.endsAfter l).contains k = true := by
      simpa [Table.contains, h.get?_endsAfter_of_lt hk] using hc
    rw [← Midway.get?_endingsAfter_of_ne (l := l) (by omega)]
    exact ih h.line (lt_of_lt_of_le hk hb) hc'

theorem Midway.endings_block (h : r.Midway ls) :
    (r.lines ls).close.endings.get? r.block =
      some (endingFrom (r.outline.endings.get? r.block) r.atBlockStart ls) := by
  induction ls generalizing r with
  | nil =>
    have hc : r.close.ends.contains r.block = true := by simp [Table.contains, ends_close]
    change r.close.endings.get? r.block = _
    rw [endings_close r hc, if_pos rfl]
    rfl
  | cons l ls ih =>
    have hlt : r.block < l.address := lt_of_le_of_lt h.block_le h.ahead.1
    rw [endingFrom]
    cases hb : r.atBlockStart || l.isTarget with
    | true =>
      have hof : r.blockOf l = l.address := by simp [blockOf, hb]
      have hc : (r.endsAfter l).contains r.block = true := by
        simp [Table.contains, h.get?_endsAfter_block hb]
      rw [if_pos rfl, ← Midway.get?_endingsAfter_of_ne (l := l) (by omega)]
      exact h.line.endings_of_lt (by simpa [hof] using hlt) hc
    | false =>
      have hof : r.blockOf l = r.block := by simp [blockOf, hb]
      have hget := get?_endingsAfter_blockOf h
      have hrest := ih h.line
      rw [line_block, line_endings, line_atBlockStart, hget, hof, hb, if_neg (by simp)] at hrest
      rw [if_neg (by simp)]
      exact hrest

theorem lines_append (r : Reading) (ls ms : List Line) :
    r.lines (ls ++ ms) = (r.lines ls).lines ms :=
  List.foldl_append

theorem lines_concat (r : Reading) (ls : List Line) (l : Line) :
    r.lines (ls ++ [l]) = (r.lines ls).line l :=
  lines_append r ls [l]

theorem get?_empty {ν : Type} (k : Int) : Table.get? ({} : Table Int ν) k = none := rfl

theorem get?_endsAfter_first (h0 : l.address = 0) (k : Int) :
    (endsAfter {} l).get? k = if k = 0 ∧ (l.closes || l.isTarget) = true then some 0 else none := by
  have hb : blockOf {} l = 0 := by simp [blockOf, h0]
  unfold endsAfter
  rw [hb, h0]
  cases ht : l.isTarget <;> cases hc : l.closes <;> by_cases hk : k = 0 <;>
    simp [hk, Table.get?_insert, Table.contains, get?_empty]

theorem get?_endingsAfter_first (h0 : l.address = 0) (k : Int) :
    (endingsAfter {} l).get? k = if k = 0 then l.ending else none := by
  have hb : blockOf {} l = 0 := by simp [blockOf, h0]
  unfold endingsAfter
  rw [hb]
  by_cases hk : k = 0 <;> cases l.ending <;> simp [hk, Table.get?_insert, get?_empty]

theorem midway_first (h0 : l.address = 0) (hinc : Increasing l.address ls) :
    (Reading.line {} l).Midway ls := by
  have hb : blockOf {} l = 0 := by simp [blockOf, h0]
  refine ⟨?_, ?_, ?_, ?_, ?_, hinc⟩
  · simp [hb]
  · intro k hk
    obtain ⟨e, he⟩ := Table.contains_iff.1 hk
    rw [line_ends, get?_endsAfter_first h0] at he
    split at he <;> simp_all
  · intro k hk
    obtain ⟨e, he⟩ := Table.contains_iff.1 hk
    rw [line_endings, get?_endingsAfter_first h0] at he
    split at he <;> simp_all
  · intro e he
    rw [line_ends, get?_endsAfter_first h0] at he
    split at he <;> simp_all
  · intro hj
    have hc : l.closes = true := by simp [Line.closes, show l.jumps = true from hj]
    simp [get?_endsAfter_first h0, hb, h0, hc]

end Reading

end EvmAudit.Listing
