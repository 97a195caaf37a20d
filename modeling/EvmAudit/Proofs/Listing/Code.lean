import Mathlib.Data.List.Induction
import EvmAudit.Proofs.Listing.Ends

/-! Listings as a whole, and the outline of one: a block for each leader, with the end and the
ending that the lines after the leader give it. -/

namespace EvmAudit.Listing

open Reading

/-- A listing that is not empty, whose addresses go up from zero. -/
structure Code where
  lines : List Line
  ne_nil : lines ≠ [] := by decide
  starts : lines.head?.map Line.address = some 0 := by rfl
  increasing : (lines.map Line.address).Pairwise (· < ·) := by decide

structure Draft where
  address : Nat
  mnemonic : String
  operand : Option String := none

namespace Draft

def Legible (d : Draft) : Prop :=
  (Nat.toDigits 10 d.address).length ≤ Numeral.decimalLimit ∧ isMnemonic d.mnemonic = true ∧
    d.operand.all isOperand = true ∧
    (Text.startsWith d.mnemonic "PUSH" = true → d.operand.isSome = true)

instance (d : Draft) : Decidable d.Legible := inferInstanceAs (Decidable (_ ∧ _ ∧ _ ∧ _))

def line (d : Draft) (h : d.Legible) : Line :=
  ⟨d.address, d.mnemonic, d.operand, h.1, h.2.1, h.2.2.1, h.2.2.2⟩

theorem map_address_pmap {ds : List Draft} (h : ∀ d ∈ ds, d.Legible) :
    (ds.pmap line h).map Line.address = ds.map Draft.address := by
  rw [List.map_pmap, ← List.pmap_eq_map (p := Legible) (H := h)]
  rfl

end Draft

def Code.ofDrafts (ds : List Draft) (hlegible : ∀ d ∈ ds, d.Legible := by decide)
    (hstarts : (ds.map Draft.address).head? = some 0 := by rfl)
    (hincreasing : (ds.map Draft.address).Pairwise (· < ·) := by decide) : Code where
  lines := ds.pmap Draft.line hlegible
  ne_nil h := by
    rw [← Draft.map_address_pmap hlegible, h] at hstarts
    cases hstarts
  starts := by rw [← List.head?_map, Draft.map_address_pmap, hstarts]
  increasing := by rwa [Draft.map_address_pmap]

def leads (before : List Line) (l : Line) : Bool :=
  match before.getLast? with
  | none => true
  | some p => p.jumps || l.isTarget

/-- The end of the block of a target is known too early: for the first line, and behind a jump that
does not begin a block. -/
def presets (before : List Line) (l : Line) : Bool :=
  l.isTarget && match before.getLast? with
    | none => true
    | some p => p.jumps && !leads before.dropLast p

theorem increasing_of_pairwise {l : Line} {ls : List Line}
    (h : ((l :: ls).map Line.address).Pairwise (· < ·)) : Increasing l.address ls := by
  induction ls generalizing l with
  | nil => trivial
  | cons n rest ih =>
    rw [List.map_cons, List.pairwise_cons] at h
    exact ⟨by exact_mod_cast h.1 n.address (by simp), ih h.2⟩

namespace Code

variable {c : Code} {before rest : List Line} {l : Line}

theorem exists_first (c : Code) : ∃ l ls, c.lines = l :: ls ∧ l.address = 0 ∧
    Increasing l.address ls := by
  obtain ⟨l, ls, hl⟩ := List.exists_cons_of_ne_nil c.ne_nil
  refine ⟨l, ls, hl, by simpa [hl] using c.starts, ?_⟩
  have h := c.increasing
  rw [hl] at h
  exact increasing_of_pairwise h

def Led (ls : List Line) (k : Int) : Prop :=
  ∃ before l rest, ls = before ++ l :: rest ∧ leads before l = true ∧ k = l.address

theorem Led.concat {ls : List Line} {k : Int} (h : Led ls k) (l : Line) : Led (ls ++ [l]) k := by
  obtain ⟨before, m, rest, rfl, hm, hk⟩ := h
  exact ⟨before, m, rest ++ [l], by simp, hm, hk⟩

/-- What the reading knows after some lines of the listing, the last of which is given. -/
structure Read (before : List Line) (l : Line) (rest : List Line) (r : Reading) : Prop where
  midway : r.Midway rest
  address : r.address = l.address
  jumped : r.atBlockStart = l.jumps
  block : r.block = l.address ↔ leads before l = true
  known : leads before l = true →
    (r.outline.ends.get? l.address).isSome = (l.closes || presets before l)
  ending : leads before l = true → r.outline.endings.get? l.address = l.ending
  led : ∀ k, r.outline.ends.contains k = true ∨ k = r.block → Led (before ++ [l]) k

theorem read_first (h0 : l.address = 0) (hinc : Increasing l.address rest) :
    Read [] l rest (Reading.line {} l) := by
  have hb : Reading.blockOf {} l = l.address := by simp [Reading.blockOf, h0]
  have hled : Led [l] l.address := ⟨[], l, [], rfl, rfl, rfl⟩
  refine ⟨midway_first h0 hinc, rfl, rfl, by simp [leads, hb], ?_, ?_, ?_⟩
  · intro _
    rw [line_ends, Reading.get?_endsAfter_first h0, h0]
    cases hc : l.closes <;> cases ht : l.isTarget <;> simp [presets, ht]
  · intro _
    rw [line_endings, Reading.get?_endingsAfter_first h0, h0]
    rfl
  · rintro k (hk | rfl)
    · obtain ⟨e, he⟩ := Table.contains_iff.1 hk
      rw [line_ends, Reading.get?_endsAfter_first h0] at he
      have hk0 : k = l.address := by
        rw [h0]
        by_contra hne
        simp [show k ≠ 0 from hne] at he
      exact hk0 ▸ hled
    · rw [line_block, hb]
      exact hled

theorem leads_concat (before : List Line) (p l : Line) :
    leads (before ++ [p]) l = (p.jumps || l.isTarget) := by
  simp [leads]

theorem presets_concat (before : List Line) (p l : Line) :
    presets (before ++ [p]) l = (l.isTarget && (p.jumps && !leads before p)) := by
  simp [presets]

theorem Read.line {p : Line} {r : Reading} (h : Read before p (l :: rest) r) :
    Read (before ++ [p]) l rest (r.line l) := by
  have hm := h.midway
  have hlt : r.address < l.address := hm.ahead.1
  have hle := hm.block_le
  have hcontains : p.jumps = true →
      r.outline.ends.contains r.address = leads before p := by
    intro hj
    have hsome : (r.outline.ends.get? r.block).isSome = true := by
      rw [hm.ended (h.jumped.trans hj)]
      rfl
    rw [Bool.eq_iff_iff, hm.contains_address, ← h.block, ← h.address]
    simp [hsome, eq_comm]
  refine ⟨hm.line, rfl, rfl, ?_, ?_, ?_, ?_⟩
  · rw [line_block, Reading.blockOf, h.jumped, leads_concat]
    split
    · simp [*]
    next hb =>
      exact iff_of_false (by omega) hb
  · intro hl
    rw [leads_concat] at hl
    have hof : r.blockOf l = l.address := by simp [Reading.blockOf, h.jumped, hl]
    have hget := hm.get?_blockOf
    rw [hof, h.jumped, hl, if_pos rfl] at hget
    rw [line_ends, hget, presets_concat]
    cases hc : l.closes <;> cases hj : p.jumps <;> cases ht : l.isTarget <;>
      cases hp : leads before p <;> simp [hcontains, hj, hp]
  · intro hl
    rw [leads_concat] at hl
    have hof : r.blockOf l = l.address := by simp [Reading.blockOf, h.jumped, hl]
    have hget := Reading.get?_endingsAfter_blockOf hm
    rw [hof, h.jumped, hl, if_pos rfl] at hget
    exact hget
  · have hof : Led (before ++ [p] ++ [l]) (r.blockOf l) := by
      unfold Reading.blockOf
      split
      next hl =>
        exact ⟨before ++ [p], l, [], by simp, by rw [leads_concat, ← h.jumped, hl], rfl⟩
      · exact (h.led _ (Or.inr rfl)).concat l
    rintro k (hk | rfl)
    · rw [line_ends] at hk
      rcases contains_endsAfter_cases hk with hk | rfl | rfl
      · exact (h.led k (Or.inl hk)).concat l
      · exact (h.led _ (Or.inr rfl)).concat l
      · exact hof
    · exact hof

theorem read (hc : c.lines = before ++ l :: rest) :
    Read before l rest (Reading.lines {} (before ++ [l])) := by
  induction before using List.reverseRecOn generalizing l rest with
  | nil =>
    obtain ⟨first, ls, hl, h0, hinc⟩ := c.exists_first
    rw [hl, List.nil_append, List.cons.injEq] at hc
    obtain ⟨rfl, rfl⟩ := hc
    exact read_first h0 hinc
  | append_singleton before p ih =>
    rw [lines_concat]
    exact (ih (by simpa using hc)).line

theorem outlineOf_split (before rest : List Line) (l : Line) :
    outlineOf (before ++ l :: rest) = ((Reading.lines {} (before ++ [l])).lines rest).close := by
  rw [outlineOf, ← lines_append]
  simp

theorem ends_leader (hc : c.lines = before ++ l :: rest) (hl : leads before l = true) :
    ∃ stop, (outlineOf c.lines).ends.get? l.address = some stop ∧
      rest.takeWhile (fun n => decide ((n.address : Int) ≤ stop)) =
        body (l.closes || presets before l) l.jumps rest := by
  have h := read hc
  have hblock := h.block.2 hl
  have hends := h.midway.ends_block
  have hstop := h.midway.stop_le
  have hahead := h.midway.ahead
  rw [hblock, h.jumped, h.address] at hends
  rw [hblock, h.address] at hstop
  rw [h.address] at hahead
  rw [hc, outlineOf_split]
  refine ⟨_, hends, ?_⟩
  rw [takeWhile_stopFrom hstop (le_refl _) hahead, h.known hl]

theorem endings_leader (hc : c.lines = before ++ l :: rest) (hl : leads before l = true) :
    (outlineOf c.lines).endings.get? l.address = some (endingFrom l.ending l.jumps rest) := by
  have h := read hc
  have hendings := h.midway.endings_block
  rw [h.block.2 hl, h.jumped, h.ending hl] at hendings
  rw [hc, outlineOf_split]
  exact hendings

theorem led_of_contains {k : Int} (hk : (outlineOf c.lines).ends.contains k = true) :
    Led c.lines k := by
  obtain ⟨before, l, hc⟩ := List.eq_nil_or_concat c.lines |>.resolve_left c.ne_nil
  rw [List.concat_eq_append] at hc
  have h := read hc
  rw [hc, outlineOf, Table.contains, ends_close] at hk
  rw [hc]
  refine h.led k ?_
  split at hk
  · exact Or.inr ‹_›
  · exact Or.inl hk

end Code

theorem nodup_keys_endsAfter {r : Reading} (h : r.outline.ends.keys.Nodup) (l : Line) :
    (r.endsAfter l).keys.Nodup := by
  unfold Reading.endsAfter
  split
  · split
    · exact h
    · exact Table.nodup_keys_insert h _ _
  · split
    · exact Table.nodup_keys_insert h _ _
    · exact h

theorem nodup_keys_ends (ls : List Line) : (outlineOf ls).ends.keys.Nodup := by
  have hlines : (Reading.lines {} ls).outline.ends.keys.Nodup := by
    induction ls using List.reverseRecOn with
    | nil => exact List.nodup_nil
    | append_singleton ls l ih =>
      rw [lines_concat]
      exact nodup_keys_endsAfter ih l
  change Table.keys (if _ then _ else _) |>.Nodup
  split
  · exact hlines
  · exact Table.nodup_keys_insert hlines _ _

theorem entries_put_of_not_mem {k : Int} {v : String} {es : List (Int × String)}
    (h : k ∉ es.map Prod.fst) : Table.put k v es = es ++ [(k, v)] := by
  induction es with
  | nil => rfl
  | cons e es ih =>
    simp only [List.map_cons, List.mem_cons, not_or] at h
    simp [Table.put, Ne.symm h.1, ih h.2]

theorem entries_lines (r : Reading) (ls : List Line)
    (hnew : ∀ l ∈ ls, (l.address : Int) ∉ r.outline.instructions.keys)
    (hnd : (ls.map Line.address).Nodup) : (r.lines ls).outline.instructions.entries =
      r.outline.instructions.entries ++ ls.map fun l => ((l.address : Int), l.text) := by
  induction ls generalizing r with
  | nil => simp [Reading.lines]
  | cons l ls ih =>
    rw [List.map_cons, List.nodup_cons] at hnd
    have hput : (r.line l).outline.instructions.entries =
        r.outline.instructions.entries ++ [((l.address : Int), l.text)] :=
      entries_put_of_not_mem (hnew l (by simp))
    have hrest := ih (r.line l) (fun n hn => ?_) hnd.2
    · rw [hput] at hrest
      simpa [Reading.lines] using hrest
    · have hne : n.address ≠ l.address := fun h => hnd.1 (h ▸ List.mem_map_of_mem hn)
      have := hnew n (by simp [hn])
      rw [Table.keys] at this ⊢
      simp [hput, this, hne]

theorem Code.instructions (c : Code) :
    (outlineOf c.lines).instructions.entries = c.lines.map fun l =>
      ((l.address : Int), l.text) := by
  have hnd : (c.lines.map Line.address).Nodup := c.increasing.imp ne_of_lt
  exact entries_lines {} c.lines (by simp [Table.keys]) hnd

end EvmAudit.Listing
