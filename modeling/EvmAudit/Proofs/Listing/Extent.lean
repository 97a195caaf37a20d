import EvmAudit.Proofs.Listing.Reading

/-! Where blocks end. A leader is followed by the lines of its block: those up to the first
instruction that ends it are its `extent`, those that the reading gives it are its `body`. -/

namespace EvmAudit.Listing

def quiet (ls : List Line) : Bool := ls.all fun l => !l.closes && !l.isTarget

/-- The lines after a leader up to the first one that ends a block, or to the next target of a jump;
the flag tells whether the block has ended. -/
def extent : Bool → List Line → List Line
  | _, [] => []
  | ended, n :: rest => if ended || n.isTarget then [] else n :: extent n.closes rest

/-- The lines after a leader that are read into its block. An end that is known already is moved on
by every line that ends a block, up to a jump or a target; the end of the listing does not move
it. -/
def body : Bool → Bool → List Line → List Line
  | _, _, [] => []
  | known, jumped, n :: rest =>
    if jumped || n.isTarget then []
    else if known && quiet (n :: rest) then []
    else n :: body (known || n.closes) n.jumps rest

def nextFound (found : Option Int) (n : Line) : Option Int :=
  if n.closes then some (n.address : Int) else found

def stopFrom (block : Int) : Option Int → Bool → Int → List Line → Int
  | found, _, address, [] => found.getD address
  | found, jumped, address, n :: rest =>
    if jumped then found.getD address
    else if n.isTarget then if address = block then found.getD address else address
    else stopFrom block (nextFound found n) n.jumps n.address rest

def Increasing (address : Int) : List Line → Prop
  | [] => True
  | n :: rest => address < n.address ∧ Increasing n.address rest

theorem Increasing.lt_of_mem {a : Int} {ls : List Line} (h : Increasing a ls) {l : Line}
    (hl : l ∈ ls) : a < l.address := by
  induction ls generalizing a with
  | nil => simp at hl
  | cons n rest ih =>
    rcases List.mem_cons.1 hl with rfl | hl
    · exact h.1
    · exact lt_trans h.1 (ih h.2 hl)

section

variable {block address : Int} {found : Option Int} {jumped : Bool} {ls : List Line}

theorem le_stopFrom {a : Int} (hfound : ∀ f ∈ found, a ≤ f) (ha : a ≤ address)
    (hinc : Increasing address ls) : a ≤ stopFrom block found jumped address ls := by
  have hgetD : ∀ {found : Option Int} {address : Int}, (∀ f ∈ found, a ≤ f) → a ≤ address →
      a ≤ found.getD address := by
    intro found address hf hle
    cases found with
    | none => exact hle
    | some f => exact hf f rfl
  induction ls generalizing found jumped address with
  | nil => exact hgetD hfound ha
  | cons n rest ih =>
    have hn : a ≤ n.address := le_of_lt (lt_of_le_of_lt ha hinc.1)
    rw [stopFrom]
    split
    · exact hgetD hfound ha
    · split
      · split
        · exact hgetD hfound ha
        · exact ha
      · refine ih ?_ hn hinc.2
        intro f hf
        rw [nextFound] at hf
        split at hf
        · simp only [Option.mem_some_iff] at hf
          exact hf ▸ hn
        · exact hfound f hf

theorem address_le_stopFrom (hloud : quiet ls = false) (hj : jumped = false)
    (hblock : block < address) (hinc : Increasing address ls) :
    address ≤ stopFrom block found jumped address ls := by
  induction ls generalizing found jumped address with
  | nil => simp [quiet] at hloud
  | cons n rest ih =>
    have hn : address ≤ n.address := le_of_lt hinc.1
    rw [stopFrom, if_neg (by simp [hj])]
    split
    · rw [if_neg (ne_of_gt hblock)]
    next ht =>
      cases hc : n.closes with
      | true =>
        refine le_stopFrom (fun f hf => ?_) hn hinc.2
        simp only [nextFound, hc, if_true, Option.mem_some_iff] at hf
        exact hf ▸ hn
      | false =>
        have hrest : quiet rest = false := by
          simpa [quiet, hc, ht] using hloud
        have hnj : n.jumps = false := by
          simp only [Line.closes, Bool.or_eq_false_iff] at hc
          exact hc.2
        exact hn.trans (ih hrest hnj (lt_of_lt_of_le hblock hn) hinc.2)

theorem stopFrom_of_quiet {f : Int} (hquiet : quiet ls = true) :
    stopFrom block (some f) jumped address ls = f := by
  induction ls generalizing jumped address with
  | nil => rfl
  | cons n rest ih =>
    simp only [quiet, List.all_cons, Bool.and_eq_true, Bool.not_eq_true'] at hquiet
    rw [stopFrom]
    split
    · rfl
    · simpa [nextFound, hquiet.1.1, hquiet.1.2] using ih (by simpa [quiet] using hquiet.2)

theorem takeWhile_eq_nil {stop : Int} (hinc : Increasing address ls) (hstop : stop ≤ address) :
    ls.takeWhile (fun l => decide ((l.address : Int) ≤ stop)) = [] := by
  cases ls with
  | nil => rfl
  | cons n rest =>
    refine List.takeWhile_cons_of_neg ?_
    have := hinc.1
    simp only [decide_eq_true_eq]
    omega

theorem isSome_nextFound (found : Option Int) (n : Line) :
    (nextFound found n).isSome = (found.isSome || n.closes) := by
  cases hc : n.closes <;> simp [nextFound, hc]

theorem nextFound_le {n : Line} (hfound : ∀ f ∈ found, f ≤ address) (hn : address < n.address) :
    ∀ f ∈ nextFound found n, f ≤ n.address := by
  intro f hf
  rw [nextFound] at hf
  split at hf
  · simp only [Option.mem_some_iff] at hf
    exact le_of_eq hf.symm
  · exact (hfound f hf).trans (le_of_lt hn)

theorem getD_le (hfound : ∀ f ∈ found, f ≤ address) : found.getD address ≤ address := by
  cases found with
  | none => exact le_refl _
  | some f => exact hfound f rfl

theorem line_le_stopFrom {n : Line} (hblock : block < n.address)
    (hmoves : found.isSome = true → quiet (n :: ls) = false) (ht : n.isTarget = false)
    (hinc : Increasing n.address ls) :
    (n.address : Int) ≤ stopFrom block (nextFound found n) n.jumps n.address ls := by
  cases hc : n.closes with
  | true =>
    refine le_stopFrom (fun f hf => ?_) (le_refl _) hinc
    simp only [nextFound, hc, if_true, Option.mem_some_iff] at hf
    exact le_of_eq hf
  | false =>
    have hj : n.jumps = false := by
      simp only [Line.closes, Bool.or_eq_false_iff] at hc
      exact hc.2
    cases found with
    | none => exact le_stopFrom (by simp [nextFound, hc]) (le_refl _) hinc
    | some f =>
      have hloud : quiet ls = false := by simpa [quiet, hc, ht] using hmoves rfl
      exact address_le_stopFrom hloud hj hblock hinc

theorem takeWhile_stopFrom (hfound : ∀ f ∈ found, f ≤ address) (hblock : block ≤ address)
    (hinc : Increasing address ls) :
    ls.takeWhile (fun l => decide ((l.address : Int) ≤ stopFrom block found jumped address ls)) =
      body found.isSome jumped ls := by
  induction ls generalizing found jumped address with
  | nil => rfl
  | cons n rest ih =>
    have hn := hinc.1
    rw [body, stopFrom]
    by_cases hj : jumped = true
    · have hend : (jumped || n.isTarget) = true := by simp [hj]
      rw [if_pos hj, if_pos hend]
      exact takeWhile_eq_nil hinc (getD_le hfound)
    by_cases ht : n.isTarget = true
    · have hend : (jumped || n.isTarget) = true := by simp [ht]
      rw [if_neg hj, if_pos ht, if_pos hend]
      refine takeWhile_eq_nil hinc ?_
      split
      · exact getD_le hfound
      · exact le_refl _
    have hend : ¬ (jumped || n.isTarget) = true := by simp [hj, ht]
    rw [if_neg hj, if_neg ht, if_neg hend]
    split
    next hk =>
      obtain ⟨hs, hquiet⟩ : found.isSome = true ∧ quiet (n :: rest) = true := by simpa using hk
      obtain ⟨f, rfl⟩ := Option.isSome_iff_exists.1 hs
      simp only [quiet, List.all_cons, Bool.and_eq_true, Bool.not_eq_true'] at hquiet
      refine takeWhile_eq_nil hinc ?_
      rw [nextFound, hquiet.1.1, if_neg (by simp),
        stopFrom_of_quiet (by simpa [quiet] using hquiet.2)]
      exact hfound f rfl
    next hk =>
      have hmoves : found.isSome = true → quiet (n :: rest) = false := by simpa using hk
      have hle := line_le_stopFrom (lt_of_le_of_lt hblock hn) hmoves (by simpa using ht) hinc.2
      rw [List.takeWhile_cons_of_pos (by simpa using hle), ← isSome_nextFound,
        ih (nextFound_le hfound hn) (hblock.trans (le_of_lt hn)) hinc.2]

end

/-- From a line of a block on, no line that ends the block is passed over, and an end that is known
already is moved on to all lines. -/
def neat : Bool → Line → List Line → Bool
  | _, _, [] => true
  | known, l, n :: rest =>
    l.jumps || n.isTarget ||
      if l.halts then quiet (n :: rest)
      else !(known && quiet (n :: rest)) && neat (known || n.closes) n rest

theorem body_eq_extent_iff {known : Bool} {l : Line} (hknown : l.closes = true → known = true)
    (ls : List Line) : body known l.jumps ls = extent l.closes ls ↔ neat known l ls = true := by
  induction ls generalizing known l with
  | nil => simp [body, extent, neat]
  | cons n rest ih =>
    rw [body, extent, neat]
    by_cases hend : l.jumps = true ∨ n.isTarget = true
    · have hb : (l.jumps || n.isTarget) = true := by simpa using hend
      have he : (l.closes || n.isTarget) = true := by
        rcases hend with h | h <;> simp [Line.closes, h]
      simp [hb, he]
    obtain ⟨hj, ht⟩ : l.jumps = false ∧ n.isTarget = false := by simpa using hend
    cases hh : l.halts with
    | true =>
      have hc : l.closes = true := by simp [Line.closes, hh]
      simp [hj, ht, hc, hknown hc]
    | false =>
      have hc : l.closes = false := by simp [Line.closes, hh, hj]
      have hstep := @ih (known || n.closes) n (by simp +contextual)
      by_cases hk : (known && quiet (n :: rest)) = true
      · simp [hj, ht, hc, hk]
      · simp [hj, ht, hc, hk, hstep]

theorem extent_isPrefix (ended : Bool) (ls : List Line) : extent ended ls <+: ls := by
  induction ls generalizing ended with
  | nil => exact List.prefix_rfl
  | cons n rest ih =>
    rw [extent]
    split
    · exact List.nil_prefix
    · exact List.prefix_cons_inj n |>.2 (ih n.closes)

theorem body_isPrefix (known jumped : Bool) (ls : List Line) : body known jumped ls <+: ls := by
  induction ls generalizing known jumped with
  | nil => exact List.prefix_rfl
  | cons n rest ih =>
    rw [body]
    split
    · exact List.nil_prefix
    · split
      · exact List.nil_prefix
      · exact List.prefix_cons_inj n |>.2 (ih _ n.jumps)

theorem neat_of_forall {known : Bool} {l : Line} {ls : List Line}
    (hhalts : ∀ before m rest, l :: ls = before ++ m :: rest → m.halts = true →
      (∃ n, rest.head? = some n ∧ n.isTarget = true) ∨ quiet rest = true)
    (hknown : known = true → l.closes = true ∨ ls = [] ∨ quiet ls = false) :
    neat known l ls = true := by
  induction ls generalizing known l with
  | nil => rfl
  | cons n rest ih =>
    rw [neat]
    by_cases hend : (l.jumps || n.isTarget) = true
    · simp [hend]
    obtain ⟨hj, ht⟩ : l.jumps = false ∧ n.isTarget = false := by simpa using hend
    cases hh : l.halts with
    | true =>
      rcases hhalts [] l (n :: rest) rfl hh with ⟨m, hm, hmt⟩ | hq
      · simp only [List.head?_cons, Option.some.injEq] at hm
        simp [hm, hmt]
      · simp [hq]
    | false =>
      have hc : l.closes = false := by simp [Line.closes, hh, hj]
      have hloud : known = true → quiet (n :: rest) = false := by simpa [hc] using hknown
      have hrest : neat (known || n.closes) n rest = true := by
        refine ih (fun before m tail hm => hhalts (l :: before) m tail (by simp [hm])) ?_
        intro hk
        cases hnc : n.closes with
        | true => exact Or.inl rfl
        | false =>
          have hkt : known = true := by simpa [hnc] using hk
          have hq := hloud hkt
          exact Or.inr (Or.inr (by simpa [quiet, hnc, ht] using hq))
      have hgo : (known && quiet (n :: rest)) = false := by
        cases known with
        | false => rfl
        | true => exact hloud rfl
      simp [hgo, hrest]

theorem closes_of_quiet {ls : List Line} (h : quiet ls = true) {l : Line} (hl : l ∈ ls) :
    l.closes = false := by
  simp only [quiet, List.all_eq_true, Bool.and_eq_true, Bool.not_eq_true'] at h
  exact (h l hl).1

theorem neat_of_quiet {l : Line} {ls : List Line} (h : quiet (l :: ls) = true) :
    neat false l ls = true := by
  refine neat_of_forall (fun before m rest hm hh => ?_) (by simp)
  have hc := closes_of_quiet h (l := m) (by simp [hm])
  simp [Line.closes, hh] at hc

end EvmAudit.Listing
