import EvmAudit.Finding
import EvmAudit.Proofs.Table

/-! Which program counters a finding keeps: of those with a source text, the first of each place. -/

namespace EvmAudit

variable {α β : Type}

theorem bind_eq_ok {x : Except Fault α} {f : α → Except Fault β} {b : β} :
    (x >>= f) = .ok b ↔ ∃ a, x = .ok a ∧ f a = .ok b := by
  cases x with
  | error e => exact ⟨nofun, nofun⟩
  | ok a => exact ⟨fun h => ⟨a, rfl, h⟩, fun ⟨_, h, h'⟩ => by cases h; exact h'⟩

def accepts (f : α → Except Fault Bool) (x : α) : Bool := (f x).toOption = some true

theorem filterAuxM_eq_ok {f : α → Except Fault Bool} {xs acc ys : List α} :
    List.filterAuxM f xs acc = .ok ys ↔ (∀ x ∈ xs, ∃ b, f x = .ok b) ∧
    ys = (xs.filter (accepts f)).reverse ++ acc := by
  induction xs generalizing acc with
  | nil => simp [List.filterAuxM, pure, Except.pure, eq_comm]
  | cons x xs ih =>
    rw [List.filterAuxM, bind_eq_ok]
    cases hx : f x with
    | error e => simp [hx]
    | ok keep =>
      cases keep <;> simp [ih, hx, accepts, Except.toOption]

theorem filterM_eq_ok {f : α → Except Fault Bool} {xs ys : List α} :
    xs.filterM f = .ok ys ↔ (∀ x ∈ xs, ∃ b, f x = .ok b) ∧ ys = xs.filter (accepts f) := by
  rw [List.filterM, bind_eq_ok]
  simp only [filterAuxM_eq_ok, List.append_nil, pure, Except.pure, Except.ok.injEq]
  constructor
  · rintro ⟨zs, ⟨hall, rfl⟩, rfl⟩
    exact ⟨hall, List.reverse_reverse _⟩
  · rintro ⟨hall, rfl⟩
    exact ⟨_, ⟨hall, rfl⟩, List.reverse_reverse _⟩

namespace Finding

variable {m : SourceMap} {pcs kept : List Int} {pc : Int}

def HasText (m : SourceMap) (pc : Int) : Prop := ∃ code, m.sourceCode pc = .ok code ∧ code ≠ ""

/-- The whole text of the item behind a program counter. -/
def placeOf (m : SourceMap) (pc : Int) : String :=
  ((m.items.get? pc).map SourceItem.written).getD ""

def present (m : SourceMap) (pc : Int) : Except Fault Bool := do return (← m.sourceCode pc) ≠ ""

theorem accepts_present : accepts (present m) pc = true ↔ HasText m pc := by
  cases hcode : m.sourceCode pc with
  | error e => simp [accepts, present, HasText, hcode, bind, Except.bind, Except.toOption]
  | ok code =>
    simp [accepts, present, HasText, hcode, bind, Except.bind, pure, Except.pure, Except.toOption]

theorem exists_present : (∃ b, present m pc = .ok b) ↔ ∃ code, m.sourceCode pc = .ok code := by
  simp only [present, bind_eq_ok]
  constructor
  · rintro ⟨b, code, hcode, -⟩
    exact ⟨code, hcode⟩
  · rintro ⟨code, hcode⟩
    exact ⟨_, code, hcode, rfl⟩

/-- The first of each place that has not been seen before. -/
def firsts (m : SourceMap) (seen : List String) : List Int → List Int
  | [] => []
  | pc :: pcs =>
    if placeOf m pc ∈ seen then firsts m seen pcs
    else pc :: firsts m (seen ++ [placeOf m pc]) pcs

theorem entries_insert_of_not_mem {κ ν : Type} [DecidableEq κ] {t : Table κ ν} {k : κ}
    (h : k ∉ t.keys) (v : ν) : (t.insert k v).entries = t.entries ++ [(k, v)] := by
  obtain ⟨es⟩ := t
  rw [Table.insert]
  induction es with
  | nil => rfl
  | cons e es ih =>
    simp only [Table.keys, List.map_cons, List.mem_cons, not_or] at h
    simpa [Table.put, Ne.symm h.1] using ih h.2

def notePlace (m : SourceMap) (t : Table String Int) (pc : Int) : Table String Int :=
  if t.contains (placeOf m pc) then t else t.insert (placeOf m pc) pc

theorem values_notePlace (t : Table String Int) (pcs : List Int) :
    (pcs.foldl (notePlace m) t).values = t.values ++ firsts m t.keys pcs := by
  induction pcs generalizing t with
  | nil => simp [firsts]
  | cons pc pcs ih =>
    rw [List.foldl_cons, ih, notePlace, firsts]
    by_cases hseen : placeOf m pc ∈ t.keys
    · rw [if_pos (Table.mem_keys.1 hseen), if_pos hseen]
    · have hentries := entries_insert_of_not_mem hseen pc
      rw [if_neg (fun h => hseen (Table.mem_keys.2 h)), if_neg hseen]
      simp [Table.values, Table.keys, hentries]

theorem distinctPlaces_eq_ok :
    distinctPlaces m pcs = .ok kept ↔ (∀ pc ∈ pcs, ∃ code, m.sourceCode pc = .ok code) ∧
      kept = firsts m [] (pcs.filter (accepts (present m))) := by
  rw [distinctPlaces, bind_eq_ok]
  change (∃ ps, pcs.filterM (present m) = .ok ps ∧
    Except.ok (ps.foldl (notePlace m) {}).values = .ok kept) ↔ _
  simp only [filterM_eq_ok, exists_present, values_notePlace, Except.ok.injEq]
  constructor
  · rintro ⟨ps, ⟨hall, rfl⟩, rfl⟩
    exact ⟨hall, rfl⟩
  · rintro ⟨hall, rfl⟩
    exact ⟨_, ⟨hall, rfl⟩, rfl⟩

/-! ### The first of each place -/

theorem firsts_sublist (seen : List String) (pcs : List Int) : (firsts m seen pcs).Sublist pcs := by
  induction pcs generalizing seen with
  | nil => exact .slnil
  | cons pc pcs ih =>
    rw [firsts]
    split
    · exact (ih _).cons pc
    · exact (ih _).cons_cons pc

theorem first_of_mem_firsts {seen : List String} (h : pc ∈ firsts m seen pcs) :
    placeOf m pc ∉ seen ∧ ∃ before after, pcs = before ++ pc :: after ∧
    ∀ q ∈ before, placeOf m q ≠ placeOf m pc := by
  induction pcs generalizing seen with
  | nil => simp [firsts] at h
  | cons p pcs ih =>
    rw [firsts] at h
    split at h
    next hp =>
      obtain ⟨hseen, before, after, rfl, hbefore⟩ := ih h
      refine ⟨hseen, p :: before, after, rfl, ?_⟩
      rintro q (_ | ⟨_, hq⟩)
      · exact fun heq => hseen (heq ▸ hp)
      · exact hbefore q hq
    next hp =>
      rcases List.mem_cons.1 h with rfl | h
      · exact ⟨hp, [], pcs, rfl, by simp⟩
      · obtain ⟨hseen, before, after, rfl, hbefore⟩ := ih h
        rw [List.mem_append, not_or, List.mem_singleton] at hseen
        refine ⟨hseen.1, p :: before, after, rfl, ?_⟩
        rintro q (_ | ⟨_, hq⟩)
        · exact fun heq => hseen.2 heq.symm
        · exact hbefore q hq

theorem firsts_apart (seen : List String) (pcs : List Int) :
    (firsts m seen pcs).Pairwise fun p q => placeOf m p ≠ placeOf m q := by
  induction pcs generalizing seen with
  | nil => exact .nil
  | cons p pcs ih =>
    rw [firsts]
    split
    · exact ih _
    · refine List.pairwise_cons.2 ⟨fun q hq heq => ?_, ih _⟩
      exact (first_of_mem_firsts hq).1 (by simp [heq])

theorem exists_first (seen : List String) (h : pc ∈ pcs) :
    placeOf m pc ∈ seen ∨ ∃ p ∈ firsts m seen pcs, placeOf m p = placeOf m pc := by
  induction pcs generalizing seen with
  | nil => cases h
  | cons p pcs ih =>
    rw [firsts]
    split
    next hp =>
      rcases List.mem_cons.1 h with rfl | h
      · exact .inl hp
      · exact ih seen h
    · rcases List.mem_cons.1 h with rfl | h
      · exact .inr ⟨pc, List.mem_cons_self, rfl⟩
      · rcases ih (seen ++ [placeOf m p]) h with hseen | ⟨q, hq, heq⟩
        · rcases List.mem_append.1 hseen with hseen | hseen
          · exact .inl hseen
          · exact .inr ⟨p, List.mem_cons_self, (List.mem_singleton.1 hseen).symm⟩
        · exact .inr ⟨q, List.mem_cons_of_mem p hq, heq⟩

theorem firsts_eq_self {seen : List String} (hseen : ∀ p ∈ pcs, placeOf m p ∉ seen)
    (hapart : pcs.Pairwise fun p q => placeOf m p ≠ placeOf m q) : firsts m seen pcs = pcs := by
  induction pcs generalizing seen with
  | nil => rfl
  | cons p pcs ih =>
    obtain ⟨hp, hrest⟩ := List.pairwise_cons.1 hapart
    rw [firsts, if_neg (hseen p List.mem_cons_self), ih ?_ hrest]
    intro q hq
    rw [List.mem_append, not_or, List.mem_singleton]
    exact ⟨hseen q (List.mem_cons_of_mem p hq), (hp q hq).symm⟩

/-- What is kept is the first of each place, among what has a source text. -/
structure FirstOfEach (m : SourceMap) (pcs kept : List Int) : Prop where
  sublist : kept.Sublist pcs
  apart : kept.Pairwise fun p q => placeOf m p ≠ placeOf m q
  first : ∀ pc ∈ kept, HasText m pc ∧ ∃ before after, pcs = before ++ pc :: after ∧
    ∀ q ∈ before, HasText m q → placeOf m q ≠ placeOf m pc
  covers : ∀ pc ∈ pcs, HasText m pc → ∃ p ∈ kept, placeOf m p = placeOf m pc

theorem firstOfEach (h : distinctPlaces m pcs = .ok kept) : FirstOfEach m pcs kept := by
  obtain ⟨-, rfl⟩ := distinctPlaces_eq_ok.1 h
  have hmem (pc : Int) : pc ∈ pcs.filter (accepts (present m)) ↔ pc ∈ pcs ∧ HasText m pc := by
    rw [List.mem_filter, accepts_present]
  constructor
  · exact (firsts_sublist _ _).trans List.filter_sublist
  · exact firsts_apart _ _
  · intro pc hpc
    have htext := ((hmem pc).1 ((firsts_sublist _ _).subset hpc)).2
    obtain ⟨-, before, after, hsplit, hbefore⟩ := first_of_mem_firsts hpc
    obtain ⟨front, rest, rfl, hfront, hrest⟩ := List.filter_eq_append_iff.1 hsplit
    obtain ⟨gap, tail, rfl, hgap, -, -⟩ := List.filter_eq_cons_iff.1 hrest
    refine ⟨htext, front ++ gap, tail, by simp, fun q hq hq' => ?_⟩
    rcases List.mem_append.1 hq with hq | hq
    · exact hbefore q (hfront ▸ List.mem_filter.2 ⟨hq, accepts_present.2 hq'⟩)
    · exact absurd (accepts_present.2 hq') (hgap q hq)
  · intro pc hpc htext
    exact (exists_first [] ((hmem pc).2 ⟨hpc, htext⟩)).resolve_left List.not_mem_nil

theorem FirstOfEach.distinctPlaces (h : FirstOfEach m pcs kept) :
    distinctPlaces m kept = .ok kept := by
  refine distinctPlaces_eq_ok.2 ⟨fun pc hpc => ?_, ?_⟩
  · obtain ⟨code, hcode, -⟩ := (h.first pc hpc).1
    exact ⟨code, hcode⟩
  · rw [List.filter_eq_self.2 fun pc hpc => accepts_present.2 (h.first pc hpc).1,
      firsts_eq_self (fun _ _ => List.not_mem_nil) h.apart]

/-- The second filter finds nothing to leave out, so that each place that is kept has its
warning. -/
theorem warningsAt_of_hasText (h : ∀ pc ∈ kept, HasText m pc) (title : Option String) :
    warningsAt m title kept = kept.mapM (warningAt m title) := by
  have hpresent : kept.filterM (present m) = .ok kept := by
    refine filterM_eq_ok.2 ⟨fun pc hpc => ?_, ?_⟩
    · obtain ⟨code, hcode, -⟩ := h pc hpc
      exact exists_present.2 ⟨code, hcode⟩
    · exact (List.filter_eq_self.2 fun pc hpc => accepts_present.2 (h pc hpc)).symm
  change (kept.filterM (present m) >>= fun ps => ps.mapM (warningAt m title)) = _
  rw [hpresent]
  rfl

theorem forall₂_of_mapM_eq_ok {f : α → Except Fault β} {xs : List α} {ys : List β}
    (h : xs.mapM f = .ok ys) : List.Forall₂ (fun x y => f x = .ok y) xs ys := by
  induction xs generalizing ys with
  | nil =>
    cases h
    exact .nil
  | cons x xs ih =>
    rw [List.mapM_cons] at h
    obtain ⟨y, hy, h⟩ := bind_eq_ok.1 h
    obtain ⟨zs, hzs, h⟩ := bind_eq_ok.1 h
    cases h
    exact .cons hy (ih hzs)

theorem isEmpty_mapM {f : α → Except Fault β} {xs : List α} {ys : List β} (h : xs.mapM f = .ok ys) :
    ys.isEmpty = xs.isEmpty := by
  rw [Bool.eq_iff_iff, List.isEmpty_iff_length_eq_zero, List.isEmpty_iff_length_eq_zero,
    (forall₂_of_mapM_eq_ok h).length_eq]

theorem atPcs_eq_ok {title : Option String} {f : Finding} (h : atPcs (some m) title pcs = .ok f) :
    Finding.distinctPlaces m pcs = .ok f.pcs ∧
      (f.vulnerable = true ↔ ∃ texts, f.details = .warnings texts ∧ texts ≠ []) := by
  obtain ⟨kept, hkept, h⟩ := bind_eq_ok.1 h
  obtain ⟨texts, htexts, h⟩ := bind_eq_ok.1 h
  cases h
  rw [warningsAt_of_hasText fun pc hpc => ((firstOfEach hkept).first pc hpc).1] at htexts
  refine ⟨hkept, ?_⟩
  rw [← isEmpty_mapM htexts]
  simp

/-- Findings keep the first program counter of each place, and warn of each that they keep. -/
theorem distinctPlaces_firstOfEach (m : SourceMap) (pcs : List Int) :
    ((∃ kept, Finding.distinctPlaces m pcs = .ok kept) ↔ ∀ pc ∈ pcs, ∃ code,
      m.sourceCode pc = .ok code) ∧ (∀ kept, Finding.distinctPlaces m pcs = .ok kept →
      FirstOfEach m pcs kept ∧ Finding.distinctPlaces m kept = .ok kept) ∧
    (∀ f, timeDependency (some m) pcs = .ok f ∨ reentrancy (some m) pcs = .ok f →
      Finding.distinctPlaces m pcs = .ok f.pcs ∧
        (f.vulnerable = true ↔ ∃ texts, f.details = .warnings texts ∧ texts ≠ [])) ∧
    ∀ flows f, concurrency (some m) flows = .ok f → ∃ texts, f.details = .flows texts ∧
      List.Forall₂ (fun flow warnings => ∃ kept, Finding.distinctPlaces m flow = .ok kept ∧
        List.Forall₂ (fun pc text =>
          warningAt m (some "Transaction-Ordering Dependency") pc = .ok text) kept warnings) flows
            texts := by
  refine ⟨?_, ?_, ?_, ?_⟩
  · simp only [distinctPlaces_eq_ok]
    simp
  · exact fun kept h => ⟨firstOfEach h, (firstOfEach h).distinctPlaces⟩
  · rintro f (h | h)
    · exact atPcs_eq_ok h
    · exact atPcs_eq_ok h
  · intro flows f h
    obtain ⟨texts, htexts, h⟩ := bind_eq_ok.1 h
    cases h
    refine ⟨texts, rfl, (forall₂_of_mapM_eq_ok htexts).imp ?_⟩
    intro flow warnings hwarnings
    obtain ⟨kept, hkept, hwarnings⟩ := bind_eq_ok.1 hwarnings
    rw [warningsAt_of_hasText fun pc hpc => ((firstOfEach hkept).first pc hpc).1] at hwarnings
    exact ⟨kept, hkept, forall₂_of_mapM_eq_ok hwarnings⟩

/-- The second `PUSH` is dropped, and so is what has no text; the tag at the same place is kept. -/
theorem distinctPlaces_firstOfEach_repeated :
    let item (name value : String) (start stop : Int) : SourceItem :=
      .ofDocument (.object [("begin", .int start), ("end", .int stop), ("name", .text name),
        ("value", .text value)])
    let m : SourceMap := { (default : SourceMap) with
      text := .ofContent "ab\n"
      items := .ofList [(0, item "PUSH" "60" 0 1), (1, item "PUSH" "60" 0 1),
        (2, item "tag" "1" 0 1), (3, item "PUSH" "0" 1 2), (4, item "JUMP" "[in]" 2 2)] }
    Finding.distinctPlaces m [0, 1, 2, 3, 4, 5] = .ok [0, 2, 3] ∧
      FirstOfEach m [0, 1, 2, 3, 4, 5] [0, 2, 3] := by
  intro item m
  have hkept : Finding.distinctPlaces m [0, 1, 2, 3, 4, 5] = .ok [0, 2, 3] := by decide
  exact ⟨hkept, ((distinctPlaces_firstOfEach m [0, 1, 2, 3, 4, 5]).2.1 _ hkept).1⟩

end Finding

end EvmAudit
