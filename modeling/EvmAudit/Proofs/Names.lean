import EvmAudit.Proofs.Machine.Fresh

/-! Names that are counted are new. Whatever else is asked for, before or after, no other answer is
the same name. -/

namespace EvmAudit

/-- What the answers to a request begin with, if they are counted. -/
def NameRequest.stem? : NameRequest → Option String
  | .stack => some "s"
  | .data => some "Id_"
  | .arbitrary => some "some_var_"
  | .arbitraryAddress => some "some_address_"
  | .gas => some "gas_"
  | .balance => some "balance_"
  | _ => none

namespace Names

variable {p : Printer} {r : NameRequest} {g : Names} {stem stem' name : String}

def answers (p : Printer) (g : Names) : List NameRequest → List (NameRequest × String)
  | [] => []
  | r :: rs => (r, (g.answer p r).1) :: answers p (g.answer p r).2 rs

/-- The counter behind the names with a stem. -/
def counter (g : Names) (stem : String) : Nat :=
  if stem = "s" then g.stack else if stem = "Id_" then g.data else g.other

theorem answer_counted (g : Names) (h : r.stem? = some stem) :
    (g.answer p r).1 = stem ++ toString (g.counter stem + 1) ∧
    (g.answer p r).2.counter stem = g.counter stem + 1 := by
  cases r <;> cases h <;> exact ⟨rfl, rfl⟩

theorem counter_le_answer (g : Names) (r : NameRequest) (stem : String) :
    g.counter stem ≤ (g.answer p r).2.counter stem := by
  unfold counter
  cases r <;> split_ifs <;> first | exact Nat.le_refl _ | exact Nat.le_succ _

theorem answer_of_mem {rs : List NameRequest} (h : (r, name) ∈ g.answers p rs) :
    ∃ g' : Names, name = (g'.answer p r).1 ∧ ∀ stem, g.counter stem ≤ g'.counter stem := by
  induction rs generalizing g with
  | nil => cases h
  | cons first rs ih =>
    rcases List.mem_cons.1 h with heq | hrest
    · cases heq
      exact ⟨g, rfl, fun _ => Nat.le_refl _⟩
    · obtain ⟨g', hname, hle⟩ := ih hrest
      exact ⟨g', hname, fun stem => Nat.le_trans (g.counter_le_answer first stem) (hle stem)⟩

/-! ### What is left of a name without its digits -/

def letters (name : String) : List Char := name.toList.filter fun c => !c.isDigit

def stems : List String := ["s", "Id_", "some_var_", "some_address_", "gas_", "balance_"]

/-- What the answers begin with that are not counted. -/
def leads : List String := ["Id_size", "Ip", "Ia", "Is", "Io", "mem_", "code_"]

theorem mem_stems (h : r.stem? = some stem) : stem ∈ stems := by
  cases r <;> cases h <;> decide

theorem letters_append (s t : String) : letters (s ++ t) = letters s ++ letters t := by
  simp [letters]

theorem letters_counted (h : stem ∈ stems) (i : Nat) :
    letters (stem ++ toString i) = stem.toList := by
  have hstem : ∀ s ∈ stems, letters s = s.toList := by decide
  have hdigits : letters (toString i) = [] := by
    rw [letters, toList_toString, List.filter_eq_nil_iff]
    intro c hc
    simp [Nat.isDigit_of_mem_toDigits (by decide) (by decide) hc]
  rw [letters_append, hdigits, List.append_nil, hstem stem h]

theorem counted_injective {i j : Nat} (h : stem ∈ stems) (h' : stem' ∈ stems)
    (heq : stem ++ toString i = stem' ++ toString j) : stem = stem' ∧ i = j := by
  have hletters := letters_counted h i
  rw [heq, letters_counted h' j, String.toList_inj] at hletters
  subst hletters
  exact ⟨rfl, numbered_injective _ heq⟩

theorem answer_uncounted (g : Names) (h : r.stem? = none) :
    ∃ lead ∈ leads, ∃ text, (g.answer p r).1 = lead ++ text := by
  cases r with
  | stack | data | arbitrary | arbitraryAddress | gas | balance => cases h
  | dataSize => exact ⟨"Id_size", by decide, "", rfl⟩
  | gasPrice => exact ⟨"Ip", by decide, "", rfl⟩
  | address => exact ⟨"Ia", by decide, "", rfl⟩
  | caller => exact ⟨"Is", by decide, "", rfl⟩
  | origin => exact ⟨"Io", by decide, "", rfl⟩
  | memoryAt a => exact ⟨"mem_", by decide, _, rfl⟩
  | storage position label =>
    refine ⟨"Ia", by decide, "_store-" ++ (p.value position ++ ("-" ++ p.value label)), ?_⟩
    simp [answer, storage, ← String.toList_inj]
  | code owner position count =>
    refine ⟨"code_", by decide,
      p.value owner ++ ("_" ++ (p.value position ++ ("_" ++ p.value count))), ?_⟩
    simp [answer, code, ← String.toList_inj]
  | codeSize owner =>
    refine ⟨"code_", by decide, "size_" ++ p.value owner, ?_⟩
    simp [answer, codeSize, ← String.toList_inj]

theorem counted_ne_uncounted (g : Names) (hstem : stem ∈ stems) (h : r.stem? = none) (i : Nat) :
    stem ++ toString i ≠ (g.answer p r).1 := by
  intro heq
  obtain ⟨lead, hlead, text, htext⟩ := g.answer_uncounted h
  have hletters := letters_counted hstem i
  have hall : ∀ l ∈ leads, letters l = l.toList ∧ ∀ s ∈ stems, ¬ l.toList <+: s.toList := by decide
  rw [heq, htext, letters_append, (hall lead hlead).1] at hletters
  exact (hall lead hlead).2 stem hstem ⟨_, hletters⟩

/-- Of the answers to any requests no two are the same name, unless neither is counted. -/
theorem counted_answers_distinct (p : Printer) (g : Names) (rs : List NameRequest) :
    (g.answers p rs).Pairwise fun a b => a.1.stem? ≠ none ∨ b.1.stem? ≠ none → a.2 ≠ b.2 := by
  induction rs generalizing g with
  | nil => exact .nil
  | cons r rs ih =>
    refine .cons ?_ (ih _)
    rintro ⟨r', name⟩ hmem hcounted heq
    obtain ⟨g', rfl, hle⟩ := answer_of_mem hmem
    dsimp only at hcounted heq
    cases hr : r.stem? with
    | none =>
      obtain ⟨stem', hr'⟩ := Option.ne_none_iff_exists'.1 (hcounted.resolve_left (by simp [hr]))
      rw [(g'.answer_counted hr').1] at heq
      exact counted_ne_uncounted g (mem_stems hr') hr _ heq.symm
    | some stem =>
      obtain ⟨hname, hcounter⟩ := g.answer_counted hr
      rw [hname] at heq
      cases hr' : r'.stem? with
      | none => exact counted_ne_uncounted g' (mem_stems hr) hr' _ heq
      | some stem' =>
        rw [(g'.answer_counted hr').1] at heq
        obtain ⟨rfl, hsame⟩ := counted_injective (mem_stems hr) (mem_stems hr') heq
        have := hle stem
        omega

end Names

end EvmAudit
