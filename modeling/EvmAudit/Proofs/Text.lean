import Mathlib
import EvmAudit.Text.Blank

/-! What replacing, cutting and dividing into lines do to a text whose pieces are known. -/

namespace EvmAudit.Text

variable {old new cs : List Char}
variable {front start : List Char} {c : Char} {rows : List (List Char)}

theorem dropStart?_eq_some {rest : List Char} : dropStart? start cs = some rest ↔
    cs = start ++ rest := by
  induction start generalizing cs with
  | nil => simp [dropStart?]
  | cons p ps ih =>
    cases cs with
    | nil => simp [dropStart?]
    | cons c cs =>
      by_cases h : p = c
      · simp [dropStart?, h, ih]
      · simp [dropStart?, h, Ne.symm h]

theorem isSome_dropStart? : (dropStart? start cs).isSome = true ↔ start <+: cs := by
  rw [Option.isSome_iff_exists]
  exact exists_congr fun rest => dropStart?_eq_some.trans eq_comm

/-! ### Replacing -/

theorem not_infix_of_not_mem (hold : c ∈ old) (h : c ∉ cs) : ¬ old <:+: cs :=
  fun hinside => h (hinside.subset hold)

theorem not_infix_append_cons (hc : c ∉ old) (hfront : ¬ old <:+: front)
    (hrest : ¬ old <:+: c :: cs) : ¬ old <:+: front ++ c :: cs := by
  rw [List.infix_append_iff]
  rintro (hinside | hinside | ⟨l₁, l₂, rfl, hends, hbegins⟩)
  · exact hfront hinside
  · exact hrest hinside
  · cases l₂ with
    | nil => exact hfront (by simpa using hends.isInfix)
    | cons d l₂ =>
      obtain ⟨rfl, -⟩ := List.cons_prefix_cons.1 hbegins
      exact hc (List.mem_append_right _ List.mem_cons_self)

theorem replaceFrom_of_absent (h : ¬ old <:+: cs) : replaceFrom old new 0 cs = cs := by
  induction cs with
  | nil => rfl
  | cons c cs ih =>
    rw [List.infix_cons_iff, not_or, ← isSome_dropStart?, Bool.not_eq_true] at h
    rw [replaceFrom, h.1, ih h.2]
    simp

theorem replaceFrom_append (h : c ∉ front) :
    replaceFrom (c :: old) new 0 (front ++ cs) = front ++ replaceFrom (c :: old) new 0 cs := by
  induction front with
  | nil => rfl
  | cons d front ih =>
    rw [List.mem_cons, not_or] at h
    simp [replaceFrom, dropStart?, h.1, ih h.2]

theorem replaceFrom_skip (skip : Nat) :
    replaceFrom old new skip cs = replaceFrom old new 0 (cs.drop skip) := by
  induction cs generalizing skip with
  | nil => simp [replaceFrom]
  | cons c cs ih =>
    cases skip with
    | zero => rfl
    | succ skip => rw [replaceFrom, ih, List.drop_succ_cons]

theorem replaceFrom_self (h : old ≠ []) :
    replaceFrom old new 0 (old ++ cs) = new ++ replaceFrom old new 0 cs := by
  obtain ⟨c, rest, rfl⟩ := List.exists_cons_of_ne_nil h
  have hstart : (dropStart? (c :: rest) (c :: (rest ++ cs))).isSome = true :=
    isSome_dropStart?.2 ⟨cs, rfl⟩
  rw [List.cons_append, replaceFrom, hstart, replaceFrom_skip]
  simp

theorem replaceFrom_char (c : Char) : replaceFrom [c] [] 0 cs = cs.filter (· ≠ c) := by
  induction cs with
  | nil => rfl
  | cons d cs ih =>
    by_cases h : c = d
    · subst h
      simp [replaceFrom, dropStart?, ih]
    · simp [replaceFrom, dropStart?, h, Ne.symm h, ih]

/-! ### Cutting -/

theorem cutAt_of_not_mem {sep : Char} (h : sep ∉ cs) : cutAt sep cs = [cs] := by
  induction cs with
  | nil => rfl
  | cons c cs ih =>
    rw [List.mem_cons, not_or] at h
    simp [cutAt, ih h.2, Ne.symm h.1]

theorem cutAt_append {sep : Char} (h : sep ∉ cs) (rest : List Char) :
    cutAt sep (cs ++ sep :: rest) = cs :: cutAt sep rest := by
  induction cs with
  | nil => simp [cutAt]
  | cons c cs ih =>
    rw [List.mem_cons, not_or] at h
    simp [cutAt, ih h.2, Ne.symm h.1]

theorem head?_cutAt (sep : Char) : (cutAt sep cs).head? = some (cs.takeWhile (· ≠ sep)) := by
  induction cs with
  | nil => rfl
  | cons c cs ih =>
    rw [cutAt]
    by_cases hc : c = sep
    · simp [hc]
    · rw [if_neg hc, List.takeWhile_cons_of_pos (by simpa using hc)]
      cases hcut : cutAt sep cs with
      | nil => simp [hcut] at ih
      | cons piece rest =>
        rw [hcut, List.head?_cons, Option.some_inj] at ih
        simp [ih]

theorem strip_of_not_mem {p : Char → Bool} (h : ∀ c ∈ cs, p c = false) (ends : List Char)
    (hends : ∀ c ∈ ends, p c = true) : strip p (String.ofList (cs ++ ends)) = String.ofList cs := by
  have hdrop : ∀ ds : List Char, (∀ c ∈ ds, p c = false) → ds.dropWhile p = ds := by
    intro ds hds
    cases ds with
    | nil => rfl
    | cons d ds => exact List.dropWhile_cons_of_neg (by simp [hds d])
  have hall : ends.reverse.dropWhile p = [] := by
    rw [List.dropWhile_eq_nil_iff]
    exact fun c hc => hends c (List.mem_reverse.1 hc)
  rw [strip, String.toList_ofList, dropEndWhile]
  cases cs with
  | nil =>
    have hnone : ends.dropWhile p = [] := List.dropWhile_eq_nil_iff.2 hends
    simp [hnone]
  | cons c cs =>
    rw [List.cons_append, List.dropWhile_cons_of_neg (by simp [h c]), ← List.cons_append,
      List.reverse_append, List.dropWhile_append, hall, List.isEmpty_nil, if_pos rfl,
      hdrop _ fun d hd => h d (List.mem_reverse.1 hd), List.reverse_reverse]

/-! ### Lines -/

theorem unifyBreaks_of_not_mem (h : '\r' ∉ cs) : unifyBreaks cs = cs := by
  induction cs with
  | nil => rfl
  | cons c cs ih =>
    rw [List.mem_cons, not_or] at h
    rw [unifyBreaks, ih h.2]
    · exact fun _ hc => absurd hc.symm h.1
    · exact fun hc => absurd hc.symm h.1

theorem linesFrom_append (h : '\n' ∉ cs) (run rest : List Char) :
    linesFrom run (cs ++ '\n' :: rest) = (run.reverse ++ (cs ++ ['\n'])) :: linesFrom [] rest := by
  induction cs generalizing run with
  | nil => simp [linesFrom]
  | cons c cs ih =>
    rw [List.mem_cons, not_or] at h
    simp [linesFrom, Ne.symm h.1, ih h.2]

theorem lines_flatMap (h : ∀ r ∈ rows, '\n' ∉ r ∧ '\r' ∉ r) :
    lines (String.ofList (rows.flatMap (· ++ ['\n']))) = rows.map fun r =>
      String.ofList (r ++ ['\n']) := by
  have hbreaks : '\r' ∉ rows.flatMap (· ++ ['\n']) := by
    intro hmem
    obtain ⟨r, hr, hmem⟩ := List.mem_flatMap.1 hmem
    rcases List.mem_append.1 hmem with hmem | hmem
    · exact (h r hr).2 hmem
    · cases List.mem_singleton.1 hmem
  have hlines : linesFrom [] (rows.flatMap (· ++ ['\n'])) = rows.map (· ++ ['\n']) := by
    clear hbreaks
    induction rows with
    | nil => rfl
    | cons r rows ih =>
      rw [List.flatMap_cons, List.append_assoc, List.singleton_append,
        linesFrom_append (h r List.mem_cons_self).1, ih fun r hr => h r (List.mem_cons_of_mem _ hr)]
      rfl
  rw [lines, String.toList_ofList, unifyBreaks_of_not_mem hbreaks, hlines, List.map_map]
  rfl

theorem intercalate_break (h : rows ≠ []) :
    ['\n'].intercalate rows ++ ['\n'] = rows.flatMap (· ++ ['\n']) := by
  induction rows with
  | nil => exact absurd rfl h
  | cons r rows ih =>
    cases rows with
    | nil => simp
    | cons r' rows =>
      rw [List.intercalate_cons_cons, List.append_assoc, ih (List.cons_ne_nil _ _)]
      rfl

end EvmAudit.Text
