import Mathlib.Data.List.Nodup
import EvmAudit.Table

/-! Laws of tables: what is found after an insertion, and the keys. -/

namespace EvmAudit.Table

variable {κ ν : Type} [DecidableEq κ]
variable {t : Table κ ν} {k : κ}

theorem get?_insert (t : Table κ ν) (k k' : κ) (v : ν) :
    (t.insert k v).get? k' = if k' = k then some v else t.get? k' := by
  split
  next h =>
    rw [h, get?_insert_self]
  next h =>
    exact get?_insert_of_ne h t v

theorem contains_insert (t : Table κ ν) (k k' : κ) (v : ν) :
    (t.insert k v).contains k' = (decide (k' = k) || t.contains k') := by
  by_cases h : k' = k <;> simp [contains, get?_insert, h]

theorem contains_iff : t.contains k = true ↔ ∃ v, t.get? k = some v :=
  Option.isSome_iff_exists

theorem find?_isSome_iff {es : List (κ × ν)} : (find? k es).isSome = true ↔
    k ∈ es.map Prod.fst := by
  induction es with
  | nil => simp [find?]
  | cons e es ih =>
    by_cases h : e.1 = k
    · simp [find?, h]
    · simp [find?, h, ih, Ne.symm h]

theorem mem_keys : k ∈ t.keys ↔ t.contains k = true :=
  find?_isSome_iff.symm

theorem map_fst_put (k : κ) (v : ν) (es : List (κ × ν)) :
    (put k v es).map Prod.fst = if k ∈ es.map Prod.fst then es.map Prod.fst else es.map Prod.fst ++
      [k] := by
  induction es with
  | nil => simp [put]
  | cons e es ih =>
    by_cases h : e.1 = k
    · simp [put, h]
    · simp only [put, h, if_false, List.map_cons, ih, List.mem_cons, Ne.symm h, false_or]
      split <;> simp

theorem keys_insert (t : Table κ ν) (k : κ) (v : ν) :
    (t.insert k v).keys = if t.contains k then t.keys else t.keys ++ [k] := by
  rw [keys, insert, map_fst_put]
  simp only [← mem_keys]
  rfl

theorem nodup_keys_insert (h : t.keys.Nodup) (k : κ) (v : ν) : (t.insert k v).keys.Nodup := by
  rw [keys_insert]
  split
  · exact h
  next hk =>
    rw [← mem_keys] at hk
    exact List.Nodup.append h (List.nodup_singleton k) (by simpa using hk)

theorem get?_of_mem (h : t.keys.Nodup) {v : ν} (hm : (k, v) ∈ t.entries) : t.get? k = some v := by
  obtain ⟨es⟩ := t
  rw [get?]
  induction es with
  | nil => simp at hm
  | cons e es ih =>
    obtain ⟨hnot, hnodup⟩ := List.nodup_cons.1 h
    rcases List.mem_cons.1 hm with rfl | hm
    · simp [find?]
    · have hne : e.1 ≠ k := by
        rintro rfl
        exact hnot (List.mem_map.2 ⟨_, hm, rfl⟩)
      simpa [find?, hne] using ih hnodup hm

theorem mem_of_get? {v : ν} (h : t.get? k = some v) : (k, v) ∈ t.entries := by
  obtain ⟨es⟩ := t
  rw [get?] at h
  induction es with
  | nil => simp [find?] at h
  | cons e es ih =>
    by_cases he : e.1 = k
    · simp only [find?, he, if_true, Option.some.injEq] at h
      simp [← he, ← h]
    · simp only [find?, he, if_false] at h
      exact List.mem_cons_of_mem e (ih h)

end EvmAudit.Table
