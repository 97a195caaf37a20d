import EvmAudit.Proofs.Machine.Outcome

/-! Scopes of the solver. A computation may add assertions to the innermost scope and leave scopes
open inside it. How many it leaves open adds up when computations follow each other. -/

namespace EvmAudit

namespace Solver

variable {outer : List (List Formula)}

def frames (s : Solver) : List (List Formula) := s.scopes ++ [s.base]

/-- On the way from `s` to `t` the innermost scope gains assertions, and `n` scopes are left open
inside it. -/
def Left (n : Nat) (s t : Solver) : Prop :=
  ∃ inner new first outer, inner.length = n ∧ s.frames = first :: outer ∧
    t.frames = inner ++ (new ++ first) :: outer

variable {m n : Nat} {s t u : Solver}

theorem exists_frames (s : Solver) : ∃ first outer, s.frames = first :: outer := by
  cases h : s.scopes with
  | nil => exact ⟨s.base, [], by rw [frames, h]; rfl⟩
  | cons scope rest => exact ⟨scope, rest ++ [s.base], by rw [frames, h]; rfl⟩

theorem length_frames (s : Solver) : s.frames.length = s.depth + 1 := by
  simp [frames, depth]

theorem assertions_eq (s : Solver) : s.assertions = s.frames.reverse.flatMap List.reverse := by
  simp [assertions, frames]

theorem assertions_congr (h : s.frames = t.frames) : s.assertions = t.assertions := by
  rw [assertions_eq, assertions_eq, h]

theorem depth_congr (h : s.frames = t.frames) : s.depth = t.depth := by
  have hs := length_frames s
  have ht := length_frames t
  rw [h] at hs
  omega

theorem frames_push (s : Solver) : s.push.frames = [] :: s.frames := rfl

theorem frames_add (f : Formula) {first : List Formula}
    (h : s.frames = first :: outer) : (s.add f).frames = (f :: first) :: outer := by
  unfold add
  cases hs : s.scopes with
  | nil =>
    rw [frames, hs] at h
    cases h
    rfl
  | cons scope rest =>
    rw [frames, hs] at h
    cases h
    simp [frames]

theorem pop?_of_frames {first second : List Formula}
    (h : s.frames = first :: second :: outer) :
    ∃ t, s.pop? = some t ∧ t.frames = second :: outer := by
  unfold pop?
  cases hs : s.scopes with
  | nil =>
    rw [frames, hs] at h
    cases h
  | cons scope rest =>
    rw [frames, hs, List.cons_append] at h
    exact ⟨_, rfl, (List.cons.inj h).2⟩

theorem Left.refl (s : Solver) : Left 0 s s := by
  obtain ⟨first, outer, h⟩ := exists_frames s
  exact ⟨[], [], first, outer, rfl, h, h⟩

theorem Left.of_frames (h : s.frames = t.frames) : Left 0 s t := by
  obtain ⟨first, outer, hs⟩ := exists_frames s
  exact ⟨[], [], first, outer, rfl, hs, h ▸ hs⟩

theorem Left.of_inner {inner : List (List Formula)} (h : t.frames = inner ++ s.frames) :
    Left inner.length s t := by
  obtain ⟨first, outer, hs⟩ := exists_frames s
  exact ⟨inner, [], first, outer, rfl, hs, by rw [h, hs]; rfl⟩

theorem Left.push (s : Solver) : Left 1 s s.push := by
  have h : s.push.frames = [[]] ++ s.frames := frames_push s
  exact Left.of_inner h

theorem Left.add (f : Formula) (s : Solver) : Left 0 s (s.add f) := by
  obtain ⟨first, outer, h⟩ := exists_frames s
  exact ⟨[], [f], first, outer, rfl, h, frames_add f h⟩

theorem Left.trans (h : Left m s t) (h' : Left n t u) : Left (m + n) s u := by
  obtain ⟨inner, new, first, outer, hm, hs, ht⟩ := h
  obtain ⟨inner', new', first', outer', hn, ht', hu⟩ := h'
  rw [ht] at ht'
  cases inner with
  | nil =>
    obtain ⟨rfl, rfl⟩ := List.cons.inj ht'
    exact ⟨inner', new' ++ new, first, outer, by simpa [← hm] using hn, hs, by simpa using hu⟩
  | cons i is =>
    obtain ⟨rfl, rfl⟩ := List.cons.inj ht'
    refine ⟨inner' ++ (new' ++ i) :: is, new, first, outer, ?_, hs, by simpa using hu⟩
    simp only [List.length_append, List.length_cons] at hm ⊢
    omega

theorem Left.depth (h : Left n s t) : t.depth = s.depth + n := by
  obtain ⟨inner, new, first, outer, hn, hs, ht⟩ := h
  have hs' := congrArg List.length hs
  have ht' := congrArg List.length ht
  rw [length_frames] at hs' ht'
  simp only [List.length_append, List.length_cons] at hs' ht'
  omega

theorem Left.assertions_subset (h : Left n s t) : s.assertions ⊆ t.assertions := by
  obtain ⟨inner, new, first, outer, -, hs, ht⟩ := h
  rw [assertions_eq, assertions_eq, hs, ht]
  intro f hf
  simp only [List.mem_flatMap, List.mem_reverse, List.mem_cons, List.mem_append] at hf ⊢
  obtain ⟨l, rfl | hl, hf⟩ := hf
  · exact ⟨new ++ l, Or.inr (Or.inl rfl), List.mem_append_right _ hf⟩
  · exact ⟨l, Or.inr (Or.inr hl), hf⟩

theorem Left.close {f : Formula} (h : Left n (s.push.add f) t) :
    ∃ u, t.pop? = some u ∧ Left n s u ∧
    if n = 0 then u.frames = s.frames else f ∈ u.assertions := by
  obtain ⟨inner, new, first, outer, hn, hs, ht⟩ := h
  rw [frames_add f (frames_push s)] at hs
  cases hs
  cases inner with
  | nil =>
    obtain ⟨first, outer, hs⟩ := exists_frames s
    rw [hs] at ht
    obtain ⟨u, hu, hframes⟩ := pop?_of_frames ht
    rw [← hn]
    exact ⟨u, hu, .of_frames (hs.trans hframes.symm), hframes.trans hs.symm⟩
  | cons i is =>
    obtain ⟨second, rest, hrest⟩ : ∃ second rest, is ++ (new ++ [f]) :: s.frames =
        second :: rest := by
      cases is <;> exact ⟨_, _, rfl⟩
    rw [List.cons_append, hrest] at ht
    obtain ⟨u, hu, hframes⟩ := pop?_of_frames ht
    rw [← hrest] at hframes
    refine ⟨u, hu, ?_, ?_⟩
    · have hlen : (is ++ [new ++ [f]]).length = n := by simpa using hn
      rw [← hlen]
      exact Left.of_inner (hframes.trans (List.append_assoc _ [_] _).symm)
    · rw [if_neg (by rw [← hn]; exact Nat.succ_ne_zero _), assertions_eq, hframes]
      simp

end Solver

end EvmAudit
