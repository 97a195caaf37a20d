import Mathlib
import EvmAudit.Source.Map
import EvmAudit.Proofs.Numeral
import EvmAudit.Proofs.Text

/-! Lines of a source text: which line and column an offset has, and the text that is shown as the
line behind a range. -/

namespace EvmAudit

variable {cs : List Char} {k n : Nat}

/-! ### The offsets of the breaks -/

theorem offsetsOf_eq (c : Char) (i : Nat) (cs : List Char) :
    offsetsOf c i cs = (cs.idxsOf c i).map Nat.cast := by
  induction cs generalizing i with
  | nil => rfl
  | cons d ds ih =>
    have hrest : offsetsOf c ((i : Int) + 1) ds = (ds.idxsOf c (i + 1)).map Nat.cast := by
      exact_mod_cast ih (i + 1)
    by_cases hd : d = c <;> simp [offsetsOf, hd, hrest]

/-- Where the breaks of a text are. -/
def breaksOf (cs : List Char) : List Int := offsetsOf '\n' 0 cs

theorem length_breaks (cs : List Char) : (breaksOf cs).length = cs.count '\n' := by
  rw [breaksOf, ← Nat.cast_zero, offsetsOf_eq, List.length_map, List.length_idxsOf]

theorem getElem?_breaks (h : k < cs.count '\n') :
    (breaksOf cs)[k]? = some (cs.idxOfNth '\n' k : Int) := by
  rw [breaksOf, ← Nat.cast_zero, offsetsOf_eq, List.getElem?_map,
    List.getElem?_eq_getElem (by simpa using h), List.getElem_idxOf_eq_idxOfNth]
  rfl

theorem break_of_mem (h : (n : Int) ∈ breaksOf cs) : cs[n]? = some '\n' := by
  rw [breaksOf, ← Nat.cast_zero, offsetsOf_eq] at h
  obtain ⟨i, hi, heq⟩ := List.mem_map.1 h
  obtain ⟨hlt, hbreak⟩ := List.mem_idxsOf_iff_exists_getElem_pos.1 hi
  rw [← Int.ofNat.inj heq, List.getElem?_eq_getElem hlt, eq_of_beq hbreak]

/-- The line of an offset: how many breaks stand before it. -/
def lineAt (cs : List Char) (n : Nat) : Nat := (cs.take n).count '\n'

theorem lineAt_eq_countBefore (cs : List Char) (n : Nat) : lineAt cs n = cs.countBefore '\n' n :=
  List.countBefore_eq_count_take.symm

theorem lineAt_le_count (cs : List Char) (n : Nat) : lineAt cs n ≤ cs.count '\n' :=
  (List.take_sublist n cs).count_le '\n'

theorem lineAt_mono (cs : List Char) {i j : Nat} (h : i ≤ j) : lineAt cs i ≤ lineAt cs j :=
  (List.take_sublist_take_left h).count_le '\n'

theorem lineAt_succ (cs : List Char) (n : Nat) :
    lineAt cs (n + 1) = lineAt cs n + if cs[n]? = some '\n' then 1 else 0 := by
  rw [lineAt, List.take_add_one, List.count_append, lineAt]
  cases cs[n]? <;> simp [List.count_singleton]

theorem idxOfNth_lt_iff (h : k < cs.count '\n') : cs.idxOfNth '\n' k < n ↔ k < lineAt cs n := by
  have hlt := List.idxOfNth_lt_length_of_lt_count h
  have hbreak : cs[cs.idxOfNth '\n' k]? = some '\n' := by
    rw [List.getElem?_eq_getElem hlt, List.getElem_idxOfNth_eq]
  have hat := (lineAt_eq_countBefore cs _).trans (List.countBefore_idxOfNth_of_lt_count h)
  have hbehind := lineAt_succ cs (cs.idxOfNth '\n' k)
  rw [if_pos hbreak, hat] at hbehind
  constructor
  · intro hn
    have := lineAt_mono cs (Nat.succ_le_of_lt hn)
    rw [Nat.succ_eq_add_one] at this
    omega
  · intro hk
    by_contra hn
    have := lineAt_mono cs (Nat.le_of_not_lt hn)
    omega

/-! ### The line of an offset -/

/-- The search ends behind the breaks up to the target. -/
theorem boundFrom_breaks (cs : List Char) (n : Nat) {start length : Nat}
    (hlow : start ≤ lineAt cs (n + 1)) (hhigh : lineAt cs (n + 1) ≤ start + length)
    (hin : start + length ≤ cs.count '\n') :
    boundFrom (breaksOf cs).toArray n start length = lineAt cs (n + 1) := by
  induction length using Nat.strong_induction_on generalizing start with
  | _ length ih =>
    rw [boundFrom]
    by_cases hzero : length = 0
    · rw [dif_pos hzero]
      omega
    have hmiddle : start + length / 2 < cs.count '\n' := by omega
    have hread : (breaksOf cs).toArray.getD (start + length / 2) 0 =
        cs.idxOfNth '\n' (start + length / 2) := by
      simp [Array.getD_eq_getD_getElem?, getElem?_breaks hmiddle]
    have hiff : ((cs.idxOfNth '\n' (start + length / 2) : Nat) : Int) ≤ n ↔
        start + length / 2 < lineAt cs (n + 1) := by
      rw [← idxOfNth_lt_iff hmiddle]
      omega
    simp only [hzero, dite_false, hread, hiff]
    split
    · exact ih _ (by omega) (by omega) (by omega) (by omega)
    · exact ih _ (by omega) (by omega) (by omega) (by omega)

theorem lowerBound_breaks (cs : List Char) (n : Nat) :
    lowerBound n (breaksOf cs) = (lineAt cs (n + 1) : Int) - 1 := by
  have hle := lineAt_le_count cs (n + 1)
  rw [lowerBound, boundFrom_breaks cs n (Nat.zero_le _) (by rw [length_breaks]; omega)
    (by rw [length_breaks]; omega)]

theorem itemAt_breaks (cs : List Char) (k : Nat) (h : k < cs.count '\n') :
    itemAt (breaksOf cs) k = .ok (cs.idxOfNth '\n' k : Int) := by
  rw [itemAt_natCast, getElem?_breaks h]
  rfl

/-- Counted from the end, the last break stands before the first one. -/
theorem itemAt_breaks_last (h : '\n' ∈ cs) :
    itemAt (breaksOf cs) (-1) = .ok (cs.idxOfNth '\n' (cs.count '\n' - 1) : Int) := by
  have hpos : 0 < cs.count '\n' := List.count_pos_iff.2 h
  have hindex : (if (-1 : Int) < 0 then -1 + (cs.count '\n' : Int) else -1) =
      ((cs.count '\n' - 1 : Nat) : Int) := by
    rw [if_pos (by decide)]
    omega
  rw [itemAt, length_breaks, hindex, Int.toNat_natCast, getElem?_breaks (by omega)]
  simp only [if_neg (show ¬ ((cs.count '\n' - 1 : Nat) : Int) < 0 by omega)]

theorem mem_of_itemAt {α : Type} {xs : List α} {i : Int} {x : α} (h : itemAt xs i = .ok x) :
    x ∈ xs := by
  simp only [itemAt] at h
  generalize (if i < 0 then i + (xs.length : Int) else i) = j at h
  by_cases hneg : j < 0
  · simp [hneg] at h
  · rw [if_neg hneg] at h
    cases hx : xs[j.toNat]? with
    | none => simp [hx] at h
    | some y =>
      simp only [hx, Except.ok.injEq] at h
      exact h ▸ List.mem_of_getElem? hx

/-- The entry that the search ends at tells whether the offset is itself a break. -/
theorem exists_bound (h : '\n' ∈ cs) (n : Nat) :
    ∃ b, itemAt (breaksOf cs) ((lineAt cs (n + 1) : Int) - 1) = .ok b ∧
    (b = n ↔ cs[n]? = some '\n') := by
  have hle := lineAt_le_count cs (n + 1)
  have hsucc := lineAt_succ cs n
  by_cases hbreak : cs[n]? = some '\n'
  · rw [if_pos hbreak] at hsucc
    have hitem := itemAt_breaks cs (lineAt cs n) (by omega)
    obtain ⟨hlt, heq⟩ := List.getElem?_eq_some_iff.1 hbreak
    have hindex : cs.idxOfNth '\n' (lineAt cs n) = n := by
      rw [lineAt_eq_countBefore]
      exact List.idxOfNth_countBefore_of_lt_length_of_beq (h := hlt) (by simp [heq])
    rw [hindex] at hitem
    rw [hsucc]
    exact ⟨n, by simpa using hitem, by simp [hbreak]⟩
  · have hexists : ∃ b, itemAt (breaksOf cs) ((lineAt cs (n + 1) : Int) - 1) = .ok b := by
      cases hk : lineAt cs (n + 1) with
      | zero => exact ⟨_, itemAt_breaks_last h⟩
      | succ k => exact ⟨_, by simpa using itemAt_breaks cs k (by omega)⟩
    obtain ⟨b, hb⟩ := hexists
    refine ⟨b, hb, ?_⟩
    have hne : b ≠ n := by
      rintro rfl
      exact hbreak (break_of_mem (mem_of_itemAt hb))
    simp [hne, hbreak]

/-- The offset at which a line starts: a line but the first starts behind a break. -/
def lineStart (cs : List Char) : Nat → Nat
  | 0 => 0
  | k + 1 => cs.idxOfNth '\n' k + 1

theorem lineStart_lineAt_le (cs : List Char) (n : Nat) : lineStart cs (lineAt cs n) ≤ n := by
  have hle := lineAt_le_count cs n
  cases hk : lineAt cs n with
  | zero => exact Nat.zero_le n
  | succ k => exact (idxOfNth_lt_iff (by omega)).2 (by omega)

namespace SourceText

variable {content : String}

theorem locate_of_break (h : '\n' ∈ content.toList) (n : Nat) :
    (ofContent content).locate n =
      .ok ⟨lineAt content.toList n, n - lineStart content.toList (lineAt content.toList n)⟩ := by
  have hbreaks : (ofContent content).breaks = breaksOf content.toList := rfl
  generalize content.toList = cs at h hbreaks ⊢
  have hle := lineAt_le_count cs n
  obtain ⟨b, hb, hiff⟩ := exists_bound h n
  have hline : (if b = n then (lineAt cs (n + 1) : Int) - 1
      else (lineAt cs (n + 1) : Int) - 1 + 1) = lineAt cs n := by
    simp only [hiff, lineAt_succ cs n]
    split <;> push_cast <;> ring
  simp only [locate, hbreaks, lowerBound_breaks, hb, bind, Except.bind, pure, Except.pure, hline]
  cases hk : lineAt cs n with
  | zero => simp [lineStart]
  | succ k =>
    have hitem := itemAt_breaks cs k (by omega)
    rw [if_neg (by omega), show ((k + 1 : Nat) : Int) - 1 = k by omega, hitem]
    rfl

theorem locate_of_no_break (h : '\n' ∉ content.toList) (offset : Int) :
    (ofContent content).locate offset = .error .missingItem := by
  have hnil : (ofContent content).breaks = [] := by
    rw [← List.length_eq_zero_iff]
    exact (length_breaks _).trans (List.count_eq_zero.2 h)
  simp [locate, hnil, itemAt, bind, Except.bind]

/-- The location of an offset is its line, which is how many breaks stand before it, and its
distance from the start of that line. Only a text without any break has no locations. -/
theorem locate_ofContent (content : String) (offset : Nat) :
    ((ofContent content).locate offset = .error .missingItem ↔ '\n' ∉ content.toList) ∧
    ('\n' ∈ content.toList →
      (∃ line column : Nat, (ofContent content).locate offset = .ok ⟨line, column⟩ ∧
        line = (content.toList.take offset).count '\n' ∧
        lineStart content.toList line + column = offset) ∧
      ∀ (next : Nat) (l l' : Location), offset < next →
        (ofContent content).locate offset = .ok l → (ofContent content).locate next = .ok l' →
        l.line < l'.line ∨ l.line = l'.line ∧ l.column < l'.column) := by
  constructor
  · constructor
    · intro herror hbreak
      rw [locate_of_break hbreak] at herror
      cases herror
    · exact fun h => locate_of_no_break h offset
  intro hbreak
  have hle := lineStart_lineAt_le content.toList offset
  constructor
  · refine ⟨lineAt content.toList offset, _, ?_, rfl, Nat.add_sub_of_le hle⟩
    rw [locate_of_break hbreak, Nat.cast_sub hle]
  · intro next l l' hlt hl hl'
    rw [locate_of_break hbreak] at hl hl'
    cases hl
    cases hl'
    rcases Nat.eq_or_lt_of_le (lineAt_mono content.toList hlt.le) with heq | hless
    · refine .inr ⟨by rw [heq], ?_⟩
      rw [heq]
      dsimp only
      omega
    · exact .inl (Int.ofNat_lt.2 hless)

theorem locate_ofContent_break :
    '\n' ∈ "a\nb".toList ∧ ∃ line column : Nat, (ofContent "a\nb").locate 1 = .ok ⟨line, column⟩ ∧
      line = 0 ∧ lineStart "a\nb".toList line + column = 1 :=
  ⟨by decide, ((locate_ofContent "a\nb" 1).2 (by decide)).1⟩

end SourceText

/-! ### The line that is shown -/

variable {content : String} {s l : Nat}

def textBetween (content : String) (start stop : Nat) : String :=
  String.ofList ((content.toList.take stop).drop start)

/-- The text of a range, with what stands before it in its line. -/
def lineText (content : String) (start stop : Nat) : String :=
  textBetween content (lineStart content.toList (lineAt content.toList start)) stop

/-- Before the first line stands the last break, so that the last line begins what is shown for the
first. -/
def shownStart (cs : List Char) (offset : Nat) : Nat :=
  lineStart cs (if lineAt cs offset = 0 then cs.count '\n' else lineAt cs offset)

theorem slice_eq_textBetween {i j : Nat} (hi : i ≤ content.length) (hj : j ≤ content.length) :
    Text.slice content i j = textBetween content i j := by
  rw [← String.length_toList] at hi hj
  rw [Text.slice, Text.sliceList, Text.clampIndex, Text.clampIndex, if_neg (by omega),
    if_neg (by omega), textBetween, Int.toNat_natCast, Int.toNat_natCast, min_eq_left hi,
    min_eq_left hj]

theorem length_textBetween {i j : Nat} (hj : j ≤ content.length) :
    (textBetween content i j).length = j - i := by
  rw [← String.length_toList] at hj
  rw [textBetween, ← String.length_toList, String.toList_ofList, List.length_drop, List.length_take,
    min_eq_left hj]

theorem itemAt_shownStart (h : '\n' ∈ cs) (n : Nat) :
    shownStart cs n ≤ cs.length ∧
      itemAt (breaksOf cs) ((lineAt cs n : Int) - 1) = .ok ((shownStart cs n : Int) - 1) := by
  have hpos : 0 < cs.count '\n' := List.count_pos_iff.2 h
  have hle := lineAt_le_count cs n
  rw [shownStart]
  cases hk : lineAt cs n with
  | zero =>
    obtain ⟨k, hcount⟩ : ∃ k, cs.count '\n' = k + 1 := ⟨cs.count '\n' - 1, by omega⟩
    have hlast := itemAt_breaks_last h
    rw [hcount, Nat.add_sub_cancel] at hlast
    rw [if_pos rfl, hcount, lineStart]
    exact ⟨List.idxOfNth_lt_length_of_lt_count (by omega), by simpa using hlast⟩
  | succ k =>
    rw [if_neg (Nat.succ_ne_zero k), lineStart]
    exact ⟨List.idxOfNth_lt_length_of_lt_count
      (by omega), by simpa using itemAt_breaks cs k (by omega)⟩

theorem SourceText.lineOf_spanOf (h : '\n' ∈ content.toList) {start stop : Nat}
    (hle : start ≤ stop + 1) (hstop : stop ≤ content.length) :
    ((ofContent content).spanOf start stop >>= fun span => (ofContent content).lineOf span stop) =
      .ok (textBetween content (shownStart content.toList start) stop) := by
  obtain ⟨hshown, hitem⟩ := itemAt_shownStart h start
  rw [String.length_toList] at hshown
  rw [← slice_eq_textBetween hshown hstop, spanOf, if_pos (by omega), locate_of_break h,
    locate_of_break h]
  change (itemAt (breaksOf content.toList) _ >>= fun b =>
    Except.ok (Text.slice content (b + 1) stop)) = _
  rw [hitem]
  simp [bind, Except.bind]

theorem sourceRange_written (hs : (Nat.toDigits 10 s).length ≤ Numeral.decimalLimit)
    (hl : (Nat.toDigits 10 l).length ≤ Numeral.decimalLimit) (file : String) :
    sourceRange (Nat.repr s ++ ":" ++ Nat.repr l ++ ":" ++ file) = .ok (s, l) := by
  have hcolon (n : Nat) : ':' ∉ (Nat.repr n).toList := by
    rw [Nat.repr, String.toList_ofList]
    exact fun h => absurd (Numeral.isDigit_of_mem_toDigits h) (by decide)
  have htext : (Nat.repr s ++ ":" ++ Nat.repr l ++ ":" ++ file).toList =
      (Nat.repr s).toList ++ ':' :: ((Nat.repr l).toList ++ ':' :: file.toList) := by simp
  have hparts : Text.splitAt ':' (Nat.repr s ++ ":" ++ Nat.repr l ++ ":" ++ file) =
      Nat.repr s :: Nat.repr l :: Text.splitAt ':' file := by
    rw [Text.splitAt, htext, Text.cutAt_append (hcolon s), Text.cutAt_append (hcolon l)]
    simp only [List.map_cons, String.ofList_toList, Text.splitAt]
  simp only [sourceRange, hparts, List.getElem?_cons_zero, List.getElem?_cons_succ,
    Numeral.read_repr hs, Numeral.read_repr hl]
  rfl

theorem textBetween_ne_lineText (hl : 1 ≤ l) (hin : s + l ≤ content.length) :
    textBetween content (shownStart content.toList s) (s + l - 1) ≠ lineText content s (s + l) := by
  intro heq
  have hlength := congrArg String.length heq
  have hstart := lineStart_lineAt_le content.toList s
  rw [lineText, length_textBetween (by omega), length_textBetween hin, shownStart] at hlength
  split at hlength
  next hfirst =>
    rw [hfirst, lineStart] at hlength
    omega
  · omega

theorem textBetween_eq_lineText_iff (hbreak : '\n' ∈ content.toList) (hl : 1 ≤ l)
    (hin : s + l ≤ content.length) : textBetween content (shownStart content.toList s) (s + l) =
      lineText content s (s + l) ↔ lineAt content.toList s ≠ 0 := by
  rw [lineText, shownStart]
  constructor
  · intro heq hfirst
    have hlength := congrArg String.length heq
    obtain ⟨k, hcount⟩ : ∃ k, content.toList.count '\n' = k + 1 :=
      Nat.exists_eq_add_one.2 (List.count_pos_iff.2 hbreak)
    rw [length_textBetween hin, length_textBetween hin, if_pos hfirst, hfirst, hcount, lineStart,
      lineStart] at hlength
    omega
  · intro hlater
    rw [if_neg hlater]

namespace SourceMap

variable {m : SourceMap}

theorem faultyLine_eq (htext : m.text = .ofContent content) (hbreak : '\n' ∈ content.toList)
    (hin : s + l ≤ content.length) {pc : Int} {item : SourceItem}
    (hitem : m.items.get? pc = some item)
    (hrange : item.range = .ok ((s : Int), ((s + l : Nat) : Int))) :
    m.faultyLine pc = .ok (textBetween content (shownStart content.toList s) (s + l)) := by
  simp only [faultyLine, location, hitem, hrange, htext]
  exact SourceText.lineOf_spanOf hbreak (by omega) hin

theorem faultyLineAt_eq (htext : m.text = .ofContent content) (hbreak : '\n' ∈ content.toList)
    (hl : 1 ≤ l) (hin : s + l ≤ content.length) {src : String}
    (hsrc : sourceRange src = .ok (s, l)) :
    m.faultyLineAt src = .ok (textBetween content (shownStart content.toList s) (s + l - 1)) := by
  have hrange : rangeAt src = .ok ((s : Int), ((s + l - 1 : Nat) : Int)) := by
    rw [rangeAt, hsrc, show ((s + l - 1 : Nat) : Int) = s + l - 1 by omega]
    rfl
  simp only [faultyLineAt, locationAt, hrange, htext]
  exact SourceText.lineOf_spanOf hbreak (by omega) (by omega)

/-- What is shown for a range is the text from the start of its line only where the range starts
behind the first line, and then only for an instruction: a reference loses the last character. -/
theorem faultyLine_right_iff (m : SourceMap) (content : String) (s l : Nat) (file : String)
    (pc : Int) (item : SourceItem) (htext : m.text = .ofContent content)
    (hbreak : '\n' ∈ content.toList) (hl : 1 ≤ l) (hin : s + l ≤ content.length)
    (hitem : m.items.get? pc = some item)
    (hrange : item.range = .ok ((s : Int), ((s + l : Nat) : Int)))
    (hs : (Nat.toDigits 10 s).length ≤ Numeral.decimalLimit)
    (hlong : (Nat.toDigits 10 l).length ≤ Numeral.decimalLimit) :
    m.faultyLine pc = .ok (textBetween content (shownStart content.toList s) (s + l)) ∧
    m.faultyLineAt (Nat.repr s ++ ":" ++ Nat.repr l ++ ":" ++ file) =
      .ok (textBetween content (shownStart content.toList s) (s + l - 1)) ∧
    (m.faultyLine pc = .ok (lineText content s (s + l)) ↔ lineAt content.toList s ≠ 0) ∧
    m.faultyLineAt (Nat.repr s ++ ":" ++ Nat.repr l ++ ":" ++ file) ≠
      .ok (lineText content s (s + l)) := by
  have hline := faultyLine_eq htext hbreak hin hitem hrange
  have hlineAt := faultyLineAt_eq htext hbreak hl hin (sourceRange_written hs hlong file)
  refine ⟨hline, hlineAt, ?_, ?_⟩
  · rw [hline, Except.ok.injEq]
    exact textBetween_eq_lineText_iff hbreak hl hin
  · rw [hlineAt, ne_eq, Except.ok.injEq]
    exact textBetween_ne_lineText hl hin

/-- A text with one item, the instruction at zero. -/
def ofItem (content : String) (start stop : Int) : SourceMap :=
  { (default : SourceMap) with
    text := .ofContent content
    items := ({} : Table Int SourceItem).insert 0 ⟨none, none, some start, some stop, ""⟩ }

theorem faultyLine_right_iff_second_line :
    (ofItem "ab\ncd\n" 4 5).faultyLine 0 = .ok "cd" ∧
      (ofItem "ab\ncd\n" 4 5).faultyLineAt "4:1:0" = .ok "c" := by
  obtain ⟨hline, hlineAt, -⟩ :=
    faultyLine_right_iff (ofItem "ab\ncd\n" 4 5) "ab\ncd\n" 4 1 "0" 0 _ rfl
    (by decide) (by decide) (by decide) rfl rfl (by decide) (by decide)
  exact ⟨hline, hlineAt⟩

/-- On the first line what is shown is cut off at the start of the last. -/
theorem faultyLine_first_line :
    (ofItem "ab\n" 0 1).faultyLine 0 = .ok "" ∧ (ofItem "ab\n" 0 1).faultyLineAt "0:1:0" = .ok "" ∧
      lineText "ab\n" 0 1 = "a" := by
  have hbreak : '\n' ∈ "ab\n".toList := by decide
  refine ⟨?_, ?_, by decide⟩
  · exact faultyLine_eq (s := 0) (l := 1) rfl hbreak (by decide) rfl rfl
  · exact faultyLineAt_eq rfl hbreak (by decide) (by decide)
      (sourceRange_written (s := 0) (l := 1) (by decide) (by decide) "0")

end SourceMap

end EvmAudit
