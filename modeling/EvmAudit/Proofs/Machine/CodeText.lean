import EvmAudit.Input
import EvmAudit.Proofs.Machine.Operands
import EvmAudit.Proofs.Numeral
import EvmAudit.Proofs.Text
import EvmAudit.Proofs.Value.Numbers

/-! The code that instructions see, against the code that was stored: its last digit is cut off. -/

namespace EvmAudit

namespace Regex

variable {s : Array Char} {i fuel w : Nat} {r : Regex} {m : Match} {nonempty : Bool}

/-- The number of characters that a match has, if it is the same for all matches. -/
def Node.width? : Node → Option Nat
  | .empty => some 0
  | .oneOf _ _ => some 1
  | .seq a b => (a.width?).bind fun n => (b.width?).map (n + ·)
  | .repeated least most _ a => if most = some least then (a.width?).map (least * ·) else none
  | _ => none

theorem attempt_width {node : Node} {groups : Groups} {goal : Goal} {found : Nat × Groups}
    (hw : node.width? = some w) (h : attempt s fuel node i groups goal = some found) :
    ∃ groups', goal (i + w) groups' = some found := by
  induction fuel generalizing node w i groups goal with
  | zero => cases h
  | succ fuel ih =>
    cases node with
    | empty =>
      cases hw
      exact ⟨groups, h⟩
    | oneOf complement members =>
      cases hw
      rw [attempt] at h
      split at h
      · split at h
        · exact ⟨groups, h⟩
        · cases h
      · cases h
    | seq a b =>
      obtain ⟨wa, ha, hw⟩ := Option.bind_eq_some_iff.1 hw
      obtain ⟨wb, hb, rfl⟩ := Option.map_eq_some_iff.1 hw
      obtain ⟨groups₁, h₁⟩ := ih ha h
      obtain ⟨groups₂, h₂⟩ := ih hb h₁
      exact ⟨groups₂, by rwa [Nat.add_assoc] at h₂⟩
    | repeated least most greedy a =>
      rw [Node.width?] at hw
      split_ifs at hw with hmost
      obtain ⟨wa, ha, rfl⟩ := Option.map_eq_some_iff.1 hw
      subst hmost
      rw [attempt] at h
      cases least with
      | zero =>
        rw [Nat.zero_mul]
        cases greedy <;> simp at h
        · cases hgoal : goal i groups <;> rw [hgoal] at h <;> cases h
          exact ⟨groups, hgoal⟩
        · exact ⟨groups, h⟩
      | succ least =>
        simp only [Nat.succ_pos, if_true, Option.some.injEq, Nat.succ_ne_zero, if_false,
          false_and] at h
        obtain ⟨groups₁, h₁⟩ := ih ha h
        obtain ⟨groups₂, h₂⟩ := ih (w := least * wa) (by simp [Node.width?, ha]) h₁
        refine ⟨groups₂, ?_⟩
        rwa [Nat.add_assoc, Nat.add_comm wa, ← Nat.succ_mul] at h₂
    | _ => cases hw

/-- The width of a pattern that matches at the end only. -/
def tailWidth? (r : Regex) : Option Nat :=
  match r.node with
  | .seq a .finish => a.width?
  | _ => none

theorem matchAt_tail (hr : r.tailWidth? = some w) (h : r.matchAt s i nonempty = some m) :
    m.start = i ∧ m.stop = i + w ∧ atFinish s m.stop = true := by
  obtain ⟨node, count⟩ := r
  rw [tailWidth?] at hr
  dsimp only at hr
  split at hr
  next a =>
    obtain ⟨⟨j, groups⟩, ho, rfl⟩ := Option.map_eq_some_iff.1 h
    dsimp only at ho ⊢
    generalize hfuel : (Node.size _ + 2) * (s.size + 3) = fuel at ho
    rcases fuel with _ | fuel
    · cases ho
    obtain ⟨groups₁, h₁⟩ := attempt_width hr (by exact ho)
    rcases fuel with _ | fuel
    · cases h₁
    rw [attempt] at h₁
    split_ifs at h₁ with hfinish
    cases h₁
    exact ⟨rfl, rfl, hfinish⟩
  · cases hr

theorem searchFrom_tail (hr : r.tailWidth? = some w) (h : r.searchFrom s nonempty fuel i = some m) :
    i ≤ m.start ∧ m.stop = m.start + w ∧ atFinish s m.stop = true := by
  induction fuel generalizing i nonempty with
  | zero => cases h
  | succ fuel ih =>
    rw [searchFrom] at h
    split at h
    next found hfound =>
      cases h
      obtain ⟨hstart, hstop, hfinish⟩ := matchAt_tail hr hfound
      exact ⟨hstart.ge, hstart ▸ hstop, hfinish⟩
    · split at h
      · obtain ⟨hle, hrest⟩ := ih h
        exact ⟨by omega, hrest⟩
      · cases h

/-- Such a pattern is found once at most, and then at the end. -/
theorem matchesFrom_tail (hr : r.tailWidth? = some w) (hw : 0 < w)
    (hline : ∀ j, atFinish s j = true → j = s.size) (fuel i : Nat) (nonempty : Bool) :
    r.matchesFrom s fuel i nonempty = [] ∨
      ∃ m, r.matchesFrom s fuel i nonempty = [m] ∧ i ≤ m.start ∧ m.stop = s.size ∧
      m.start + w = s.size := by
  induction fuel generalizing i nonempty with
  | zero => exact .inl rfl
  | succ fuel ih =>
    rw [matchesFrom]
    split
    · exact .inl rfl
    next m hm =>
      obtain ⟨hstart, hstop, hend⟩ := searchFrom_tail hr hm
      have hsize := hline _ hend
      refine .inr ⟨m, ?_, hstart, hsize, by omega⟩
      rcases ih m.stop (m.start == m.stop) with hnone | ⟨m', -, hstart', hstop', hsize'⟩
      · rw [hnone]
      · omega

theorem tailWidth?_mark : (Regex.read Input.markPattern).toOption.bind tailWidth? = some 86 := by
  cbv

end Regex

theorem removeAll_tail {r : Regex} {w : Nat} {text : String} (hr : r.tailWidth? = some w)
    (hw : 0 < w) (hline : '\n' ∉ text.toList) :
    r.removeAll text = text ∨ w ≤ text.length ∧
    (r.removeAll text).toList = text.toList.take (text.length - w) := by
  have hfinish (j : Nat) (h : Regex.atFinish text.toList.toArray j = true) :
      j = text.toList.toArray.size := by
    simp only [Regex.atFinish, Bool.or_eq_true, beq_iff_eq, Bool.and_eq_true,
      List.getElem?_toArray] at h
    rcases h with h | ⟨-, hlast⟩
    · exact h
    · exact absurd (List.mem_of_getElem? hlast) hline
  rw [Regex.removeAll, Regex.allMatches]
  rcases Regex.matchesFrom_tail hr hw hfinish (2 * text.toList.toArray.size + 2) 0 false with
    hnone | ⟨m, hm, -, hstop, hstart⟩
  · rw [hnone]
    left
    rw [Regex.removeAll.go, Regex.piece]
    simp [List.take_of_length_le, String.length_toList]
  · rw [hm]
    right
    rw [Regex.removeAll.go, Regex.removeAll.go, Regex.piece, Regex.piece]
    rw [List.size_toArray, String.length_toList] at hstop hstart
    refine ⟨by omega, ?_⟩
    simp [hstop, ← hstart]

namespace Input

abbrev IsHex (code : String) : Prop := ∀ c ∈ code.toList, Listing.isHexadecimal c = true

/-- What is stored of a code is a code again. -/
theorem withoutMark_hex {code : String} (hhex : IsHex code) (heven : Even code.length) :
    ∃ stored, withoutMark code = .ok stored ∧ stored.toList <+: code.toList ∧
    Even stored.length := by
  obtain ⟨r, hread, hr⟩ := Option.bind_eq_some_iff.1 Regex.tailWidth?_mark
  have hmark : withoutMark code = .ok (r.removeAll code) := by
    rw [withoutMark]
    cases h : Regex.read markPattern with
    | error e => rw [h] at hread; cases hread
    | ok r' => rw [h] at hread; cases hread; rfl
  have hline : '\n' ∉ code.toList := fun h => absurd (hhex _ h) (by decide)
  refine ⟨_, hmark, ?_⟩
  rcases removeAll_tail hr (by decide) hline with hsame | ⟨hle, htake⟩
  · rw [hsame]
    exact ⟨List.prefix_rfl, heven⟩
  · rw [← String.length_toList, htake]
    refine ⟨ List.take_prefix _ _, ?_⟩
    rw [List.length_take, String.length_toList, Nat.min_eq_left (by omega), Nat.even_sub hle]
    exact ⟨fun _ => by decide, fun _ => heven⟩

end Input

namespace Numeral

variable {ds : List Char}

theorem valueFrom_dropLast (ds : List Char) :
    valueFrom 16 0 ds.dropLast = valueFrom 16 0 ds / 16 := by
  rcases List.eq_nil_or_concat ds with rfl | ⟨ds, d, rfl⟩
  · rfl
  · have := digitValue_lt (by decide : 0 < 16) d
    simp only [List.concat_eq_append, List.dropLast_concat, valueFrom, List.foldl_append,
      List.foldl_cons, List.foldl_nil]
    omega

theorem lower_ne_mark {c : Char} (h : Listing.isHexadecimal c = true) : c.toLower ≠ 'x' := by
  have hall : ∀ n < 128, Listing.isHexadecimal (Char.ofNat n) = true →
      (Char.ofNat n).toLower ≠ 'x' := by
    decide +kernel
  have hlt : c.toNat < 128 := by
    rcases toNat_of_isHexadecimal h with h | h | h
    · have := toNat_of_isDigit h
      omega
    · omega
    · omega
  have hc := hall c.toNat hlt
  rw [Char.ofNat_toNat] at hc
  exact hc h

theorem read_digits (hne : ds ≠ []) (h : ∀ d ∈ ds, Listing.isHexadecimal d = true) :
    read 16 (String.ofList ds) = some (valueFrom 16 0 ds : Int) := by
  have halnum (c : Char) (hc : c ∈ ds) : c.isAlphanum = true := isAlphanum_of_isHexadecimal (h c hc)
  have hmark : dropMark 16 ds = ds := by
    unfold dropMark
    split
    next m cs =>
      exact if_neg fun hm => lower_ne_mark (h m (by simp)) (Option.some.inj hm).symm
    · rfl
  have hmagnitude : magnitude 16 ds = some (valueFrom 16 0 ds) := by
    simp [magnitude, tooLong, hmark,
      digits_eq_some hne fun d hd => isDigitOf_of_isHexadecimal (h d hd)]
  rw [read_alphanum halnum, hmagnitude]
  rfl

end Numeral

namespace Exec

variable {ctx : Context} {code : String} {m : Machine}

theorem codeText_eq (hcode : ctx.code = some code) (hhex : Input.IsHex code) :
    (codeText ctx).outcome m = (.ok (String.ofList code.toList.dropLast), m) := by
  have hbreak : '\r' ∉ code.toList := fun h => absurd (hhex _ h) (by decide)
  rw [codeText, hcode]
  dsimp only
  rw [Text.unifyBreaks_of_not_mem hbreak, ← List.dropLast_eq_take]
  rfl

def digitsAt (code : String) (i n : Nat) : List Char := (code.toList.drop (2 * i)).take (2 * n)

/-- What is cut out of a code whose last digit is missing. -/
theorem slice_dropLast {i n : Nat} (h : 2 * (i + n) ≤ code.length) :
    Text.slice (String.ofList code.toList.dropLast) ((i : Int) * 2)
    ((i : Int) * 2 + (n : Int) * 2) =
      String.ofList (if 2 * (i + n) < code.length then digitsAt code i n else
        (digitsAt code i n).dropLast) := by
  have hclamp (k l : Nat) (j : Int) (hj : j = k) : Text.clampIndex l j = min k l := by
    subst hj
    simp [Text.clampIndex]
  rw [Text.slice, Text.sliceList, String.toList_ofList, hclamp (2 * i) _ _ (by omega),
    hclamp (2 * (i + n)) _ _ (by omega), digitsAt]
  congr 1
  simp only [List.dropLast_eq_take, List.length_take, List.length_drop, String.length_toList,
    List.take_take, List.drop_take]
  by_cases hsome : 2 * i < code.length
  · have hstart : min (2 * i) (min (code.length - 1) code.length) = 2 * i := by omega
    rw [hstart]
    split_ifs <;> congr 1 <;> omega
  · -- nothing is left to cut out
    obtain rfl : n = 0 := by omega
    simp

theorem codeNumber_zero (text : String) (i : Int) : codeNumber text i 0 = .error .badNumeral := by
  rw [codeNumber, Int.zero_mul, Int.add_zero, Text.slice, Text.sliceList, List.drop_take_self]
  rfl

theorem codeNumber_dropLast {i n : Nat} (hhex : Input.IsHex code) (hn : 0 < n)
    (h : 2 * (i + n) ≤ code.length) : codeNumber (String.ofList code.toList.dropLast) i n =
      .ok (if 2 * (i + n) < code.length then Numeral.valueFrom 16 0 (digitsAt code i n)
        else Numeral.valueFrom 16 0 (digitsAt code i n) / 16 : Nat) := by
  have hdigits (d : Char) (hd : d ∈ digitsAt code i n) : Listing.isHexadecimal d = true :=
    hhex d (List.mem_of_mem_drop (List.mem_of_mem_take hd))
  have hlength : (digitsAt code i n).length = 2 * n := by
    rw [digitsAt, List.length_take, List.length_drop, String.length_toList]
    omega
  rw [codeNumber, slice_dropLast h]
  split_ifs
  · rw [Numeral.read_digits (fun hnil => by simp [hnil] at hlength; omega) hdigits]
    rfl
  · rw [Numeral.read_digits (fun hnil => ?_) fun d hd => hdigits d (List.mem_of_mem_dropLast hd),
      Numeral.valueFrom_dropLast]
    · rfl
    · have := congrArg List.length hnil
      rw [List.length_dropLast, hlength, List.length_nil] at this
      omega

theorem outcome_copyCode {a i n active : Int} {grown : Value} {text : String}
    (hactive : m.path.world.activeWords.toInt? = some active)
    (hgrown : growTo active (a + n) = .ok grown)
    (htext : (codeText ctx).outcome m = (.ok text, m)) :
    (copyCode ctx (.int a) (.int i) (.int n)).outcome m = match codeNumber text i n with
      | .ok v => (.ok (), { m with path := { m.path with
          words := m.path.words.insert (.at a) (.int v),
          world := { m.path.world with activeWords := grown } } })
      | .error e => (.error e, m) := by
  rw [copyCode, outcome_bind_getWorld, hactive]
  dsimp only [Value.toInt?]
  rw [hgrown, outcome_bind, outcome_ofExcept]
  dsimp only
  rw [outcome_bind, htext]
  dsimp only
  rw [outcome_bind, outcome_ofExcept]
  cases codeNumber text i n <;> rfl

/-- The stored code is seen without its last digit. Its size comes out as half of an odd number,
unless it is empty. Copying bytes of it gives their number if the last byte is not among them, and
else that number without its last digit. -/
theorem code_seen_without_last_digit {code : String} (hhex : Input.IsHex code)
    (heven : Even code.length) : ∃ stored, Input.withoutMark code = .ok stored ∧
    stored.toList <+: code.toList ∧ Even stored.length ∧
      ∀ (ctx : Context) (site : Site) (name : String) (m : Machine), ctx.code = some stored →
        (perform ctx site name .codeSize).outcome m = (.ok (), { m with path :=
          { m.path with stack := halfLength (stored.length - 1) :: m.path.stack } }) ∧
        (stored.length ≤ 2 ^ 53 → ∃ size, halfLength (stored.length - 1) = .double size ∧
          size.toRat = (stored.length - 1 : Nat) / 2) ∧
        ∀ (a i n : Nat) (active : Int) (rest : List Value),
          m.path.stack = .int a :: .int i :: .int n :: rest →
          m.path.world.activeWords.toInt? = some active → (a + n : Int) < Int.pow 2 256 →
          2 * (i + n) ≤ stored.length →
          if n = 0 then (perform ctx site name .codeCopy).outcome m =
            (.error .badNumeral, m.taken rest)
          else ∃ m', (perform ctx site name .codeCopy).outcome m = (.ok (), m') ∧
            m'.path.stack = rest ∧ m'.path.words = m.path.words.insert (.at a)
              (.int (if 2 * (i + n) < stored.length
                then Numeral.valueFrom 16 0 (digitsAt stored i n)
                else Numeral.valueFrom 16 0 (digitsAt stored i n) / 16 : Nat)) := by
  obtain ⟨stored, hstored, hpart, hlength⟩ := Input.withoutMark_hex hhex heven
  have hhex' : Input.IsHex stored := fun c hc => hhex c (hpart.subset hc)
  refine ⟨stored, hstored, hpart, hlength, fun ctx site name m hcode => ⟨?_, fun hsmall => ?_, ?_⟩⟩
  · change (codeSize ctx).outcome m = _
    rw [codeSize, outcome_bind, codeText_eq hcode hhex']
    dsimp only
    rw [String.length_ofList, List.length_dropLast, String.length_toList, outcome_push]
  · obtain ⟨s, k, e, hquotient, hrat⟩ :=
      Double.ofQuotient?_two_pow (a := (stored.length - 1 : Nat)) (d := 0)
        (by rw [Int.natAbs_natCast]; omega) (by decide)
    refine ⟨.finite s k e, ?_, by simpa using hrat⟩
    rw [halfLength, show (2 : Int) = (2 ^ (0 + 1) : Nat) from rfl, hquotient]
    rfl
  · intro a i n active rest hstack hactive hlimit hinside
    obtain ⟨grown, hgrown⟩ := growTo_ok active (Double.log2_natAbs_le (by omega) hlimit)
    have hcopy :=
      outcome_copyCode (m := m.taken rest) (i := i) hactive hgrown (codeText_eq hcode hhex')
    rw [outcome_codeCopy hstack, hcopy]
    rcases Nat.eq_zero_or_pos n with rfl | hn
    · rw [Nat.cast_zero, codeNumber_zero, if_pos rfl]
    · rw [codeNumber_dropLast hhex' hn hinside, if_neg hn.ne']
      exact ⟨_, rfl, rfl, rfl⟩

def onCode (code : String) : Context := { code := some code }

theorem code_seen_pushOne : Input.IsHex "6001" ∧ Even "6001".length ∧
    ∃ stored, Input.withoutMark "6001" = .ok stored ∧ ∃ m',
      (perform (onCode stored) default "CODECOPY" .codeCopy).outcome (copying [0, 0, 1]) =
      (.ok (), m') ∧ m'.path.words.get? (.at 0) = some (.int 0x60) := by
  have hhex : Input.IsHex "6001" := List.all_eq_true.1 (by cbv)
  have heven : Even "6001".length := by decide
  obtain ⟨stored, hstored, -, -, hseen⟩ := code_seen_without_last_digit hhex heven
  have hsame : Input.withoutMark "6001" = .ok "6001" := by cbv
  obtain rfl : stored = "6001" := by
    rw [hsame] at hstored
    exact (Except.ok.inj hstored).symm
  obtain ⟨m', hm', -, hwords⟩ :=
    (hseen (onCode "6001") default "CODECOPY" (copying [0, 0, 1]) rfl).2.2
    0 0 1 0 [] rfl rfl (by decide) (by decide)
  exact ⟨hhex, heven, "6001", hsame, m', hm', by rw [hwords]; rfl⟩

/-- Of two bytes, one and a half are seen. -/
theorem code_seen_short : Input.withoutMark "6001" = .ok "6001" ∧
    ((perform (onCode "6001") default "CODESIZE" .codeSize).outcome {}).2.path.stack =
      [.double (.finite false (3 * 2 ^ 51) (-52))] ∧
    ((perform (onCode "6001") default "CODECOPY" .codeCopy).outcome
      (copying [0, 0, 2])).2.path.words.get? (.at 0) = some (.int 0x600) := by
  have hhalf : Double.ofQuotient? 3 2 = some (.finite false (3 * 2 ^ 51) (-52)) := by decide +kernel
  refine ⟨by cbv, ?_, rfl⟩
  change [Value.double ((Double.ofQuotient? 3 2).getD .nan)] = _
  rw [hhalf, Option.getD_some]

end Exec

end EvmAudit
