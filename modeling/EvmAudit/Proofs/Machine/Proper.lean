import EvmAudit.Proofs.Machine.Bare
import EvmAudit.Proofs.Value.Proper

/-! Paths on which all items are words, and the instructions that keep them so when they succeed. -/

namespace EvmAudit

open Value Arithmetic

/-! ### Questions -/

namespace Inquiry

variable {a b m v : Value}

theorem isWord_unlessZero {x : Inquiry Value} (h : x.Gives IsWord) :
    (unlessZero v x).Gives IsWord :=
  ⟨gives_ok isWord_zero, h⟩

theorem isWord_quotient (a b : Value) : (quotient a b).Gives IsWord :=
  isWord_unlessZero fun v hv => (gives_onWords_term .udiv a b v hv).isWord

theorem isWord_signedRemainder (ha : a.IsTerm) : (signedRemainder a b).Gives IsWord := by
  have hremainder (sign : Int) : EvmAudit.Gives IsWord (do
      (Value.int sign).lift.mul (← (← Arithmetic.magnitude a).mod (← Arithmetic.magnitude b))) := by
    refine (gives_magnitude_term ha).bind fun x hx => gives_bind fun y => ?_
    refine (gives_apply_term (.inl hx)).bind ?_
    rintro _ ⟨t, rfl⟩
    exact gives_pure trivial
  exact isWord_unlessZero ⟨gives_ok (hremainder 1), gives_ok (hremainder (-1))⟩

theorem gives_signedQuotient_word (ha : a.IsTerm) :
    (signedQuotient a b).Gives fun v => v.IsWord ∨ v = .int Arithmetic.leastSigned := by
  have hquotient (sign : Int) :
      EvmAudit.Gives (fun v => v.IsWord ∨ v = .int Arithmetic.leastSigned) (do
      (Value.int sign).mul (← (← Arithmetic.magnitude a).div (← Arithmetic.magnitude b))) := by
    refine (gives_magnitude_term ha).bind fun x hx => gives_bind fun y => ?_
    refine (gives_apply_term (.inl hx)).bind ?_
    rintro _ ⟨t, rfl⟩
    exact gives_pure (.inl trivial)
  exact ⟨gives_ok (.inl isWord_zero), gives_ok (.inr rfl), hquotient 1, hquotient (-1)⟩

theorem isWord_signExtension (hv : v.IsTerm) : (signExtension b v).Gives IsWord := by
  refine ⟨gives_ok hv.isWord, ?_⟩
  unfold extension
  split
  · exact gives_error _
  · refine ⟨gives_bind fun _ => gives_bind fun _ => ?_,
      gives_bind fun _ => gives_bind fun _ => ?_⟩
    · exact fun u hu => (gives_bitwise_term (.inl hv) u hu).isWord
    · exact fun u hu => (gives_bitwise_term (.inl hv) u hu).isWord

end Inquiry

/-! ### Paths -/

def Value.IsSize (v : Value) : Prop := (∃ n : Int, v = .int n ∧ 0 ≤ n) ∨ v.IsTerm

theorem Value.IsSize.lift {v : Value} (h : v.IsSize) : v.lift.IsTerm := by
  obtain ⟨n, rfl, -⟩ | ⟨t, rfl⟩ := h
  · exact ⟨_, rfl⟩
  · exact ⟨t, rfl⟩

theorem Value.IsSize.nonneg {v : Value} {n : Int} (h : v.IsSize) (hn : v.toInt? = some n) :
    0 ≤ n := by
  obtain ⟨k, rfl, hk⟩ | ⟨t, rfl⟩ := h
  · cases hn
    exact hk
  · cases hn

def Table.AllWords {κ : Type} [DecidableEq κ] (t : Table κ Value) : Prop :=
  ∀ key v, t.get? key = some v → v.IsWord

structure Path.Proper (p : Path) : Prop where
  stack : ∀ v ∈ p.stack, v.IsWord
  words : p.words.AllWords
  hashes : p.hashes.AllWords
  vars : p.vars.AllWords
  storage : p.world.storage.AllWords
  active : p.world.activeWords.IsSize
  given : ∀ v ∈ p.world.given, v.IsWord

theorem Path.proper_iff {p : Path} : p.Proper ↔ p.Items IsWord IsSize :=
  ⟨fun h => ⟨h.stack, h.words, h.hashes, h.vars, h.storage, h.active, h.given⟩,
    fun h => ⟨h.stack, h.words, h.hashes, h.vars, h.storage, h.active, h.given⟩⟩

theorem Path.Proper.of_alike {m m' : Machine} {ps : List Part} (hp : m.path.Proper)
    (halike : m.AlikeBut ps m') (hps : ∀ p ∈ itemParts, p ∉ ps) : m'.path.Proper :=
  proper_iff.2 ((proper_iff.1 hp).of_alike halike hps)

theorem Path.Proper.pushed_iff {m m' : Machine} {ps : List Part} {v : Value} {rest : List Value}
    (hp : m.path.Proper) (halike : m.AlikeBut ps m') (hps : ∀ p ∈ itemParts, p ∈ ps → p = .stack)
    (hstack : m'.path.stack = v :: rest) (hrest : ∀ u ∈ rest, u ∈ m.path.stack) :
    m'.path.Proper ↔ v.IsWord := by
  refine ⟨fun hp' => hp'.stack v (by simp [hstack]), fun hv =>
    proper_iff.2 ((proper_iff.1 hp).of_stack halike hps fun u hu => ?_)⟩
  rw [hstack] at hu
  rcases List.mem_cons.1 hu with rfl | hu
  · exact hv
  · exact hp.stack u (hrest u hu)

/-! ### Instructions -/

namespace Exec

variable {a b v : Value} {ctx : Context}

theorem both_toNat (x y : Word) :
    both (.int x.toNat) (.int y.toNat) = some ((x.toNat : Int), (y.toNat : Int)) := rfl

theorem both_of_term (h : a.IsTerm ∨ b.IsTerm) : both a b = none := by
  obtain ⟨t, rfl⟩ | ⟨t, rfl⟩ := h
  · rfl
  · unfold both
    cases a.toInt? <;> rfl

theorem word_cases (ha : a.IsWord) (hb : b.IsWord) :
    (∃ x y : Word, a = .int x.toNat ∧ b = .int y.toNat) ∨ a.IsTerm ∨ b.IsTerm := by
  obtain ⟨x, rfl⟩ | ha := ha.cases
  · obtain ⟨y, rfl⟩ | hb := hb.cases
    · exact .inl ⟨x, y, rfl, rfl⟩
    · exact .inr (.inr hb)
  · exact .inr (.inl ha)

theorem isWord_truth (b : Bool) : (Value.int (if b then 1 else 0)).IsWord := by
  cases b <;> decide

theorem gives_growTo_size {current : Int} (h : 0 ≤ current) (limit : Int) :
    Gives IsSize (growTo current limit) := by
  refine gives_bind fun words => gives_pure (.inl ⟨_, rfl, ?_⟩)
  split <;> omega

theorem gives_wordsUpTo_term {last : Value} (h : last.IsTerm) : Gives IsTerm (wordsUpTo last) :=
  (gives_apply_term (.inl h)).bind fun _ h' => gives_apply_term (.inl h')

theorem isWord_lowByte {v : Value} (h : v.IsWord) : Gives IsWord (v.mod (.int 256)) := by
  obtain ⟨x, rfl⟩ | h := h.cases
  · refine gives_ok ⟨Int.fmod_nonneg (Int.natCast_nonneg _) (by decide), ?_⟩
    exact (Int.fmod_lt_of_pos _ (by decide)).trans (by decide)
  · exact fun v hv => (gives_apply_term (.inl h) v hv).isWord

theorem isWord_bitwise {op : Binary} {onInts : Int → Int → Int}
    (hints : ∀ x y : Word, ∃ w : Word, onInts x.toNat y.toNat = w.toNat) (ha : a.IsWord)
    (hb : b.IsWord) : Gives IsWord (Value.bitwise op onInts a b) := by
  rcases word_cases ha hb with ⟨x, y, rfl, rfl⟩ | hterm
  · obtain ⟨w, hw⟩ := hints x y
    exact gives_ok (hw ▸ isWord_toNat w)
  · exact fun v hv => (gives_bitwise_term hterm v hv).isWord

theorem isWord_byte {index : Value} (ha : a.IsWord) (hb : b.IsWord) (hboth : both a b ≠ none)
    (hindex : (do (← (Value.int 32).sub a).sub (.int 1)) = .ok index) :
    Gives IsWord (do byteOf b (← (Value.int 8).mul index)) := by
  rcases word_cases ha hb with ⟨x, y, rfl, rfl⟩ | hterm
  · cases hindex
    exact isWord_byteOf y _
  · exact absurd (both_of_term hterm) hboth

theorem room_isSize {k : Nat} {current size : Value} (hcurrent : current.IsSize)
    (h : size.IsTerm ∨ current.IsTerm) : (Kind.ofItems IsWord IsSize).Room k current size :=
  ⟨hcurrent, fun _ _ => ⟨gives_ok hcurrent, fun v hv => .inr (gives_choose_term h v hv)⟩⟩

theorem gives_storedSize {k : Nat} {address : Value} (hv : v.IsSize) (haddress : address.IsWord)
    (hboth : both address v = none) :
    Gives ((Kind.ofItems IsWord IsSize).Room k v) (do wordsUpTo (← address.add (.int 31))) := by
  have hsize := hv
  obtain ⟨x, rfl⟩ | haddress := haddress.cases
  · obtain ⟨n, rfl, -⟩ | hterm := hsize
    · cases hboth
    · exact fun _ _ => room_isSize hv (.inr hterm)
  · refine (gives_apply_term (.inl haddress)).bind fun _ h size hwords => ?_
    exact room_isSize hv (.inl (gives_wordsUpTo_term h size hwords))

theorem closed_isWord (hsource : ctx.source = none)
    (hstorage : on ctx.settings.useGlobalStorage = false)
    (hchain : on ctx.settings.useGlobalBlockchain = false) :
    Closed ctx (.ofItems IsWord IsSize) where
  truth _ := isWord_truth
  simplified hv := (isWord_simplify _ _).2 hv
  sum := isWord_of_stands stands_sum
  difference := isWord_of_stands stands_difference
  product := isWord_of_stands stands_product
  remainder ha hb h := by
    rcases word_cases ha hb with ⟨x, y, rfl, rfl⟩ | hterm
    · cases h
      exact isWord_remainder x y
    · rw [both_of_term hterm] at h
      cases h
  remainders _ _ _ :=
    Inquiry.isWord_unlessZero fun v hv => (gives_onWords_term .urem _ _ v hv).isWord
  extension ha hb h := by
    rcases word_cases ha hb with ⟨x, y, rfl, rfl⟩ | hterm
    · cases h
      rw [signExtension_toNat]
      exact isWord_toNat _
    · rw [both_of_term hterm] at h
      cases h
  extensions _ hb _ := Inquiry.isWord_signExtension hb.lift
  reduced k hv h := by
    obtain ⟨z, rfl⟩ | ⟨t, rfl⟩ := hv.cases <;> cases h
    exact isWord_reduced hv.1 hv.2
  modular _ _ _ _ := Inquiry.isWord_unlessZero (gives_bind fun _ => gives_bind fun _ =>
    gives_bind fun _ => gives_pure trivial)
  power _ := isWord_wordPower
  comparison _ _ _ _ _ := trivial
  isZero _ _ _ := trivial
  bits h ha hb := by
    simp only [List.mem_cons, List.not_mem_nil, or_false] at h
    rcases h with rfl | rfl | rfl
    · exact isWord_bitwise (fun x y => ⟨_, Word.intAnd_toNat x y⟩) ha hb
    · exact isWord_bitwise (fun x y => ⟨_, Word.intOr_toNat x y⟩) ha hb
    · exact isWord_bitwise (fun x y => ⟨_, Word.intXor_toNat x y⟩) ha hb
  not hv := by
    obtain ⟨w, hw⟩ := hv.stands fun _ => 0
    exact gives_isWord (stands_bitNot hw)
  byte ha hb hindex := ⟨fun hboth => isWord_byte ha hb hboth hindex,
    gives_bind fun _ v h => (gives_byteOf_term hb.lift v h).isWord⟩
  lowByte := isWord_lowByte
  grown limit hv h := gives_growTo_size (hv.nonneg h) limit
  after hv _ _ _ _ := room_isSize (.inr hv.lift) (.inr hv.lift)
  upTo hv _ _ _ := room_isSize (.inr hv.lift) (.inr hv.lift)
  stored := gives_storedSize
  var _ := trivial
  named h _ hp := ne_conditions h hp
  arbitrary _ := ne_conditions (c := 's') (by simp) (by decide)
  listed _ h := absurd rfl h
  parameter h := by
    rw [hsource] at h
    cases h
  reply _ h := by
    rw [hchain] at h
    cases h
  storedReply _ _ h := by
    rw [hstorage] at h
    cases h
  branch _ _ _ _ _ := trivial
  held _ := trivial
  credit _ _ := ⟨gives_trivial _, gives_trivial _⟩
  affords _ _ := gives_trivial _

end Exec

end EvmAudit
