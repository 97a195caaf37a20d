import EvmAudit.Proofs.Machine.Fees

/-! Names that are still to be given out occur nowhere in the state. A computation that succeeds
keeps this, adds the same conditions to its path and to the solver, and keeps them satisfiable. -/

namespace EvmAudit

open Arithmetic

variable {i k : Nat}

def spare (k : Nat) (name : String) : Prop := name ≠ "some_var_" ++ toString k

theorem toList_toString (n : Nat) : (toString n).toList = Nat.toDigits 10 n := by
  simp [toString, Nat.repr]

theorem toString_injective {j : Nat} (h : toString i = toString j) : i = j := by
  have hdigits : Nat.toDigits 10 i = Nat.toDigits 10 j := by
    rw [← toList_toString, ← toList_toString, h]
  have hvalue := congrArg (Nat.ofDigitChars 10 · 0) hdigits
  simpa only [Nat.ofDigitChars_toDigits (show 1 < 10 by decide) (Nat.le_refl 10)] using hvalue

theorem numbered_injective (stem : String) {j : Nat} (h : stem ++ toString i = stem ++ toString j) :
    i = j := by
  have hlist := congrArg String.toList h
  simp only [String.toList_append, List.append_cancel_left_eq, String.toList_inj] at hlist
  exact toString_injective hlist

theorem spare_arbitrary (h : i ≠ k) : spare k ("some_var_" ++ toString i) :=
  fun he => h (numbered_injective _ he)

theorem spare_of_head {name : String} {c : Char} (h : name.toList.head? = some c) (hc : c ≠ 's') :
    spare k name := by
  rintro rfl
  rw [String.toList_append] at h
  exact hc (Option.some.inj h).symm

def Machine.Grows (m m' : Machine) : Prop :=
  ∃ cs first outer, m'.path.conditions = m.path.conditions ++ cs ∧
    m.shared.solver.frames = first :: outer ∧
    m'.shared.solver.frames = ((cs.map Condition.formula).reverse ++ first) :: outer

namespace Machine.Grows

variable {m m' m'' : Machine}

theorem of_frames (hc : m'.path.conditions = m.path.conditions)
    (hs : m'.shared.solver.frames = m.shared.solver.frames) : m.Grows m' := by
  obtain ⟨first, outer, h⟩ := Solver.exists_frames m.shared.solver
  exact ⟨[], first, outer, by simpa using hc, h, hs.trans h⟩

theorem trans (h : m.Grows m') (h' : m'.Grows m'') : m.Grows m'' := by
  obtain ⟨cs, first, outer, hc, hm, hm'⟩ := h
  obtain ⟨cs', first', outer', hc', ht, hm''⟩ := h'
  rw [hm'] at ht
  cases ht
  exact ⟨cs ++ cs', first, outer, by rw [hc', hc, List.append_assoc], hm, by simp [hm'']⟩

theorem assertions (h : m.Grows m') : ∃ cs, m'.path.conditions = m.path.conditions ++ cs ∧
    m'.shared.solver.assertions = m.shared.solver.assertions ++ cs.map Condition.formula := by
  obtain ⟨cs, first, outer, hc, hm, hm'⟩ := h
  refine ⟨cs, hc, ?_⟩
  rw [Solver.assertions_eq, Solver.assertions_eq, hm, hm']
  simp

end Machine.Grows

/-- States in which a name that is still to be given out does not occur. -/
abbrev Kind.spare : Kind where
  item k v := v.Over (EvmAudit.spare k)
  size k v := v.Over (EvmAudit.spare k)
  held k v := v.Over (EvmAudit.spare k)
  name := EvmAudit.spare
  formula k f := f.Over (EvmAudit.spare k)
  change m m' :=
    m.Grows m' ∧ (Satisfiable m.shared.solver.assertions → Satisfiable m'.shared.solver.assertions)

instance : Kind.spare.Lawful where
  still hc hs := ⟨.of_frames hc hs, fun h => Solver.assertions_congr hs ▸ h⟩
  trans h h' := ⟨h.1.trans h'.1, fun hs => h'.2 (h.2 hs)⟩

open Value

variable {P : String → Prop} {a b m v count : Value}

/-! ### Results of arithmetic -/

namespace Arithmetic

theorem gives_sum (ha : a.Over P) (hb : b.Over P) : Gives (Value.Over P) (sum a b) := by
  unfold sum
  split
  · exact gives_add (over_lift ha) (over_lift hb)
  · exact (gives_add ha hb).bind fun _ h => gives_mod h (over_int _)

theorem gives_difference (ha : a.Over P) (hb : b.Over P) :
    Gives (Value.Over P) (difference a b) := by
  unfold difference
  split
  · exact gives_sub (over_lift ha) (over_lift hb)
  · exact (gives_sub ha hb).bind fun _ h => gives_mod h (over_int _)

theorem gives_product (ha : a.Over P) (hb : b.Over P) : Gives (Value.Over P) (product a b) := by
  unfold product
  split
  rename_i x y h
  have hxy : x.Over P ∧ y.Over P := by
    split at h <;> cases h
    · exact ⟨over_lift ha, over_lift hb⟩
    · exact ⟨ha, hb⟩
  exact (gives_mul hxy.1 hxy.2).bind fun _ h => gives_bitwise _ _ h (over_int _)

theorem gives_quotient (x y : Int) : Gives (Value.Over P) (quotient x y) := by
  unfold quotient
  split
  · exact gives_ok trivial
  · exact gives_div (over_int _) (over_int _)

theorem gives_remainder (x y : Int) : Gives (Value.Over P) (remainder x y) := by
  unfold remainder
  split
  · exact gives_ok trivial
  · exact (gives_mod (over_int _) (over_int _)).bind fun _ h => gives_bitwise _ _ h (over_int _)

theorem gives_signedQuotient (x y : Int) : Gives (Value.Over P) (signedQuotient x y) := by
  unfold signedQuotient
  dsimp only
  split
  · exact gives_ok trivial
  · split
    · exact gives_ok trivial
    · refine gives_bind fun _ => gives_bind fun _ => ?_
      exact (gives_div (over_int _) (over_int _)).bind fun _ h => gives_mul (over_int _) h

theorem gives_signedRemainder (x y : Int) : Gives (Value.Over P) (signedRemainder x y) := by
  unfold signedRemainder
  split
  · exact gives_ok trivial
  · exact (gives_mod (over_int _) (over_int _)).bind fun _ h => gives_mul (over_int _) h

theorem over_signExtension (byte n : Int) : (signExtension byte n).Over P := by
  unfold signExtension
  split
  · exact trivial
  · dsimp only
    split <;> exact trivial

theorem gives_magnitude (h : v.Over P) : Gives (Value.Over P) (magnitude v) :=
  (gives_order .sge h (over_int _)).bind fun _ hc => (gives_negate h).bind fun _ hn =>
    gives_choose hc h hn

end Arithmetic

namespace Inquiry

theorem gives_unlessZero {x : Inquiry Value} (h : x.Gives (Value.Over P)) :
    (unlessZero v x).Gives (Value.Over P) :=
  ⟨gives_ok trivial, h⟩

theorem gives_quotient (ha : a.Over P) (hb : b.Over P) : (quotient a b).Gives (Value.Over P) :=
  gives_unlessZero (gives_onWords .udiv ha hb)

theorem gives_remainder (ha : a.Over P) (hb : b.Over P) : (remainder a b).Gives (Value.Over P) :=
  gives_unlessZero (gives_onWords .urem ha hb)

theorem gives_signedQuotient (ha : a.Over P) (hb : b.Over P) :
    (signedQuotient a b).Gives (Value.Over P) := by
  have hquotient (sign : Int) : EvmAudit.Gives (Value.Over P) (do
      (Value.int sign).mul (← (← Arithmetic.magnitude a).div (← Arithmetic.magnitude b))) :=
    (gives_magnitude ha).bind fun _ hx => (gives_magnitude hb).bind fun _ hy =>
      (gives_div hx hy).bind fun _ h => gives_mul (over_int _) h
  exact gives_unlessZero ⟨gives_ok trivial, hquotient 1, hquotient (-1)⟩

theorem gives_signedRemainder (ha : a.Over P) (hb : b.Over P) :
    (signedRemainder a b).Gives (Value.Over P) := by
  have hremainder (sign : Int) : EvmAudit.Gives (Value.Over P) (do
      (Value.int sign).lift.mul (← (← Arithmetic.magnitude a).mod (← Arithmetic.magnitude b))) :=
    (gives_magnitude ha).bind fun _ hx => (gives_magnitude hb).bind fun _ hy =>
      (gives_mod hx hy).bind fun _ h => gives_mul (over_lift (over_int _)) h
  exact gives_unlessZero ⟨gives_ok (hremainder 1), gives_ok (hremainder (-1))⟩

theorem gives_wordOf (h : v.Over P) : EvmAudit.Gives (Term.Over P) (wordOf v) := by
  cases v with
  | word t => exact gives_ok h
  | _ => exact gives_error _

theorem gives_modular {onTerms : Term → Term → Term → Term}
    (honTerms : ∀ {x y z : Term}, x.Over P → y.Over P → z.Over P → (onTerms x y z).Over P)
    (ha : a.Over P) (hb : b.Over P) (hm : m.Over P) :
    (modular onTerms a b m).Gives (Value.Over P) :=
  gives_unlessZero ((gives_wordOf (over_lift ha)).bind fun _ hx =>
    (gives_wordOf (over_lift hb)).bind fun _ hy => (gives_wordOf hm).bind fun _ hz =>
      gives_pure (honTerms hx hy hz))

theorem gives_extension (ha : a.Over P) (hv : v.Over P) : (extension a v).Gives (Value.Over P) := by
  have hplace : EvmAudit.Gives (Value.Over P) (do (← (Value.int 8).mul a).add (.int 7)) :=
    (gives_mul (over_int _) ha).bind fun _ h => gives_add h (over_int _)
  unfold extension
  split
  · exact gives_error _
  next place hp =>
    have hbit := gives_shift .shl (fun m n => m * 2 ^ n) (P := P) (over_int 1)
      (hplace place hp)
    refine ⟨hbit.bind fun _ h => (gives_sub (over_int _) h).bind fun _ h' => ?_,
      hbit.bind fun _ h => (gives_sub h (over_int _)).bind fun _ h' => ?_⟩
    · exact gives_bitwise _ _ hv h'
    · exact gives_bitwise _ _ hv h'

theorem gives_signExtension (ha : a.Over P) (hv : v.Over P) :
    (signExtension a v).Gives (Value.Over P) :=
  ⟨gives_ok hv, gives_extension ha hv⟩

end Inquiry

namespace Exec

theorem over_oneOrZero {c : Condition} (h : c.Over P) : (oneOrZero c).Over P :=
  ⟨h, trivial, trivial⟩

theorem gives_unsignedOrder (op : Comparison) (ha : a.Over P)
    (hb : b.Over P) : Gives (Condition.Over P) (unsignedOrder op a b) :=
  (gives_unsigned op ha hb).bind fun _ h => gives_pure h

theorem gives_byteOf {shift : Value} (hv : v.Over P) (hs : shift.Over P) :
    Gives (Value.Over P) (byteOf v shift) :=
  (gives_shift _ _ (over_int 255) hs).bind fun _ h =>
    (gives_bitwise _ _ hv h).bind fun _ h' => gives_shift _ _ h' hs

theorem gives_wordsUpTo {last : Value} (h : last.Over P) : Gives (Value.Over P) (wordsUpTo last) :=
  (gives_div h (over_int 32)).bind fun _ h' => gives_add h' (over_int 1)

theorem gives_wordsAfter {first : Value} (hf : first.Over P)
    (hc : count.Over P) : Gives (Value.Over P) (do wordsUpTo (← first.add count)) :=
  (gives_add hf hc).bind fun _ h => gives_wordsUpTo h

theorem over_ofDocument (d : Document) : (Value.ofDocument d).Over P := by
  cases d <;> exact trivial

theorem gives_branchOf {flag : Value} (h : flag.Over P) :
    Gives (fun v => ∀ c, v.asCondition = .ok c → c.Over P) (branchOf flag) := by
  unfold branchOf
  split
  · refine gives_ok ?_
    split <;> rintro _ ⟨⟩
    · exact ⟨trivial, trivial⟩
    · exact Condition.over_settled true
  · refine (gives_ne h (over_int 0)).bind fun c hc => gives_pure ?_
    cases c <;> rintro _ ⟨⟩ <;> exact hc

theorem room_spare {current size : Value} (hc : current.Over (spare k)) (hs : size.Over (spare k)) :
    Kind.spare.Room k current size :=
  ⟨hc, fun c h => ⟨gives_ok hc, gives_choose (gives_order .slt hc hs c h) hs hc⟩⟩

theorem closed_spare {ctx : Context} (hsimplify : ctx.simplify.Sound)
    (hsource : ctx.source = none) : Closed ctx .spare where
  truth _ _ := trivial
  simplified := over_simplify hsimplify
  sum := gives_sum
  difference := gives_difference
  product := gives_product
  remainder _ _ _ := gives_remainder _ _
  remainders ha hb _ := Inquiry.gives_remainder (over_lift ha) (over_lift hb)
  extension _ _ _ := over_signExtension _ _
  extensions ha hb _ := Inquiry.gives_signExtension (over_lift ha) (over_lift hb)
  reduced _ _ _ := trivial
  modular := by
    rintro k a b m _ (rfl | rfl) <;> exact Inquiry.gives_modular fun hx hy hz => ⟨hx, hy, hz⟩
  power _ _ _ _ _ := trivial
  comparison h ha hb := by
    have hone {x : Except Fault Condition} {k : Nat} (h : Gives (Condition.Over (spare k)) x) :
        Gives (fun c => (oneOrZero c).Over (spare k)) x := fun c hc => over_oneOrZero (h c hc)
    simp only [List.mem_cons, List.not_mem_nil, or_false] at h
    rcases h with rfl | rfl | rfl | rfl | rfl
    · exact hone (gives_unsignedOrder .ult ha hb)
    · exact hone (gives_unsignedOrder .ugt ha hb)
    · exact hone (gives_order .slt ha hb)
    · exact hone (gives_order .sgt ha hb)
    · exact hone (gives_eq ha hb)
  isZero h c hc := over_oneOrZero (gives_eq h (over_int 0) c hc)
  bits h ha hb := by
    simp only [List.mem_cons, List.not_mem_nil, or_false] at h
    rcases h with rfl | rfl | rfl <;> exact gives_bitwise _ _ ha hb
  not h := (gives_bitNot h).bind fun _ h' => gives_bitwise _ _ h' (over_int _)
  byte {k a b index} ha hb h := by
    have hindex : index.Over (spare k) := ((gives_sub (over_int 32) ha).bind fun _ h' =>
      gives_sub h' (over_int 1)) index h
    have hplace {v : Value} (hv : v.Over (spare k)) :
        Gives (Value.Over (spare k)) (do byteOf v (← (Value.int 8).mul index)) :=
      (gives_mul (over_int 8) hindex).bind fun _ h' => gives_byteOf hv h'
    exact ⟨fun _ => hplace hb, hplace (over_lift hb)⟩
  lowByte h := gives_mod h (over_int 256)
  grown _ _ _ := gives_bind fun _ => gives_pure trivial
  after hv ha hb size h := room_spare (over_lift hv)
    (gives_wordsAfter ha (hb.elim id fun h => h ▸ over_int 31) size h)
  upTo hv ha size h := room_spare (over_lift hv) (gives_wordsUpTo ha size h)
  stored hv ha _ size h := room_spare hv (gives_wordsAfter ha (over_int 31) size h)
  var := over_var
  named h hs _ := spare_of_head h hs
  arbitrary h := spare_arbitrary (Nat.ne_of_lt h)
  listed _ _ := trivial
  parameter h := by
    rw [hsource] at h
    cases h
  reply _ _ := ⟨over_ofDocument, fun _ => trivial⟩
  storedReply _ _ _ := trivial
  branch := gives_branchOf
  held := id
  credit ha hb := ⟨gives_add ha hb, gives_sub ha hb⟩
  affords := gives_order .sle

theorem whole_spare : Whole .spare where
  int _ _ := trivial
  double _ _ := trivial
  lift := over_lift
  quotient _ := gives_quotient
  quotients := Inquiry.gives_quotient
  signedQuotient _ := gives_signedQuotient
  signedQuotients := Inquiry.gives_signedQuotient
  signedRemainder _ := gives_signedRemainder
  signedRemainders := Inquiry.gives_signedRemainder
  area := gives_mul (over_int 32)

end Exec

end EvmAudit
