import EvmAudit.Proofs.Machine.Footprint

/-! Paths on which no item holds others. What is computed never does; items that do are only met in
the call data, under the name of the conditions of the path, and in what the chain replies. -/

namespace EvmAudit

open Value

namespace Value

variable {a b v : Value}

def isContainer : Value → Bool
  | .record | .conditions _ => true
  | _ => false

abbrev Bare (v : Value) : Prop := v.isContainer = false

theorem bare_int (n : Int) : (Value.int n).Bare := rfl

theorem bare_apply {op : Arithmetic} (hints : ∀ m n, Gives Bare (op.onInts m n)) :
    Gives Bare (op.apply a b) := by
  unfold Arithmetic.apply
  split
  · exact gives_bind fun _ => gives_pure rfl
  · exact gives_bind fun _ => gives_pure rfl
  · exact gives_bind fun _ => gives_bind fun _ => gives_pure rfl
  · exact gives_bind fun _ => gives_bind fun _ => gives_pure rfl
  · split
    · exact hints _ _
    · exact gives_bind fun _ => gives_bind fun _ =>
        gives_bind fun _ => gives_pure rfl

theorem bare_add : Gives Bare (a.add b) := bare_apply fun _ _ => gives_ok rfl

theorem bare_sub : Gives Bare (a.sub b) := bare_apply fun _ _ => gives_ok rfl

theorem bare_mul : Gives Bare (a.mul b) := by
  have hscale (f : Formula) (t : Term) : (scaleFormula f t).Bare := by
    unfold scaleFormula
    split_ifs <;> rfl
  unfold mul
  split
  · exact gives_ok (hscale _ _)
  · exact gives_ok (hscale _ _)
  · exact bare_apply fun _ _ => gives_ok rfl

theorem bare_div : Gives Bare (a.div b) := by
  refine bare_apply fun m n => ?_
  dsimp only
  split
  · exact gives_error _
  · split
    · exact gives_ok rfl
    · exact gives_error _

theorem bare_mod : Gives Bare (a.mod b) := by
  refine bare_apply fun m n => ?_
  dsimp only
  split
  · exact gives_error _
  · exact gives_ok rfl

theorem bare_bitwise {op : Binary} {onInts : Int → Int → Int} :
    Gives Bare (bitwise op onInts a b) := by
  unfold bitwise
  split
  · exact gives_bind fun _ => gives_pure rfl
  · exact gives_bind fun _ => gives_pure rfl
  · exact gives_ok rfl
  · split
    · exact gives_ok rfl
    · exact gives_error _

theorem bare_shift {op : Binary} {onInts : Int → Nat → Int} : Gives Bare (shift op onInts a b) := by
  unfold shift
  split
  · exact gives_bind fun _ => gives_pure rfl
  · exact gives_bind fun _ => gives_pure rfl
  · split
    · split
      · exact gives_error _
      · exact gives_ok rfl
    · exact gives_error _

theorem bare_lift (h : v.Bare) : v.lift.Bare := by
  unfold lift
  split
  · rfl
  · exact h

theorem bare_simplify (s : Simplifier) (h : v.Bare) : (s.value v).Bare := by
  cases v <;> exact h

end Value

def Context.SparesConditions (ctx : Context) : Prop :=
  ∀ map, ctx.source = some map → ∀ function ps, map.parameters.get? function = some ps →
    ∀ p ∈ ps, p.name ≠ Names.conditions

def Bytes.Bare (b : Bytes) : Prop := ∀ i, (b.get i).Bare

/-- No item of the path holds others, and no byte of its memory. -/
structure Path.Bare (p : Path) : Prop where
  items : p.Items Value.Bare fun _ => True
  bytes : p.bytes.Bare

namespace Exec

variable {α β : Type} {a b v : Value} {ctx : Context}

theorem bare_byteOf (place : Value) : Gives Bare (byteOf v place) :=
  gives_bind fun _ => gives_bind fun _ => bare_shift

theorem bare_signExtension {byte : Value} (hv : v.Bare) :
    (Inquiry.signExtension byte v).Gives Bare := by
  refine ⟨gives_ok hv, ?_⟩
  unfold Inquiry.extension
  split
  · exact gives_error _
  · exact ⟨gives_bind fun _ => gives_bind fun _ => bare_bitwise,
      gives_bind fun _ => gives_bind fun _ => bare_bitwise⟩

theorem bare_onWords (op : Binary) : Gives Bare (Value.onWords op a b) :=
  gives_bind fun _ => gives_pure rfl

theorem ne_conditions {name : String} {c : Char} (h : name.toList.head? = some c) (hc : c ≠ 'p') :
    name ≠ Names.conditions := by
  rintro rfl
  exact hc (Option.some.inj h).symm

theorem closed_bare (hsource : ctx.SparesConditions)
    (hchain : on ctx.settings.useGlobalBlockchain = false) :
    Closed ctx (.ofItems Bare fun _ => True) where
  truth _ _ := rfl
  simplified := bare_simplify _
  sum _ _ := by
    unfold Arithmetic.sum
    split
    · exact bare_add
    · exact gives_bind fun _ => bare_mod
  difference _ _ := by
    unfold Arithmetic.difference
    split
    · exact bare_sub
    · exact gives_bind fun _ => bare_mod
  product _ _ := gives_bind fun _ => bare_bitwise
  remainder _ _ _ := by
    unfold Arithmetic.remainder
    split
    · exact gives_pure rfl
    · exact gives_bind fun _ => bare_bitwise
  remainders _ _ _ := ⟨gives_ok rfl, bare_onWords .urem⟩
  extension _ _ _ := by
    unfold Arithmetic.signExtension
    dsimp only
    split_ifs <;> rfl
  extensions _ hb _ := bare_signExtension (bare_lift hb)
  reduced _ _ _ := rfl
  modular _ _ _ _ := ⟨gives_ok rfl, gives_bind fun _ => gives_bind fun _ =>
    gives_bind fun _ => gives_pure rfl⟩
  power _ _ _ _ _ := rfl
  comparison _ _ _ _ _ := rfl
  isZero _ _ _ := rfl
  bits h _ _ := by
    simp only [List.mem_cons, List.not_mem_nil, or_false] at h
    rcases h with rfl | rfl | rfl <;> exact bare_bitwise
  not _ := gives_bind fun _ => bare_bitwise
  byte _ _ _ := ⟨fun _ => gives_bind fun _ => bare_byteOf _,
    gives_bind fun _ => bare_byteOf _⟩
  lowByte _ := bare_mod
  grown _ _ _ := gives_trivial _
  after _ _ _ _ _ := Kind.room_of_forall fun _ => trivial
  upTo _ _ _ _ := Kind.room_of_forall fun _ => trivial
  stored _ _ _ _ _ := Kind.room_of_forall fun _ => trivial
  var _ := rfl
  named h _ hp := ne_conditions h hp
  arbitrary _ := ne_conditions (c := 's') (by simp) (by decide)
  listed _ h := absurd rfl h
  parameter hmap hparams hp := hsource _ hmap _ _ hparams _ hp
  reply _ h := by
    rw [hchain] at h
    cases h
  storedReply _ _ _ := rfl
  branch _ _ _ _ _ := trivial
  held _ := trivial
  credit _ _ := ⟨gives_trivial _, gives_trivial _⟩
  affords _ _ := gives_trivial _

/-! ### Operations -/

theorem bare_signedQuotient (m n : Int) : Gives Bare (Arithmetic.signedQuotient m n) := by
  unfold Arithmetic.signedQuotient
  dsimp only
  split
  · exact gives_pure rfl
  · split
    · exact gives_pure rfl
    · exact gives_bind fun _ => gives_bind fun _ =>
        gives_bind fun _ => bare_mul

theorem bare_signedQuotients (a b : Value) : (Inquiry.signedQuotient a b).Gives Bare :=
  have hquotient (sign : Int) : EvmAudit.Gives Bare (do
      (Value.int sign).mul (← (← Arithmetic.magnitude a).div (← Arithmetic.magnitude b))) :=
    gives_bind fun _ => gives_bind fun _ => gives_bind fun _ => bare_mul
  ⟨gives_ok rfl, gives_ok rfl, hquotient 1, hquotient (-1)⟩

theorem bare_signedRemainder (m n : Int) : Gives Bare (Arithmetic.signedRemainder m n) := by
  unfold Arithmetic.signedRemainder
  split
  · exact gives_pure rfl
  · exact gives_bind fun _ => bare_mul

theorem bare_signedRemainders (a b : Value) : (Inquiry.signedRemainder a b).Gives Bare :=
  have hremainder (sign : Value) : EvmAudit.Gives Bare (do
      sign.mul (← (← Arithmetic.magnitude a).mod (← Arithmetic.magnitude b))) :=
    gives_bind fun _ => gives_bind fun _ => gives_bind fun _ => bare_mul
  ⟨gives_ok rfl, gives_ok (hremainder _), gives_ok (hremainder _)⟩

theorem bare_quotient (m n : Int) : Gives Bare (Arithmetic.quotient m n) := by
  unfold Arithmetic.quotient
  split
  · exact gives_ok rfl
  · exact bare_div

theorem whole_bare : Whole (.ofItems Bare fun _ => True) where
  int _ := bare_int
  double _ _ := rfl
  lift := bare_lift
  quotient _ := bare_quotient
  quotients _ _ := ⟨gives_ok rfl, bare_onWords .udiv⟩
  signedQuotient _ := bare_signedQuotient
  signedQuotients _ _ := bare_signedQuotients _ _
  signedRemainder _ := bare_signedRemainder
  signedRemainders _ _ := bare_signedRemainders _ _
  area _ := bare_mul

/-! ### Bytes -/

def BytesStayBare (m m' : Machine) : Prop := m.path.bytes.Bare → m'.path.bytes.Bare

instance : Journey BytesStayBare := ⟨fun _ => id, fun h h' hm => h' (h hm)⟩

theorem bare_setByte (address : Int) (hv : v.Bare) : Within BytesStayBare (setByte address v) := by
  refine touches_getPath.bind fun path => ?_
  dsimp only
  generalize (if address < 0 then address + (path.bytes.size : Int) else address) = index
  split
  · exact touches_throw _
  · intro m hm i
    change ((m.path.bytes.set index.toNat v).get i).Bare
    by_cases hi : i = index.toNat
    · rw [hi, Bytes.get_set_self]
      exact hv
    · rw [Bytes.get_set_of_ne hi]
      exact hm i

theorem bare_setBytes (address : Int) (n : Nat) (v : Value) :
    Within BytesStayBare (setBytes address n v) := by
  induction n generalizing v with
  | zero => exact touches_pure ()
  | succ n ih =>
    rw [setBytes]
    rcases hlow : v.mod (.int 256) with e | low
    · exact touches_throw e
    · exact (bare_setByte _ (bare_mod low hlow)).bind fun _ => (touches_ofExcept _).bind ih

theorem bare_storeBytes (address v : Value) : Within BytesStayBare (storeBytes ctx address v) := by
  have hextend (a : Int) : Within BytesStayBare (extendBytes ctx a) := by
    refine touches_getPath.bind fun path => ?_
    dsimp only
    split
    · exact touches_throw _
    · split
      · exact touches_throw _
      · exact fun _ hm => hm
  unfold storeBytes
  split
  · exact (hextend _).bind fun _ => bare_setBytes _ _ _
  · exact touches_pure ()

theorem bare_bytes_of_perform {site : Site} {name : String} {op : Operation} {m m' : Machine}
    (hm : m.path.bytes.Bare) (h : (perform ctx site name op).outcome m = (.ok (), m')) :
    m'.path.bytes.Bare := by
  by_cases hop : op = .mstore
  · subst hop
    obtain ⟨address, v, rest, m₁, -, hstore, -, hbytes⟩ := stores_of_mstore h
    have hkept := @bare_storeBytes ctx address v (m.taken rest) hm
    rw [hstore] at hkept
    rwa [hbytes]
  · have hsame := bytes_of_perform ctx site name hop m
    rw [h] at hsame
    rwa [hsame]

/-! ### Paths -/

theorem bare_traced (hsource : ctx.SparesConditions)
    (hchain : on ctx.settings.useGlobalBlockchain = false) {site : Site} {text : String}
    {m m' : Machine} (hp : m.path.Bare) (h : Traces ctx site text m m') : m'.path.Bare := by
  obtain ⟨m₁, m₂, -, hbefore, heffect, hafter⟩ := performs_of_traced h
  have hperform := holds_perform_anyhow (C := fun _ => True) (closed_bare hsource hchain) site
    (Instruction.ofText text).name (Instruction.ofText text).operation (.inr whole_bare)
  have hitems := hperform.items (hp.items.of_alike hbefore (by decide)) heffect fun _ => trivial
  refine ⟨hitems.of_alike hafter (by decide), ?_⟩
  rw [hafter.bytes]
  exact bare_bytes_of_perform (by rw [hbefore.bytes]; exact hp.bytes) heffect

end Exec

end EvmAudit
