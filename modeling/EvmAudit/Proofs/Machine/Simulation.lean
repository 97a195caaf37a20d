import EvmAudit.Proofs.Listing.Execution
import EvmAudit.Proofs.Machine.Fresh
import EvmAudit.Proofs.Term.Written

/-! Instructions on values and on words. As long as the items of the stack stand for the words of
another one, an instruction that succeeds keeps the two in step. -/

namespace EvmAudit

open Value

namespace Numeral

theorem valueFrom_lt {base : Nat} (h : 0 < base) (acc : Nat) (ds : List Char) :
    valueFrom base acc ds < (acc + 1) * base ^ ds.length := by
  induction ds generalizing acc with
  | nil => simp [valueFrom]
  | cons d ds ih =>
    have hd := digitValue_lt h d
    have hstep : acc * base + digitValue base d + 1 ≤ (acc + 1) * base := by
      rw [Nat.add_mul]
      omega
    calc valueFrom base acc (d :: ds)
        < (acc * base + digitValue base d + 1) * base ^ ds.length := ih _
      _ ≤ (acc + 1) * base * base ^ ds.length := Nat.mul_le_mul_right _ hstep
      _ = (acc + 1) * base ^ (d :: ds).length := by
        rw [List.length_cons, Nat.pow_succ, Nat.mul_assoc, Nat.mul_comm base]

end Numeral

structure Path.Named (p : Path) : Prop where
  value : p.world.value = .var "Iv"
  sender : p.world.sender = .var "Is"
  origin : p.world.origin = .var "Io"
  gasPrice : p.world.gasPrice = .var "Ip"
  timestamp : p.world.timestamp = .var "IH_s"
  number : p.world.number = .var "IH_i"
  address : p.vars.get? Names.address = some (.var "Ia")

theorem Path.Named.congr {p q : Path} (h : p.Named) (hw : q.world.transaction = p.world.transaction)
    (hv : q.vars = p.vars) : q.Named := by
  simp only [World.transaction, Prod.mk.injEq] at hw
  obtain ⟨⟨hvalue, hsender, -, hprice, horigin⟩, -, htime, hnumber, -⟩ := hw
  exact ⟨hvalue.trans h.value, hsender.trans h.sender, horigin.trans h.origin,
    hprice.trans h.gasPrice, htime.trans h.timestamp, hnumber.trans h.number, hv ▸ h.address⟩

def Value.Reads (env : Assignment) (v : Value) (w : Word) : Prop :=
  v.Over Numeral.Broken ∧ v.Stands env w

theorem Value.Reads.simplify {s : Simplifier} {env : Assignment} {v : Value} {w : Word}
    (hs : s.Sound) (h : v.Reads env w) : (s.value v).Reads env w :=
    ⟨over_simplify hs h.1, h.2.simplify hs⟩

theorem Value.reads_truth (env : Assignment) (b : Bool) :
    (Value.int (if b then 1 else 0)).Reads env (Word.truth b) :=
  ⟨trivial, (Word.truth_toNat b).symm⟩

/-- The items of the stack stand for these words. -/
structure Machine.Tracks (env : Assignment) (m : Machine) (words : List Word) : Prop where
  named : m.path.Named
  stack : List.Forall₂ (Value.Reads env) m.path.stack words

namespace Exec

variable {ctx : Context} {env : Assignment} {α : Type}
variable {op : WordOp}

/-- If the computation succeeds, the machine on words can execute the instruction, and the stacks
stay in step. -/
def Simulates (env : Assignment) (x : Exec Unit) (op : WordOp) : Prop :=
  ∀ m words m', m.Tracks env words → x.outcome m = (.ok (), m') →
    ∃ words', op.apply env words = some words' ∧ List.Forall₂ (Reads env) m'.path.stack words'

/-! ### Results -/

def Computes (env : Assignment) (w : Word) (x : Exec Value) : Prop :=
  ∀ m v m', x.outcome m = (.ok v, m') → v.Reads env w ∧ m'.path.stack = m.path.stack

theorem computes_ofExcept {w : Word} {x : Except Fault Value}
    (ho : Gives (Value.Over Numeral.Broken) x) (hs : Gives (Value.Stands env w) x) :
    Computes env w (ofExcept x) := by
  intro m v m' h
  obtain ⟨rfl, rfl⟩ := Prod.mk.inj h
  exact ⟨⟨ho v rfl, hs v rfl⟩, rfl⟩

theorem toUnsigned_toNat (x : Word) : toUnsigned x.toNat = x.toNat := if_neg (by omega)

section

variable (hsimplify : ctx.simplify.Sound)
include hsimplify

theorem reads_of_computes {m m' : Machine} {w : Word} {x : Exec Value} {rest : List Value}
    {words : List Word} (hx : Computes env w x) (hrest : List.Forall₂ (Reads env) rest words)
    (h : outcome (do let v ← x; push (ctx.simplify.value v)) (m.taken rest) = (.ok (), m')) :
    List.Forall₂ (Reads env) m'.path.stack (w :: words) := by
  obtain ⟨v, m₁, hv, hpush⟩ := outcome_bind_eq_ok.1 h
  obtain ⟨hreads, hsame⟩ := hx _ v m₁ hv
  cases hpush
  exact .cons (hreads.simplify hsimplify) (hsame ▸ hrest)

theorem simulates_binary {f : Value → Value → Exec Value} {g : Word → Word → Word}
    (hop : ∀ x y s, op.apply env (x :: y :: s) = some (g x y :: s))
    (hf : ∀ a b x y, a.Reads env x → b.Reads env y → Computes env (g x y) (f a b)) :
    Simulates env (binary ctx f) op := by
  intro m words m' ht h
  have hlen : 2 ≤ m.path.stack.length := items_of_need h
  have hstack := ht.stack
  generalize hs : m.path.stack = items at hlen hstack
  match items, words, hstack with
  | a :: b :: rest, x :: y :: s, .cons ha (.cons hb hrest) =>
    rw [outcome_binary ctx f hs] at h
    exact ⟨_, hop x y s, reads_of_computes hsimplify (hf a b x y ha hb) hrest h⟩

theorem simulates_unary {f : Value → Exec Value} {g : Word → Word}
    (hop : ∀ x s, op.apply env (x :: s) = some (g x :: s))
    (hf : ∀ a x, a.Reads env x → Computes env (g x) (f a)) : Simulates env (unary ctx f) op := by
  intro m words m' ht h
  have hlen : 1 ≤ m.path.stack.length := items_of_need h
  have hstack := ht.stack
  generalize hs : m.path.stack = items at hlen hstack
  match items, words, hstack with
  | a :: rest, x :: s, .cons ha hrest =>
    rw [outcome_unary ctx f hs] at h
    exact ⟨_, hop x s, reads_of_computes hsimplify (hf a x ha) hrest h⟩

/-! ### Arithmetic -/

theorem computes_wrapping {block : Int} {x : Except Fault Value} {known : Value → Bool}
    {question : Value → Except Fault Formula} {note : Exec Unit} {w : Word}
    (hx : Gives (fun v => v.Reads env w) x)
    (hnote : ∀ m m', note.outcome m = (.ok (), m') → m'.path.stack = m.path.stack) :
    Computes env w (wrapping ctx block x known question note) := by
  intro m v m' h
  obtain ⟨u, hu, h⟩ := outcome_ofExcept_bind_eq_ok.1 h
  have hreads := (hx u hu).simplify hsimplify
  obtain ⟨checked, m₁, hchecks, h⟩ := outcome_bind_eq_ok.1 h
  obtain ⟨-, rfl⟩ := Prod.mk.inj hchecks
  rw [noteWrap] at h
  split at h
  · split at h
    · obtain ⟨may, m₁, hmay, h⟩ := outcome_bind_eq_ok.1 h
      have hfirst : m.AlikeBut [.solver] m₁ := Touches.alike (touches_inquire _) hmay
      split at h
      · obtain ⟨_, m₂, hm₂, h⟩ := outcome_bind_eq_ok.1 h
        cases h
        exact ⟨hreads, (hnote _ _ hm₂).trans hfirst.stack⟩
      · cases h
        exact ⟨hreads, hfirst.stack⟩
    · cases h
      exact ⟨hreads, rfl⟩
  · cases h
    exact ⟨hreads, rfl⟩

theorem simulates_add (block : Int) : Simulates env (add ctx block) .add := by
  rw [add_eq]
  exact simulates_binary hsimplify (fun _ _ _ => rfl) fun a b x y ha hb =>
    computes_wrapping hsimplify
    (fun v hv => ⟨Arithmetic.gives_sum ha.1 hb.1 v hv, stands_sum ha.2 hb.2 v hv⟩)
    fun m m' h => by cases h; rfl

theorem simulates_sub (block : Int) : Simulates env (sub ctx block) .sub := by
  rw [sub_eq]
  exact simulates_binary hsimplify (fun _ _ _ => rfl) fun a b x y ha hb =>
    computes_wrapping hsimplify
    (fun v hv => ⟨Arithmetic.gives_difference ha.1 hb.1 v hv, stands_difference ha.2 hb.2 v hv⟩)
    fun m m' h => by cases h; rfl

theorem simulates_mul : Simulates env (mul ctx) .mul :=
  simulates_binary hsimplify (fun _ _ _ => rfl) fun _ _ _ _ ha hb =>
    computes_ofExcept (Arithmetic.gives_product ha.1 hb.1) (stands_product ha.2 hb.2)

/-! ### Comparisons and bits -/

theorem simulates_compare {reading : Int → Int} {onInts : Int → Int → Bool}
    {onSymbols : Value → Value → Except Fault Condition} (rel : Word → Word → Bool)
    (hop : ∀ x y s, op.apply env (x :: y :: s) = some (Word.truth (rel x y) :: s))
    (hints : ∀ x y : Word, onInts (reading x.toNat) (reading y.toNat) = rel x y)
    (hover : ∀ a b : Value, a.Over Numeral.Broken → b.Over Numeral.Broken →
      Gives (Condition.Over Numeral.Broken) (onSymbols a b))
    (hsymbols : ∀ a b x y, a.Stands env x → b.Stands env y → (∀ m n, a ≠ .int m ∨ b ≠ .int n) →
      Gives (fun c => c.formula.eval env = rel x y) (onSymbols a b)) :
    Simulates env (compare ctx reading onInts onSymbols) op := by
  refine simulates_binary hsimplify hop fun a b x y ha hb m v m' h => ?_
  have hcondition (hterm : ∀ m n, a ≠ .int m ∨ b ≠ .int n)
      (h : outcome (do return oneOrZero (← ofExcept (onSymbols a b))) m = (.ok v, m')) :
      v.Reads env (Word.truth (rel x y)) ∧ m'.path.stack = m.path.stack := by
    obtain ⟨c, hc, h⟩ := outcome_ofExcept_bind_eq_ok.1 h
    cases h
    have heval := hsymbols a b x y ha.2 hb.2 hterm c hc
    exact ⟨⟨over_oneOrZero (hover a b ha.1 hb.1 c hc), stands_oneOrZero heval⟩, rfl⟩
  obtain rfl | ⟨s, rfl, -⟩ := ha.2.cases <;> obtain rfl | ⟨t, rfl, -⟩ := hb.2.cases
  · obtain ⟨hv, rfl⟩ := Prod.mk.inj h
    cases hv
    rw [hints]
    exact ⟨reads_truth env (rel x y), rfl⟩
  · exact hcondition (fun _ _ => .inr nofun) h
  · exact hcondition (fun _ _ => .inl nofun) h
  · exact hcondition (fun _ _ => .inl nofun) h

theorem simulates_lt : Simulates env (lt ctx) .lt := by
  refine simulates_compare hsimplify (fun x y => x.ult y) (fun _ _ _ => rfl) (fun x y => ?_)
    (fun _ _ => gives_unsignedOrder .ult) fun _ _ _ _ ha hb _ => holds_unsignedOrder .ult ha hb
  simp [toUnsigned_toNat, BitVec.ult]

theorem simulates_gt : Simulates env (gt ctx) .gt := by
  refine simulates_compare hsimplify (fun x y => y.ult x) (fun _ _ _ => rfl) (fun x y => ?_)
    (fun _ _ => gives_unsignedOrder .ugt) fun _ _ _ _ ha hb _ => holds_unsignedOrder .ugt ha hb
  simp [toUnsigned_toNat, BitVec.ult]

theorem simulates_eq : Simulates env (eq ctx) .eq := by
  refine simulates_compare hsimplify (fun x y => x == y) (fun _ _ _ => rfl) (fun x y => ?_)
    (fun _ _ => gives_eq) fun _ _ _ _ ha hb hterm => holds_eq ha hb hterm
  simp only [id, Nat.cast_inj, BitVec.toNat_inj]
  rfl

theorem simulates_isZero : Simulates env (isZero ctx) .isZero := by
  refine simulates_unary hsimplify (fun _ _ => rfl) fun a x ha m v m' h => ?_
  obtain rfl | ⟨t, rfl, -⟩ := ha.2.cases
  · cases h
    have hzero : ((x.toNat : Int) = 0) ↔ (x == 0) = true := by simp [BitVec.toNat_eq]
    simp only [hzero]
    exact ⟨reads_truth env (x == 0), trivial⟩
  · obtain ⟨c, hc, h⟩ := outcome_ofExcept_bind_eq_ok.1 h
    cases h
    have hover := gives_eq ha.1 (over_int 0) c hc
    have heval := holds_eq ha.2 (stands_int 0) (fun _ _ => .inl nofun) c hc
    exact ⟨⟨over_oneOrZero hover, stands_oneOrZero heval⟩, rfl⟩

theorem simulates_bitwise {op : Binary} {onInts : Int → Int → Int} {wordOp : WordOp}
    (hop : ∀ x y s, wordOp.apply env (x :: y :: s) = some (op.apply x y :: s))
    (hints : ∀ x y : Word, onInts x.toNat y.toNat = (op.apply x y).toNat) :
    Simulates env (bitwise ctx (Value.bitwise op onInts)) wordOp :=
  simulates_binary hsimplify hop fun _ _ x y ha hb =>
    computes_ofExcept (gives_bitwise op onInts ha.1 hb.1)
      (stands_bitwise ha.2 hb.2 rfl (hints x y))

theorem simulates_not : Simulates env (not ctx) .not := by
  refine simulates_unary hsimplify (fun _ _ => rfl) fun a x ha =>
    computes_ofExcept ?_ (stands_bitNot ha.2)
  exact (gives_bitNot ha.1).bind fun _ h => gives_bitwise _ _ h (over_int _)

/-! ### The stack -/

end

section Stacks

variable {σ τ : Type} {R : σ → τ → Prop} {xs : List σ} {ys : List τ}

theorem forall₂_getElem? (h : List.Forall₂ R xs ys) {i : Nat} {x : σ} (hx : xs[i]? = some x) :
    ∃ y, ys[i]? = some y ∧ R x y := by
  induction h generalizing i with
  | nil => cases hx
  | cons hr _ ih =>
    cases i with
    | zero =>
      cases hx
      exact ⟨_, rfl, hr⟩
    | succ i => exact ih hx

theorem forall₂_set (h : List.Forall₂ R xs ys) {x : σ} {y : τ} (hr : R x y) (i : Nat) :
    List.Forall₂ R (xs.set i x) (ys.set i y) := by
  induction h generalizing i with
  | nil => exact .nil
  | cons hr' h ih =>
    cases i with
    | zero => exact .cons hr h
    | succ i => exact .cons hr' (ih i)

end Stacks

theorem simulates_jumpDest : Simulates env (advance 1) .jumpDest := by
  intro m words m' ht h
  cases h
  exact ⟨words, rfl, ht.stack⟩

theorem simulates_pushPart {f : Path → Value} {name : String}
    (hf : ∀ p : Path, p.Named → f p = .var name) (hname : Numeral.Broken name) :
    Simulates env (pushPart f) (.read name) := by
  intro m words m' ht h
  cases h
  have hnamed : Path.Named
      { m.path with world := { m.path.world with pc := m.path.world.pc + 1 } } :=
    ht.named.congr rfl rfl
  refine ⟨_, rfl, .cons ?_ ht.stack⟩
  rw [hf _ hnamed]
  exact ⟨hname, rfl⟩

theorem simulates_address : Simulates env address (.read "Ia") := by
  intro m words m' ht h
  have haddress := ht.named.address
  rw [address, outcome_bind, outcome_advance] at h
  dsimp only at h
  rw [outcome_bind_getPath, haddress] at h
  cases h
  exact ⟨_, rfl, .cons ⟨Numeral.broken_of_any (by decide), rfl⟩ ht.stack⟩

theorem simulates_push {width : Int} {n : Nat} (hn : n < 2 ^ 256) :
    Simulates env (pushOperand ctx (some width) (.value n)) (.push (BitVec.ofNat 256 n)) := by
  intro m words m' ht h
  cases h
  refine ⟨_, rfl, .cons ?_ ht.stack⟩
  have hvalue : (Value.int n).Stands env (BitVec.ofNat 256 n) := by
    rw [Value.Stands, BitVec.toNat_ofNat, Nat.mod_eq_of_lt hn]
  split
  · obtain ⟨t, ht, hlift⟩ := hvalue.lift
    exact ⟨over_lift (over_int n), ht ▸ hlift⟩
  · exact ⟨over_int n, hvalue⟩

theorem simulates_pop : Simulates env popItem .pop := by
  intro m words m' ht h
  have hlen : 1 ≤ m.path.stack.length := items_of_need h
  have hstack := ht.stack
  generalize hs : m.path.stack = items at hlen hstack
  match items, words, hstack with
  | a :: rest, x :: s, .cons ha hrest =>
    rw [popItem, ignore, outcome_need_advance _ (by simp [hs]), hs] at h
    cases h
    exact ⟨s, rfl, hrest⟩

theorem getElem?_of_itemAt {xs : List Value} {k : Nat} {v : Value} (h : itemAt xs k = .ok v) :
    xs[k]? = some v := by
  rw [itemAt_natCast] at h
  cases hk : xs[k]? with
  | none =>
    rw [hk] at h
    cases h
  | some u =>
    rw [hk] at h
    cases h
    rfl

theorem simulates_dup (k : Nat) : Simulates env (dup (some (k + 1 : Nat))) (.dup k) := by
  intro m words m' ht h
  rw [dup, outcome_bind, outcome_advance] at h
  dsimp only at h
  obtain ⟨n, m₁, hn, h⟩ := outcome_bind_eq_ok.1 h
  cases hn
  rw [outcome_bind_getPath, show ((k + 1 : Nat) : Int) - 1 = (k : Nat) by omega] at h
  split at h
  · cases h
  · obtain ⟨v, hv, h⟩ := outcome_ofExcept_bind_eq_ok.1 h
    cases h
    obtain ⟨w, hw, hr⟩ := forall₂_getElem? ht.stack (getElem?_of_itemAt hv)
    exact ⟨w :: words, congrArg (Option.map (· :: words)) hw, .cons hr ht.stack⟩

theorem simulates_swap (k : Nat) : Simulates env (swap (some (k + 1 : Nat))) (.swap k) := by
  intro m words m' ht h
  rw [swap, outcome_bind, outcome_advance] at h
  dsimp only at h
  obtain ⟨n, m₁, hn, h⟩ := outcome_bind_eq_ok.1 h
  cases hn
  rw [outcome_bind_getPath] at h
  split at h
  · cases h
  · obtain ⟨deep, hdeep, h⟩ := outcome_ofExcept_bind_eq_ok.1 h
    obtain ⟨top, htop, h⟩ := outcome_ofExcept_bind_eq_ok.1 h
    cases h
    have hstack := ht.stack
    have hdeep := getElem?_of_itemAt hdeep
    have htop := @getElem?_of_itemAt _ 0 _ htop
    have hset (items : List Value) : setItem (setItem items (k + 1 : Nat) top) 0 deep =
        (items.set (k + 1) top).set 0 deep := by
      rw [setItem, setItem, if_neg (by omega), if_neg (by omega)]
      rfl
    generalize hs : m.path.stack = items at hdeep htop hstack
    match items, words, hstack with
    | a :: rest, x :: s, .cons ha hrest =>
      cases htop
      obtain ⟨y, hy, hr⟩ := forall₂_getElem? hrest hdeep
      refine ⟨y :: s.set k x, congrArg (Option.map fun b => b :: s.set k x) hy, ?_⟩
      dsimp only
      rw [hset]
      exact .cons hr (forall₂_set hrest ha k)

/-! ### Lines -/

def Agrees (ctx : Context) (env : Assignment) (site : Site) (name : String) (op : Operation)
    (wordOp : WordOp) : Prop :=
  (footprint op).contains .vars = false ∧ Simulates env (perform ctx site name op) wordOp

theorem broken_of_head {name : String} (h : name.toList.head? = some 'I') : Numeral.Broken name :=
  .inl ⟨'I', List.mem_of_head? h, by decide⟩

theorem ofWords_dup {k : Nat} (hk : k < 16) (rest : List String) :
    Operation.ofWords ("DUP" ++ toString (k + 1)) rest = .dup (some (k + 1 : Nat)) := by
  interval_cases k <;> rfl

theorem ofWords_swap {k : Nat} (hk : k < 16) (rest : List String) :
    Operation.ofWords ("SWAP" ++ toString (k + 1)) rest = .swap (some (k + 1 : Nat)) := by
  interval_cases k <;> rfl

theorem ofWords_push {width : Nat} (hpos : 1 ≤ width) (hle : width ≤ 32) (rest : List String) :
    Operation.ofWords ("PUSH" ++ toString width) rest =
      .push (some (width : Int)) (Operation.operandOf rest) := by
  interval_cases width <;> rfl

theorem agrees_named (hsimplify : ctx.simplify.Sound) (site : Site) (rest : List String) :
    ∀ e ∈ WordOp.named, e.2.goesOn = true → Agrees ctx env site e.1 (.ofWords e.1 rest) e.2 := by
  have hread {f : Path → Value} {name : String} (hf : ∀ p : Path, p.Named → f p = .var name)
      (hname : name.toList.head? = some 'I') : Simulates env (pushPart f) (.read name) :=
    simulates_pushPart hf (broken_of_head hname)
  simp only [WordOp.named, List.forall_mem_append, List.forall_mem_cons, List.forall_mem_map,
    List.mem_range]
  refine ⟨⟨⟨fun _ => ⟨rfl, simulates_pop⟩, fun _ => ⟨rfl, simulates_add hsimplify site.block⟩,
    fun _ => ⟨rfl, simulates_mul hsimplify⟩, fun _ => ⟨rfl, simulates_sub hsimplify site.block⟩,
    fun _ => ⟨rfl, simulates_lt hsimplify⟩, fun _ => ⟨rfl, simulates_gt hsimplify⟩,
    fun _ => ⟨rfl, simulates_eq hsimplify⟩,
    fun _ => ⟨rfl, simulates_isZero hsimplify⟩,
    fun _ => ⟨rfl, simulates_bitwise hsimplify (fun _ _ _ => rfl) Word.intAnd_toNat⟩,
    fun _ => ⟨rfl, simulates_bitwise hsimplify (fun _ _ _ => rfl) Word.intOr_toNat⟩,
    fun _ => ⟨rfl, simulates_bitwise hsimplify (fun _ _ _ => rfl) Word.intXor_toNat⟩,
    fun _ => ⟨rfl, simulates_not hsimplify⟩,
    fun _ => ⟨rfl, hread (fun _ h => h.value) rfl⟩, fun _ => ⟨rfl, hread (fun _ h => h.sender) rfl⟩,
    fun _ => ⟨rfl, simulates_address⟩, fun _ => ⟨rfl, hread (fun _ h => h.origin) rfl⟩,
    fun _ => ⟨rfl, hread (fun _ h => h.gasPrice) rfl⟩,
    fun _ => ⟨rfl, hread (fun _ h => h.timestamp) rfl⟩,
    fun _ => ⟨rfl, hread (fun _ h => h.number) rfl⟩, fun _ => ⟨rfl, simulates_jumpDest⟩,
    nofun, nofun, nofun, nofun⟩, fun k hk _ => ?_⟩, fun k hk _ => ?_⟩
  · rw [ofWords_dup hk rest]
    exact ⟨rfl, simulates_dup k⟩
  · rw [ofWords_swap hk rest]
    exact ⟨rfl, simulates_swap k⟩

theorem agrees_push {l : Listing.Line} {digits : String} {width : Nat}
    (ho : l.operand = some digits) (hm : l.mnemonic = "PUSH" ++ toString width) (hpos : 1 ≤ width)
    (hle : width ≤ 32) (hlen : digits.length ≤ 2 * width) (site : Site) :
    Agrees ctx env site l.mnemonic (.ofWords l.mnemonic l.words)
      (.push (BitVec.ofNat 256 (Numeral.valueFrom 16 0 digits.toList))) := by
  have hoperand : Operation.operandOf l.words = .value (Numeral.valueFrom 16 0 digits.toList) := by
    obtain ⟨hne, hhex⟩ := Listing.Line.operand_digits ho
    have hword : "0x" ++ digits = String.ofList ('0' :: 'x' :: digits.toList) := by
      rw [← String.toList_inj]
      simp
    have hread := Numeral.read_hex hne hhex
    rw [Listing.Line.words, ho]
    dsimp only
    rw [hword, Operation.operandOf, hread]
  have hop : Operation.ofWords l.mnemonic l.words =
      .push (some (width : Int)) (.value (Numeral.valueFrom 16 0 digits.toList)) := by
    rw [hm, ofWords_push hpos hle, hoperand]
  have hbound : Numeral.valueFrom 16 0 digits.toList < 2 ^ 256 := by
    have hpow : 16 ^ digits.toList.length ≤ 16 ^ 64 := by
      rw [String.length_toList]
      exact Nat.pow_le_pow_right (by omega) (by omega)
    calc Numeral.valueFrom 16 0 digits.toList < (0 + 1) * 16 ^ digits.toList.length :=
          Numeral.valueFrom_lt (by omega) 0 _
      _ ≤ 1 * 16 ^ 64 := Nat.mul_le_mul_left 1 hpow
      _ = 2 ^ 256 := by norm_num
  rw [hop]
  exact ⟨rfl, simulates_push hbound⟩

theorem agrees_line (hsimplify : ctx.simplify.Sound) {l : Listing.Line} {op : WordOp}
    (h : l.wordOp? = some op) (hgo : op.goesOn = true) (site : Site) :
    Agrees ctx env site (Instruction.ofText l.text).name (Instruction.ofText l.text).operation
      op := by
  rw [Listing.Line.ofText_text]
  dsimp only
  unfold Listing.Line.wordOp? at h
  split at h
  · obtain ⟨before, after, htable, -⟩ := List.lookup_eq_some_iff.1 h
    exact agrees_named hsimplify site l.words (l.mnemonic, op) (htable ▸ by simp) hgo
  next digits ho =>
    obtain ⟨width, hwidth, h⟩ := Option.bind_eq_some_iff.1 h
    split at h
    next hlen =>
      cases h
      have hmem := List.mem_of_find?_eq_some hwidth
      have hm : l.mnemonic = "PUSH" ++ toString width := by simpa using List.find?_some hwidth
      obtain ⟨k, hk, rfl⟩ := List.mem_map.1 hmem
      have := List.mem_range.1 hk
      exact agrees_push ho hm (by omega) (by omega) hlen site
    · cases h

theorem performs_tracked {site : Site} {text : String} {operation : Operation} {m m' : Machine}
    {words : List Word} (hop : (Instruction.ofText text).operation = operation)
    (hvars : (footprint operation).contains .vars = false) (ht : m.Tracks env words)
    (h : Traces ctx site text m m') : ∃ m₁ m₂, m₁.Tracks env words ∧
      (perform ctx site (Instruction.ofText text).name operation).outcome m₁ = (.ok (), m₂) ∧
      m'.shared.graph = m₂.shared.graph ∧
      ∀ words', List.Forall₂ (Reads env) m₂.path.stack words' → m'.Tracks env words' := by
  subst hop
  obtain ⟨m₁, m₂, -, hbefore, heffect, hafter⟩ := performs_of_traced h
  have htransaction : .transaction ∉ footprint (Instruction.ofText text).operation := by
    cases (Instruction.ofText text).operation <;> simp [footprint]
  have hnamed : m'.path.Named :=
    ht.named.congr (part_traced (p := .transaction) (by decide) htransaction h)
    (part_traced (p := .vars) (by decide) (by simpa using hvars) h)
  exact ⟨m₁, m₂,
    ⟨ht.named.congr (hbefore .transaction (by decide)) hbefore.vars, hbefore.stack ▸ ht.stack⟩,
    heffect, hafter.graph, fun words' hstack => ⟨hnamed, hafter.stack ▸ hstack⟩⟩

theorem tracks_traced (hsimplify : ctx.simplify.Sound) {l : Listing.Line} {op : WordOp}
    {site : Site} {m m' : Machine} {words : List Word} (hl : l.wordOp? = some op)
    (hgo : op.goesOn = true) (ht : m.Tracks env words) (h : Traces ctx site l.text m m') :
    ∃ words', op.apply env words = some words' ∧ m'.Tracks env words' := by
  obtain ⟨hvars, hsimulates⟩ := @agrees_line ctx env hsimplify l op hl hgo site
  obtain ⟨m₁, m₂, ht₁, hperform, -, hkeeps⟩ := performs_tracked rfl hvars ht h
  obtain ⟨words', happly, hstack⟩ := hsimulates m₁ words m₂ ht₁ hperform
  exact ⟨words', happly, hkeeps words' hstack⟩

end Exec

end EvmAudit
