import Mathlib.Data.List.Chain
import EvmAudit.Proofs.Explore.Entry
import EvmAudit.Proofs.Graph.Shape

/-! The program counter within a block. It keeps to the addresses of the listing up to the first
instruction that does not move it on. -/

namespace EvmAudit

def Operation.bytes : Operation → Int
  | .push (some width) _ => 1 + width
  | _ => 1

theorem Operation.ofWords_cases (name : String) (rest : List String) :
    named.lookup name = some (ofWords name rest) ∨ named.lookup name = none ∧
      ((∃ width, ofWords name rest = push width (operandOf rest)) ∨
        (∃ depth, ofWords name rest = dup depth) ∨
        (∃ s, suffix? name "SWAP" = some s ∧ ofWords name rest = swap (Numeral.read 10 s)) ∨
        ofWords name rest = unknown) := by
  unfold ofWords
  split
  next op h =>
    exact .inl h
  next h =>
    refine .inr ⟨h, ?_⟩
    split
    · exact .inl ⟨_, rfl⟩
    · exact .inr (.inl ⟨_, rfl⟩)
    next s hs _ _ =>
      exact .inr (.inr (.inl ⟨s, hs, rfl⟩))
    · exact .inr (.inr (.inr rfl))

namespace Listing

def Line.bytes (l : Line) : Int := (Instruction.ofText l.text).operation.bytes

/-- Instructions other than jumps that leave the program counter where it is. -/
def Line.lags (l : Line) : Bool :=
  ["CODESIZE", "INVALID", "ASSERTFAIL", "RETURN"].contains l.mnemonic

/-- Every line stands directly behind the bytes of the one before it. -/
def Code.Packed (c : Code) : Prop :=
  c.lines.IsChain fun l n => (n.address : Int) = l.address + l.bytes

namespace Line

variable {l : Line}

theorem nonneg_of_suffix {family s : String} {n : Int}
    (hs : Operation.suffix? l.mnemonic family = some s) (hn : Numeral.read 10 s = some n) :
    0 ≤ n := by
  obtain ⟨cs, hcs, rfl⟩ := Option.map_eq_some_iff.1 hs
  obtain ⟨c, rest, hmnemonic, hc, hrest⟩ := l.exists_mnemonic
  have halnum : ∀ d ∈ cs, d.isAlphanum = true := by
    intro d hd
    have hmem := mem_of_dropStart? hcs hd
    rw [hmnemonic] at hmem
    rcases List.mem_cons.1 hmem with rfl | hmem
    · simp [Char.isAlphanum, hc]
    · exact hrest d hmem
  rw [Numeral.read_alphanum halnum] at hn
  obtain ⟨_, hk, rfl⟩ := Option.map_eq_some_iff.1 hn
  obtain ⟨k, -, hk⟩ := Option.bind_eq_some_iff.1 hk
  cases hk
  exact Int.natCast_nonneg k

theorem passed_named : ∀ e ∈ Operation.named, e.1 = "JUMP" ∨ e.1 = "JUMPI" ∨
    (Exec.uses e.2).map Motion.passed =
      some (if ["CODESIZE", "INVALID", "ASSERTFAIL", "RETURN"].contains e.1 then 0 else
        e.2.bytes) := by
  decide +kernel

theorem passed_of_uses (hjumps : l.jumps = false) {s : Motion}
    (h : Exec.uses (Instruction.ofText l.text).operation = some s) :
    s.passed = if l.lags then 0 else l.bytes := by
  rw [bytes, lags]
  rw [ofText_text] at h ⊢
  dsimp only at h ⊢
  rcases Operation.ofWords_cases l.mnemonic l.words with hlookup | ⟨hlookup, hfamily⟩
  · have hmem := mem_of_lookup hlookup
    rcases passed_named _ hmem with hj | hj | hpassed
    · simp [jumps, show l.mnemonic = "JUMP" from hj] at hjumps
    · simp [jumps, show l.mnemonic = "JUMPI" from hj] at hjumps
    · rw [h] at hpassed
      exact Option.some.inj hpassed
  · have hlags : (["CODESIZE", "INVALID", "ASSERTFAIL", "RETURN"] : List String).contains
        l.mnemonic = false := by
      by_contra hlag
      simp only [Bool.not_eq_false, List.contains_iff_mem, List.mem_cons, List.not_mem_nil,
        or_false] at hlag
      rcases hlag with hlag | hlag | hlag | hlag <;> rw [hlag] at hlookup <;>
        exact absurd hlookup (by decide)
    rw [hlags, if_neg Bool.false_ne_true]
    rcases hfamily with ⟨width, hop⟩ | ⟨depth, hop⟩ | ⟨s', -, hop⟩ | hop <;> rw [hop] at h ⊢
    · cases width <;> cases h
      rfl
    · cases depth <;> cases h
      rfl
    · generalize Numeral.read 10 s' = depth at h ⊢
      rcases depth with _ | _ | _ <;> cases h
      rfl
    · cases h

theorem bytes_of_lags (h : l.lags = true) : l.bytes = 1 := by
  rw [bytes, ofText_text]
  simp only [lags, List.contains_iff_mem, List.mem_cons, List.not_mem_nil, or_false] at h
  rcases h with h | h | h | h <;> rw [h] <;> rfl

theorem not_negative (l : Line) (k : Nat) :
    (Instruction.ofText l.text).operation ≠ .swap (some (.negSucc k)) := by
  rw [ofText_text]
  intro h
  rcases Operation.ofWords_cases l.mnemonic l.words with hlookup | ⟨-, hfamily⟩
  · have hall : ∀ e ∈ Operation.named, e.2.ctorIdx ≠ (Operation.swap none).ctorIdx := by decide
    have hswap := congrArg Operation.ctorIdx h
    exact hall _ (mem_of_lookup hlookup) hswap
  · dsimp only at h
    rcases hfamily with ⟨width, hop⟩ | ⟨depth, hop⟩ | ⟨s, hs, hop⟩ | hop <;> rw [hop] at h
    · cases h
    · cases h
    · have := nonneg_of_suffix hs (Operation.swap.inj h)
      simp at this
    · cases h

end Line

end Listing

namespace Exec

open Listing

variable {ctx : Context} {entries : Table Int String} {site : Site}

theorem pc_traced {l : Line} (hjumps : l.jumps = false) {m m' : Machine}
    (h : Traces ctx site l.text m m') :
    m'.path.world.pc = m.path.world.pc + if l.lags then 0 else l.bytes := by
  cases huses : uses (Instruction.ofText l.text).operation with
  | none =>
    have hpc (s : Motion) : m'.marks.pc = m.marks.pc + s.passed :=
      ((moves_unread huses l.not_negative).of_perform.of_step m.marks m
        (Motion.reached_start site.caller m.marks)).2 () m' h |>.pc
    exact hpc ⟨0, 0, _⟩
  | some s =>
    rw [← Line.passed_of_uses hjumps huses]
    exact ((moves_step huses).of_step m.marks m (Motion.reached_start site.caller m.marks)).2 ()
      m' h |>.pc

theorem pc_runAll {before : List Line} {first l : Line}
    (hpacked : (before ++ [l]).IsChain fun l n => (n.address : Int) = l.address + l.bytes)
    (hfirst : (before ++ [l]).head? = some first) (hjumps : ∀ n ∈ before, n.jumps = false)
    {m m' : Machine} {d : Int} (hpc : m.path.world.pc + d = first.address)
    (h : (runAll ctx site (before.map Line.text)).outcome m = (.ok (), m')) :
    m'.path.world.pc + d + before.countP Line.lags = l.address := by
  induction before generalizing m first d with
  | nil =>
    cases h
    cases hfirst
    simpa using hpc
  | cons n before ih =>
    cases hfirst
    obtain ⟨_, m₁, htraced, hrest⟩ := outcome_bind_eq_ok.1 h
    have hn := pc_traced (hjumps n List.mem_cons_self) htraced
    obtain ⟨hhead, hchain⟩ := List.isChain_cons.1 hpacked
    obtain ⟨next, hnext⟩ : ∃ next, (before ++ [l]).head? = some next := by
      cases before <;> exact ⟨_, rfl⟩
    have haddress : (next.address : Int) = n.address + n.bytes := hhead next hnext
    have hrestjumps (k : Line) (hk : k ∈ before) : k.jumps = false :=
      hjumps k (List.mem_cons_of_mem n hk)
    cases hlags : n.lags with
    | true =>
      have hpc₁ : m₁.path.world.pc + (d + 1) = next.address := by
        rw [hn, hlags, haddress, Line.bytes_of_lags hlags, if_pos rfl]
        omega
      have := ih hchain hnext hrestjumps hpc₁ hrest
      rw [List.countP_cons_of_pos hlags]
      omega
    | false =>
      have hpc₁ : m₁.path.world.pc + d = next.address := by
        rw [hn, hlags, haddress, if_neg Bool.false_ne_true]
        omega
      have := ih hchain hnext hrestjumps hpc₁ hrest
      rwa [List.countP_cons_of_neg (by simp [hlags])]

end Exec

namespace Listing

theorem jumps_of_body {known jumped : Bool} {rest inner after : List Line} {n : Line}
    (h : body known jumped rest = inner ++ n :: after) :
    jumped = false ∧ ∀ l ∈ inner, l.jumps = false := by
  induction rest generalizing known jumped inner with
  | nil => simp [body] at h
  | cons m rest ih =>
    rw [body] at h
    split at h
    · simp at h
    next hend =>
      simp only [Bool.or_eq_true, not_or, Bool.not_eq_true] at hend
      split at h
      · simp at h
      · cases inner with
        | nil => exact ⟨hend.1, by simp⟩
        | cons x inner =>
          obtain ⟨rfl, hinner⟩ := List.cons.inj h
          obtain ⟨hx, hall⟩ := ih hinner
          exact ⟨hend.1, List.forall_mem_cons.2 ⟨hx, hall⟩⟩

namespace Code

variable {c : Code} {k : Int} {b : Block} {before after : List Line} {l : Line}

theorem span_lines (hb : c.linked.blocks.get? k = some b)
    (hspan : c.span c.linked k = before ++ l :: after) : before ++ [l] <:+: c.lines ∧
    (∀ n ∈ before, n.jumps = false) ∧
      (before ++ [l]).head?.map (fun n => (n.address : Int)) = some k := by
  obtain ⟨front, first, rest, hc, -, rfl, hbody, -⟩ := shape_linked hb
  have hpart : c.span c.linked first.address <:+: c.lines := by
    obtain ⟨tail, htail⟩ := body_isPrefix (first.closes || presets front first) first.jumps rest
    exact ⟨front, tail, by rw [hbody, hc, List.append_assoc, List.cons_append, htail]⟩
  rw [hbody] at hspan
  refine ⟨?_, ?_, ?_⟩
  · refine List.IsInfix.trans ⟨[], after, ?_⟩ hpart
    rw [hbody, hspan]
    simp
  · cases before with
    | nil => simp
    | cons n before =>
      obtain ⟨rfl, hinner⟩ := List.cons.inj hspan
      obtain ⟨hfirst, hall⟩ := jumps_of_body hinner
      exact List.forall_mem_cons.2 ⟨hfirst, hall⟩
  · cases before with
    | nil =>
      obtain ⟨rfl, -⟩ := List.cons.inj hspan
      rfl
    | cons n before =>
      obtain ⟨rfl, -⟩ := List.cons.inj hspan
      rfl

end Code

end Listing

namespace Exec

open Listing

/-- The instructions of a block that is entered with the program counter at its address: before each
of them the program counter is behind the address of its line by the number of lines that lag, so it
is that address exactly if there is none; and whatever the instruction notes, it notes there. -/
theorem pc_of_line (c : Code) (hpacked : c.Packed) (ctx : Context) (entries : Table Int String)
    {v : Visit} {m m₀ : Machine} {site : Site} {texts : List String}
    (hgraph : c.linked.Same m.shared.graph) (hpc : m.path.world.pc = v.block)
    (henter : (enter ctx entries v).outcome m = (.ok (some (site, texts)), m₀)) :
    texts = (c.span c.linked v.block).map Line.text ∧
    ∀ before l after, c.span c.linked v.block = before ++ l :: after →
      ∀ m', (runAll ctx site (before.map Line.text)).outcome m₀ = (.ok (), m') →
        m'.path.world.pc + before.countP Line.lags = l.address ∧
        (m'.path.world.pc = l.address ↔ ∀ n ∈ before, n.lags = false) ∧
        m'.marks.Notes m'.path.world.pc site.caller
          ((traced ctx site l.text).outcome m').2.marks := by
  obtain ⟨-, rfl, -, -, b, hb, rfl⟩ := enter_some henter
  have hfixed := hgraph.blocks v.block
  rw [hb] at hfixed
  obtain ⟨b', hb', hsame⟩ := Option.map_eq_some_iff.1 hfixed.symm
  have htexts : b.instructions = b'.instructions := (congrArg Block.instructions hsame).symm
  obtain ⟨-, -, -, -, -, -, -, -, hspanned, -⟩ := Code.shape_linked hb'
  refine ⟨htexts.trans hspanned, fun before l after hspan m' hrun => ?_⟩
  obtain ⟨hpart, hjumps, hhead⟩ := Code.span_lines hb' hspan
  obtain ⟨first, hfirst, haddress⟩ := Option.map_eq_some_iff.1 hhead
  have hbegin : (m.counted v.edge).path.world.pc + 0 = first.address := by
    rw [haddress, ← hpc]
    exact Int.add_zero _
  have hchain := List.IsChain.infix hpacked hpart
  have hbehind := pc_runAll hchain hfirst hjumps hbegin hrun
  rw [Int.add_zero] at hbehind
  have hnone : before.countP Line.lags = 0 ↔ ∀ n ∈ before, n.lags = false := by
    rw [List.countP_eq_zero]
    simp
  refine ⟨hbehind, ?_, notes_traced site l.text m'⟩
  rw [← hnone]
  omega

def sizeFirst : Code := .ofDrafts
  [⟨0, "CODESIZE", none⟩, ⟨1, "CALLER", none⟩, ⟨2, "STOP", none⟩]

theorem packed_sizeFirst : sizeFirst.Packed := by
  simp only [Code.Packed, sizeFirst]
  decide

/-- The only block of this code is entered, and its second line is behind by one. -/
theorem pc_of_line_sizeFirst : ∃ site texts m₀ m',
    (enter { code := some "383300\n" } {} ⟨0, 0, -1, "fallback"⟩).outcome
      { shared := { graph := sizeFirst.linked } } = (.ok (some (site, texts)), m₀) ∧
    (runAll { code := some "383300\n" } site ["CODESIZE "]).outcome m₀ = (.ok (), m') ∧
    m'.path.world.pc + 1 = 1 := by
  have hblock : (sizeFirst.linked.blocks.get? 0).map Block.instructions =
      some ["CODESIZE ", "CALLER ", "STOP "] := by
    rw [Code.linked_sorted]
    decide +kernel
  obtain ⟨b, hb, htexts⟩ := Option.map_eq_some_iff.1 hblock
  have henter := @enter_of_block { code := some "383300\n" } {} ⟨0, 0, -1, "fallback"⟩
    { shared := { graph := sizeFirst.linked } } b rfl (by decide) (by decide) (by decide) hb
  have hspan : sizeFirst.span sizeFirst.linked 0 =
      [sizeFirst.lines[0]] ++ sizeFirst.lines[1] :: [sizeFirst.lines[2]] := by
    rw [Code.span, hb]
    simp only [htexts]
    rfl
  obtain ⟨-, hlines⟩ := pc_of_line sizeFirst packed_sizeFirst _ {} (.refl _) rfl henter
  exact ⟨_, _, _, _, henter, rfl, (hlines _ _ _ hspan _ rfl).1⟩

/-- The caller is asked for with the program counter still at the first instruction. -/
theorem codeSize_lags : sizeFirst.Packed ∧ ∃ m',
    (runAll { code := some "383300\n" } ⟨0, -1, "fallback"⟩ ["CODESIZE "]).outcome
      { shared := { graph := sizeFirst.linked } } = (.ok (), m') ∧
    m'.path.world.pc = 0 ∧ sizeFirst.lines[1]?.map Line.text = some "CALLER " ∧
    sizeFirst.lines[1]?.map Line.address = some 1 :=
  ⟨packed_sizeFirst, _, rfl, rfl, rfl, rfl⟩

end Exec

end EvmAudit
