import EvmAudit.Proofs.Explore.Edges
import EvmAudit.Proofs.Explore.Feasible
import EvmAudit.Proofs.Machine.Simulation

/-! Soundness of the paths. Under every assignment that satisfies the assertions of the solver, the
machine on words runs through the blocks on the way to a call, and comes to its block with the words
that the items of the stack stand for. -/

namespace EvmAudit

theorem Value.Stands.isSet_iff {env : Assignment} {v : Value} {w : Word} (h : v.Stands env w) :
    v.IsNumber ∧ (v.IsSet env ↔ w ≠ 0) := by
  obtain rfl | ⟨t, rfl, ht⟩ := h.cases
  · refine ⟨trivial, not_congr ?_⟩
    rw [Int.natCast_eq_zero, ← BitVec.toNat_inj]
    rfl
  · exact ⟨trivial, not_congr (by rw [ht])⟩

namespace Exec

variable {ctx : Context} {entries : Table Int String} {env : Assignment} {code : Listing.Code}
variable {m m' m₁ : Machine} {l last : Listing.Line} {words words' : List Word} {k next : Int}
  {b b' : Block} {site : Site} {v : Visit} {o : Onward} {front : List Listing.Line} {c : Condition}
  {target : Except Fault Int} {path : List (Int × Int)}

/-! ### Blocks -/

theorem operation_of_wordOp {op : WordOp} {operation : Operation} (name : String)
    (hl : l.wordOp? = some op) (hpush : ∀ w, op ≠ .push w)
    (hname : ∀ e ∈ WordOp.named, e.2 = op → e.1 = name)
    (hop : ∀ rest, Operation.ofWords name rest = operation) :
    (Instruction.ofText l.text).operation = operation := by
  rw [Listing.Line.ofText_text]
  rcases Listing.Line.wordOp?_cases hl with hmem | ⟨w, rfl⟩
  · have hm : l.mnemonic = name := hname _ hmem rfl
    rw [hm]
    exact hop l.words
  · exact absurd rfl (hpush w)

theorem tracks_runAll (hsimplify : ctx.simplify.Sound) {before rest lines : List Listing.Line}
    {first n : Listing.Line} (hc : code.lines = before ++ lines ++ n :: rest)
    (hlines : ∀ l ∈ lines, l.IsStraight) (hfirst : (lines ++ [n]).head? = some first)
    (ht : m.Tracks env words)
    (h : (runAll ctx site (lines.map Listing.Line.text)).outcome m = (.ok (), m')) :
    ∃ words', Listing.Code.Run env code ⟨first.address, words⟩
        (lines.map fun l => (l.address : Int)) ⟨n.address, words'⟩ ∧ m'.Tracks env words' := by
  induction lines generalizing before first m words with
  | nil =>
    cases hfirst
    cases h
    exact ⟨words, .refl _, ht⟩
  | cons l lines ih =>
    cases hfirst
    obtain ⟨op, hop, hgo⟩ := hlines l (by simp)
    rw [List.map_cons, runAll] at h
    obtain ⟨_, m₁, hl, hrest⟩ := outcome_bind_eq_ok.1 h
    obtain ⟨words₁, happly, ht₁⟩ := tracks_traced hsimplify hop hgo ht hl
    obtain ⟨next, tail, hnext⟩ : ∃ next tail, lines ++ n :: rest = next :: tail := by
      cases lines <;> simp
    have hhead : (lines ++ [n]).head? = some next := by
      cases lines with
      | nil =>
        cases hnext
        rfl
      | cons x lines =>
        cases hnext
        rfl
    have hbehind : code.lines = before ++ l :: next :: tail := by
      rw [hc, List.append_assoc, List.cons_append, hnext]
    obtain ⟨words', hrun, ht'⟩ := @ih m₁ words₁ (before ++ [l]) next (by simp [hc])
      (fun x hx => hlines x (by simp [hx])) hhead ht₁ hrest
    exact ⟨words', .step (Listing.Code.step_straight hbehind hop hgo happly) hrun, ht'⟩

theorem line_behind {g : Graph} (hgraph : code.linked.Same g)
    (hb : code.linked.blocks.get? k = some b) (hspan : code.span code.linked k = front ++ [last])
    (hfalls : b.ending = some .fallsTo ∨ b.ending = some .conditional)
    (hb' : g.blocks.get? k = some b') (hnext : b'.fallsTo = some next) :
    ∃ before n rest, code.lines = before ++ last :: n :: rest ∧ next = n.address := by
  have hsame : b.fallsTo = some next := by
    obtain ⟨b₀, hb₀, hfixed⟩ := hgraph.block hb'
    rw [hb] at hb₀
    cases hb₀
    exact (congrArg Block.fallsTo hfixed).trans hnext
  obtain ⟨-, -, -, -, -, -, -, -, hled⟩ := Listing.Code.block_linked hb
  obtain ⟨hlater, hlt, -⟩ := hled next hsame
  obtain ⟨next', hnext', -, -, before, n, rest, hlines, hn⟩ :=
    Listing.Code.falls_linked hb hfalls hlater hlt
  rw [hsame] at hnext'
  cases hnext'
  exact ⟨before ++ front, n, rest, by simp [hlines, hspan], hn⟩

theorem exists_last (hgraph : code.linked.Same m.shared.graph)
    (hb : m.shared.graph.blocks.get? k = some b) : ∃ b' before front last rest,
      code.linked.blocks.get? k = some b' ∧ code.span code.linked k = front ++ [last] ∧
      code.lines = before ++ front ++ last :: rest ∧
      (∃ first, (front ++ [last]).head? = some first ∧ k = first.address) ∧
      b.instructions = front.map Listing.Line.text ++ [last.text] := by
  obtain ⟨b', hb', hfixed⟩ := hgraph.block hb
  obtain ⟨before, rest, hlines⟩ := Listing.Code.exists_span hb'
  obtain ⟨-, hhead, htexts⟩ := code.wellFormed_linked.texts k b' hb'
  obtain ⟨first, hfirst, hk⟩ := Option.map_eq_some_iff.1 hhead
  obtain ⟨front, last, hspan⟩ : ∃ front last, code.span code.linked k = front ++ [last] := by
    rcases List.eq_nil_or_concat (code.span code.linked k) with hnil | ⟨front, last, hspan⟩
    · rw [hnil] at hfirst
      cases hfirst
    · exact ⟨front, last, by simpa using hspan⟩
  have hinstructions : b.instructions = b'.instructions := (congrArg Block.instructions hfixed).symm
  refine ⟨b', before, front, last, rest, hb', hspan, ?_, ⟨first, hspan ▸ hfirst, hk.symm⟩, ?_⟩
  · rw [hlines, hspan]
    simp
  · rw [hinstructions, htexts, hspan]
    simp

theorem tracks_visit (hsimplify : ctx.simplify.Sound) (hcore : code.Core)
    (hgraph : code.linked.Same m.shared.graph) (ht : m.Tracks env words)
    (hv : (visit ctx entries false v).outcome m = (.ok (site, o), m₁)) (ho : o ≠ .stop) :
    ∃ b before front last rest words₁ mj m₂ m₃, code.linked.blocks.get? v.block = some b ∧
      code.span code.linked v.block = front ++ [last] ∧
      code.lines = before ++ front ++ last :: rest ∧
      Listing.Code.Run env code ⟨v.block, words⟩ (front.map fun l => (l.address : Int))
        ⟨last.address, words₁⟩ ∧ mj.Tracks env words₁ ∧ Traces ctx site last.text mj m₂ ∧
      site.block = v.block ∧ m₃.path = m₂.path ∧ m₃.shared.graph = m₂.shared.graph ∧
      code.linked.Same m₃.shared.graph ∧ m₃.shared.graph.endings.get? site.block = b.ending ∧
      (onward ctx v.previous site false).outcome m₃ = (.ok o, m₁) := by
  obtain ⟨texts, m₀, m₂, m₃, henter, hrun, hpath, hsame, honward⟩ := entered_of_onward hv ho
  obtain ⟨-, rfl, hsite, -, b₀, hb₀, rfl⟩ := enter_some henter
  obtain ⟨b, before, front, last, rest, hb, hspan, hlines, ⟨first, hfirst, hk⟩, htexts⟩ :=
    exists_last hgraph hb₀
  have hgraph₃ : code.linked.Same m₃.shared.graph := by
    obtain ⟨n, hchanges, -⟩ := @accounts_runAll ctx site b₀.instructions (m.counted v.edge)
    rw [hrun] at hchanges
    rw [hsame]
    exact hgraph.trans hchanges.graph
  rw [htexts] at hrun
  obtain ⟨mj, hfront, hlast⟩ := runAll_append_ok hrun
  obtain ⟨_, m₂', hlast, hnil⟩ := outcome_bind_eq_ok.1 hlast
  cases hnil
  have htracks : (m.counted v.edge).Tracks env words := ⟨ht.named, ht.stack⟩
  obtain ⟨words₁, hwords, ht₁⟩ :=
    tracks_runAll hsimplify hlines (hcore.straight_inner hb hspan) hfirst htracks hfront
  have hending : m₃.shared.graph.endings.get? site.block = b.ending := by
    rw [hgraph₃.endings, hsite]
    exact (code.wellFormed_linked.ending v.block b last hb (by simp [hspan])).1
  rw [← hk] at hwords
  exact ⟨b, before, front, last, rest, words₁, mj, m₂, m₃, hb, hspan, hlines, hwords, ht₁, hlast,
    hsite, hpath, hsame, hgraph₃, hending, honward⟩

def Passes (env : Assignment) (code : Listing.Code) (k : Int) (words : List Word) (next : Int)
    (words' : List Word) : Prop :=
  Listing.Code.Run env code ⟨k, words⟩
    ((code.span code.linked k).map fun l => (l.address : Int)) ⟨next, words'⟩

theorem passes_of_last {words₁ : List Word} (hspan : code.span code.linked k = front ++ [last])
    (hrun : Listing.Code.Run env code ⟨k, words⟩ (front.map fun l => (l.address : Int))
      ⟨last.address, words₁⟩) (hstep : code.step env ⟨last.address, words₁⟩ = some ⟨next, words'⟩) :
    Passes env code k words next words' := by
  rw [Passes, hspan, List.map_append]
  exact hrun.append (.single hstep)

theorem tracks_approach {parent : Path} (ht : m₁.Tracks env words) (hparent : m₁.path = parent)
    (h : (approach ctx parent c target).outcome m = (.ok (some next), m')) :
    m'.Tracks env words := by
  subst hparent
  obtain ⟨-, -, s, p, rfl, -, -, hstack, hvars, hworld, -⟩ := outcome_approach_some h
  have htransaction : p.world.transaction = m₁.path.world.transaction := by
    rw [hworld]
    rfl
  exact ⟨ht.named.congr htransaction hvars, hstack.symm ▸ ht.stack⟩

theorem allHold_of_changes {n : Nat} (h : m.Changes n m')
    (henv : allHold env m'.shared.solver.assertions = true) :
    allHold env m.shared.solver.assertions = true := by
  rw [allHold, List.all_eq_true] at henv ⊢
  exact fun f hf => henv f (h.solver.assertions_subset hf)

theorem allHold_approach {parent : Path}
    (h : (approach ctx parent c target).outcome m = (.ok (some next), m'))
    (henv : allHold env m'.shared.solver.assertions = true) :
    allHold env m.shared.solver.assertions = true ∧ c.formula.eval env = true := by
  obtain ⟨-, -, s, p, rfl, hs, -⟩ := outcome_approach_some h
  change allHold env s.assertions = true at henv
  rw [hs] at henv
  simpa [allHold] using henv

/-- The machine on words comes to an address, and has begun the blocks on the path on its way. -/
def Follows (env : Assignment) (code : Listing.Code) (path : List (Int × Int)) (k : Int)
    (words : List Word) : Prop :=
  ∃ pcs, Listing.Code.Run env code ⟨0, []⟩ pcs ⟨k, words⟩ ∧
    pcs.filter code.linked.blocks.contains = (path.map Prod.snd).reverse

theorem Follows.pass (h : Follows env code path v.block words)
    (hb : code.linked.blocks.get? v.block = some b)
    (hpass : Passes env code v.block words next words') :
    Follows env code (v.edge :: path) next words' := by
  obtain ⟨pcs, hrun, hblocks⟩ := h
  refine ⟨_, hrun.append hpass, ?_⟩
  rw [List.filter_append, hblocks, Listing.Code.filter_span hb, List.map_cons, List.reverse_cons]
  rfl

theorem Begins.tracks {root : Call} (hinput : on ctx.settings.inputState = false)
    (h : Begins ctx code.linked entries root) : root.machine.Tracks env [] := by
  obtain ⟨o, paid, payable, owned, ho, -, -, -, hfurnish⟩ := start_ok h.started
  have hsymbolic : o = .symbolic := by
    rw [opening, hinput] at ho
    cases ho
    rfl
  subst hsymbolic
  have hmachine := (Prod.mk.inj hfurnish).2
  rw [← hmachine]
  exact ⟨⟨rfl, rfl, rfl, rfl, rfl, rfl, rfl⟩, .nil⟩

section

variable (hsimplify : ctx.simplify.Sound) (hprint : ctx.print.Sound)
include hsimplify hprint

/-! ### Jumps -/

theorem target_toNat {v : Value} {w : Word} {n : Int} (hv : v.Reads env w)
    (h : (targetOf ctx v).outcome m = (.ok n, m')) (hn : 0 ≤ n) : n = w.toNat := by
  obtain rfl | ⟨t, rfl, ht⟩ := hv.2.cases
  · exact (toInt_of_targetOf h rfl).symm
  · simp only [targetOf, Value.toInt?, Value.isExpression, if_true, Simplifier.value,
      Printer.value] at h
    cases hread : Numeral.read 10 (ctx.print.term (ctx.simplify.term t)) with
    | none =>
      rw [hread] at h
      cases h
    | some k =>
      rw [hread] at h
      cases h
      have heval : n = ((ctx.simplify.term t).eval env).toNat :=
        hprint.numeral (hsimplify.vars hv.1) hread hn
      rw [heval, hsimplify.eval, ht]

theorem tracks_jump (hl : l.wordOp? = some .jump) (ht : m.Tracks env words)
    (h : Traces ctx site l.text m m') :
    ∃ w words' b, words = w :: words' ∧ m'.Tracks env words' ∧
      m'.shared.graph.blocks.get? site.block = some b ∧
      (0 ≤ b.targetAddress → b.targetAddress = w.toNat) := by
  have hop := operation_of_wordOp "JUMP" hl (by nofun) (by decide) fun _ => rfl
  obtain ⟨m₁, m₂, ⟨-, hstack⟩, hperform, hgraph, hkeeps⟩ := performs_tracked hop rfl ht h
  have hlen : 1 ≤ m₁.path.stack.length := items_of_need hperform
  generalize hs : m₁.path.stack = items at hlen hstack
  match items, words, hstack with
  | v :: rest, w :: words, .cons hv hrest =>
    obtain ⟨n, b, hn, hb, rfl, -, hpath⟩ := jump_ok hs hperform
    exact ⟨w, words, b, rfl, hkeeps words (hpath ▸ hrest), hgraph ▸ hb,
      target_toNat hsimplify hprint hv (hn {})⟩

theorem tracks_jumpIf (hl : l.wordOp? = some .jumpIf) (ht : m.Tracks env words)
    (h : Traces ctx site l.text m m') :
    ∃ w flag words' b found c, words = w :: flag :: words' ∧ m'.Tracks env words' ∧
      m'.shared.graph.blocks.get? site.block = some b ∧
      (0 ≤ b.targetAddress → b.targetAddress = w.toNat) ∧
      b.branch = some found ∧ found.asCondition = .ok c ∧
      (c.formula.eval env = true ↔ flag ≠ 0) := by
  have hop := operation_of_wordOp "JUMPI" hl (by nofun) (by decide) fun _ => rfl
  obtain ⟨m₁, m₂, ⟨-, hstack⟩, hperform, hgraph, hkeeps⟩ := performs_tracked hop rfl ht h
  have hlen : 2 ≤ m₁.path.stack.length := items_of_need hperform
  generalize hs : m₁.path.stack = items at hlen hstack
  match items, words, hstack with
  | v :: f :: rest, w :: flag :: words, .cons hv (.cons hf hrest) =>
    obtain ⟨n, found, b, hn, hfound, hb, rfl, -, hbranch, hpath, -⟩ := jumpIf_ok hs hperform
    obtain ⟨hnumber, hset⟩ := hf.2.isSet_iff
    obtain ⟨c, hc, heval⟩ := condition_of_flag hnumber hfound
    exact ⟨w, flag, words, b, found, c, rfl, hkeeps words (hpath ▸ hrest), hgraph ▸ hb,
      target_toNat hsimplify hprint hv (hn {}), hbranch, hc, (heval env).trans hset⟩

/-! ### Paths -/

theorem passes_go {next : Visit} (hcore : code.Core) (hgraph : code.linked.Same m.shared.graph)
    (ht : m.Tracks env words)
    (hv : (visit ctx entries false v).outcome m = (.ok (site, .go next), m₁))
    (hpos : 0 ≤ next.block) : (∃ b, code.linked.blocks.get? v.block = some b) ∧
      ∃ words', Passes env code v.block words next.block words' ∧ m₁.Tracks env words' := by
  obtain ⟨b, before, front, last, rest, words₁, mj, m₂, m₃, hb, hspan, hlines, hrun, ht₁, hlast,
    hsite, hpath, hsame, hgraph₃, hendings, honward⟩ :=
      tracks_visit hsimplify hcore hgraph ht hv (by nofun)
  obtain ⟨b₃, hb₃, hpath₁, hending⟩ := onward_ok honward
  have htracks {words' : List Word} (ht₂ : m₂.Tracks env words') : m₁.Tracks env words' :=
    ⟨ht₂.named.congr (by rw [hpath₁, hpath]; rfl) (by rw [hpath₁, hpath]), by
      rw [hpath₁, hpath]
      exact ht₂.stack⟩
  rw [hendings] at hending
  obtain ⟨hjump, -, hfall⟩ := hcore.last_of_ending hb hspan
  refine ⟨⟨b, hb⟩, ?_⟩
  rcases hending with ⟨he, hnext⟩ | ⟨he, hnext⟩
  · obtain ⟨w, words', b₂, rfl, ht₂, hb₂, htarget⟩ :=
      tracks_jump hsimplify hprint (hjump he) ht₁ hlast
    -- The target is read from the block right after the jump has left it there.
    rw [hsame, hb₂] at hb₃
    cases hb₃
    have hw : next.block = w.toNat := by
      rw [hnext] at hpos ⊢
      exact htarget hpos
    refine ⟨words', passes_of_last hspan hrun ?_, htracks ht₂⟩
    rw [hw]
    exact Listing.Code.step_jump hlines (hjump he)
  · obtain ⟨op, hop, hgo⟩ := hfall he
    obtain ⟨words', happly, ht₂⟩ := tracks_traced hsimplify hop hgo ht₁ hlast
    rw [hsite] at hb₃
    obtain ⟨before', n, rest', hbehind, hn⟩ := line_behind hgraph₃ hb hspan (.inl he) hb₃ hnext
    refine ⟨words', passes_of_last hspan hrun ?_, htracks ht₂⟩
    rw [hn]
    exact Listing.Code.step_straight hbehind hop hgo happly

theorem passes_fork (hcore : code.Core) (hgraph : code.linked.Same m.shared.graph)
    (ht : m.Tracks env words) (hv : Forks ctx entries v m site c b' m₁) :
    (∃ b, code.linked.blocks.get? v.block = some b) ∧ ∃ words', m₁.Tracks env words' ∧
      (0 ≤ b'.targetAddress → c.formula.eval env = true →
        Passes env code v.block words b'.targetAddress words') ∧
      ∀ next, b'.fallsTo = some next → c.formula.eval env = false →
      Passes env code v.block words next words' := by
  obtain ⟨b, before, front, last, rest, words₁, mj, m₂, m₃, hb, hspan, hlines, hrun, ht₁, hlast,
    hsite, hpath, hsame, hgraph₃, hendings, honward⟩ :=
      tracks_visit hsimplify hcore hgraph ht hv (by nofun)
  obtain ⟨rfl, hb₃, hending, found, hbranch, hc⟩ := onward_ok honward
  have he : b.ending = some .conditional := hendings.symm.trans hending
  have hjump := (hcore.last_of_ending hb hspan).2.1 he
  obtain ⟨w, flag, words', b₂, found₂, c₂, rfl, ht₂, hb₂, htarget, hbranch₂, hc₂, hset⟩ :=
    tracks_jumpIf hsimplify hprint hjump ht₁ hlast
  rw [← hsame, hb₃] at hb₂
  cases hb₂
  rw [hbranch] at hbranch₂
  cases hbranch₂
  rw [hc] at hc₂
  cases hc₂
  refine ⟨⟨b, hb⟩, words', ⟨hpath ▸ ht₂.named, hpath ▸ ht₂.stack⟩, fun hpos heval => ?_,
    fun next hnext heval => ?_⟩
  · refine passes_of_last hspan hrun ?_
    rw [htarget hpos]
    exact Listing.Code.step_jumpIf_set hlines hjump (hset.1 heval)
  · rw [hsite] at hb₃
    obtain ⟨before', n, rest', hbehind, hn⟩ := line_behind hgraph₃ hb hspan (.inr he) hb₃ hnext
    obtain rfl : flag = 0 := by
      by_contra hflag
      rw [hset.2 hflag] at heval
      cases heval
    refine passes_of_last hspan hrun ?_
    rw [hn]
    exact Listing.Code.step_jumpIf_zero hbehind hjump

theorem follows_way (hcore : code.Core) (hinput : on ctx.settings.inputState = false)
    {root c : Call} (hroot : Begins ctx code.linked entries root) {behind : Call → Prop}
    (h : Way ctx entries root path behind c) : code.linked.Same c.machine.shared.graph ∧ ∀ env,
      allHold env c.machine.shared.solver.assertions = true → 0 ≤ c.visit.block →
      ∃ words, Follows env code path c.visit.block words ∧ c.machine.Tracks env words := by
  -- Over the way. An assignment that fits a call fits the call before it too, since what is
  -- asserted only grows; and that call has a block, since control has left it.
  induction h with
  | start =>
    refine ⟨?_, fun env _ _ => ⟨[], ⟨[], ?_, rfl⟩, hroot.tracks hinput⟩⟩
    · rw [hroot.consistent.2.2]
      exact .refl _
    · rw [hroot.visit]
      exact .refl _
  | @go path behind remaining v next m m₁ site hway hv ih =>
    obtain ⟨hgraph, ih⟩ := ih
    obtain ⟨_, hvisit⟩ := changes_visit hv
    refine ⟨hgraph.trans hvisit.graph, fun env henv hpos => ?_⟩
    have hentered := (counted_of_onward hv (by nofun)).1
    obtain ⟨words, hfollows, ht⟩ := ih env (allHold_of_changes hvisit henv) hentered
    obtain ⟨⟨b, hb⟩, words', hpass, ht'⟩ := passes_go hsimplify hprint hcore hgraph ht hv hpos
    exact ⟨words', hfollows.pass hb hpass, ht'⟩
  | @target path behind remaining v m m₁ m₂ site cond b' next hway hv hside ih =>
    obtain ⟨hgraph, ih⟩ := ih
    obtain ⟨_, hvisit⟩ := changes_visit hv
    refine ⟨(hgraph.trans hvisit.graph).trans (extends_approach hside).1, fun env henv hpos => ?_⟩
    have hentered := (counted_of_onward hv (by nofun)).1
    obtain ⟨henv₁, hcond⟩ := allHold_approach hside henv
    obtain ⟨words, hfollows, ht⟩ := ih env (allHold_of_changes hvisit henv₁) hentered
    obtain ⟨⟨b, hb⟩, words', ht', htarget, -⟩ := passes_fork hsimplify hprint hcore hgraph ht hv
    obtain ⟨hnext, -⟩ := outcome_approach_some hside
    cases hnext
    exact ⟨words', hfollows.pass hb (htarget hpos hcond), tracks_approach ht' rfl hside⟩
  | @fall path behind remaining v m m₁ m₂ m₃ site cond b' next hway hv hdone hside ih =>
    obtain ⟨hgraph, ih⟩ := ih
    obtain ⟨_, hvisit⟩ := changes_visit hv
    obtain ⟨_, hother⟩ := changes_side hdone
    obtain ⟨hnext, -, s, p, hm₃, -⟩ := outcome_approach_some hside
    refine ⟨?_, fun env henv hpos => ?_⟩
    · rw [hm₃]
      exact (hgraph.trans hvisit.graph).trans hother.graph
    have hentered := (counted_of_onward hv (by nofun)).1
    obtain ⟨henv₂, hcond⟩ := allHold_approach hside henv
    have henv₁ := allHold_of_changes hother henv₂
    obtain ⟨words, hfollows, ht⟩ := ih env (allHold_of_changes hvisit henv₁) hentered
    obtain ⟨⟨b, hb⟩, words', ht', -, hfall⟩ := passes_fork hsimplify hprint hcore hgraph ht hv
    -- The parent's path is the one behind the block, whatever the other side has done.
    have hnot : cond.formula.eval env = false := by
      simpa [Condition.formula, Condition.not, Formula.eval] using hcond
    exact ⟨words', hfollows.pass hb (hfall next (getFallsTo_eq_ok.1 hnext) hnot),
      tracks_approach ht' rfl hside⟩

end

/-- Take a listing of core instructions, any call of its exploration whose block is executed, and a
way to the call. Under every assignment that satisfies the solver's assertions, the machine on words
comes from its empty start to the block; the blocks it has begun before are those on the way, and
its stack is the one that the items of the call's stack stand for. -/
theorem path_sound (hsimplify : ctx.simplify.Sound) (hprint : ctx.print.Sound) (hcore : code.Core)
    (hinput : on ctx.settings.inputState = false) {root c : Call}
    (hroot : Begins ctx code.linked entries root)
    (hreach : Relation.ReflTransGen (Next ctx entries) root c) {site : Site} {texts : List String}
    {m : Machine} (henter : (enter ctx entries c.visit).outcome c.machine =
      (.ok (some (site, texts)), m)) : (∃ path behind, Way ctx entries root path behind c) ∧
      ∀ path behind env, Way ctx entries root path behind c →
        allHold env c.machine.shared.solver.assertions = true →
        ∃ pcs words, Listing.Code.Run env code ⟨0, []⟩ pcs ⟨c.visit.block, words⟩ ∧
          pcs.filter code.linked.blocks.contains = (path.map Prod.snd).reverse ∧
          List.Forall₂ (fun v w => v.Stands env w) c.machine.path.stack words := by
  refine ⟨exists_way hreach, fun path behind env hway henv => ?_⟩
  obtain ⟨words, ⟨pcs, hrun, hblocks⟩, ht⟩ :=
    (follows_way hsimplify hprint hcore hinput hroot hway).2 env henv (enter_some henter).1.1
  exact ⟨pcs, words, hrun, hblocks, ht.stack.imp fun _ _ h => h.2⟩

def keptPayment : Listing.Code := .ofDrafts
  [⟨0, "CALLVALUE", none⟩, ⟨1, "DUP1", none⟩, ⟨2, "PUSH1", some "06"⟩, ⟨4, "JUMPI", none⟩,
    ⟨5, "STOP", none⟩, ⟨6, "JUMPDEST", none⟩, ⟨7, "STOP", none⟩]

theorem core_keptPayment : keptPayment.Core where
  lines := by decide
  stops := by decide

def keptPaymentRoot : Call := .first (limited 1) keptPayment.assembled

theorem begins_keptPayment : Begins (limited 1) keptPayment.linked {} keptPaymentRoot :=
  begins_unsourced keptPayment.linked_sorted rfl (by decide +kernel)

/-- Behind the jump nothing is paid, and the zero is on the stack. -/
theorem path_sound_keptPayment : ∃ c behind,
    keptPayment.Core ∧ Begins (limited 1) keptPayment.linked {} keptPaymentRoot ∧
    Relation.ReflTransGen (Next (limited 1) {}) keptPaymentRoot c ∧
    (∃ found m, (enter (limited 1) {} c.visit).outcome c.machine = (.ok (some found), m)) ∧
    Way (limited 1) {} keptPaymentRoot [(0, 0)] behind c ∧
    allHold (fun _ => 0) c.machine.shared.solver.assertions = true ∧
    allHold (fun _ => 1) c.machine.shared.solver.assertions = false ∧
    ∃ pcs words, Listing.Code.Run (fun _ => 0) keptPayment ⟨0, []⟩ pcs ⟨5, words⟩ ∧
      pcs.filter keptPayment.linked.blocks.contains = [0] ∧
      List.Forall₂ (fun v w => Value.Stands (fun _ => 0) w v) [.var "Iv"] words := by
  have hcall : (behindJump? (limited 1) {} keptPaymentRoot).map (fun c =>
      (c.visit.block, c.machine.path.stack,
        allHold (fun _ => 0) c.machine.shared.solver.assertions,
        allHold (fun _ => 1) c.machine.shared.solver.assertions,
        (((enter (limited 1) {} c.visit).outcome c.machine).1.toOption.bind id).isSome)) =
      some (5, [.var "Iv"], true, false, true) := by
    decide +kernel
  obtain ⟨c, hc, hfound⟩ := Option.map_eq_some_iff.1 hcall
  simp only [Prod.mk.injEq] at hfound
  obtain ⟨hblock, hstack, hzero, hone, hentered⟩ := hfound
  obtain ⟨hnext, behind, hway⟩ := way_behindJump hc
  have hreach := Relation.ReflTransGen.single hnext
  rcases henter : (enter (limited 1) {} c.visit).outcome c.machine with ⟨e | _ | ⟨site, texts⟩, m⟩
  · rw [henter] at hentered
    cases hentered
  · rw [henter] at hentered
    cases hentered
  · obtain ⟨pcs, words, hrun, hblocks, hwords⟩ :=
      (path_sound Simplifier.sound_default Printer.sound_default core_keptPayment (by decide)
      begins_keptPayment hreach henter).2 [(0, 0)] behind (fun _ => 0) hway hzero
    rw [hblock] at hrun
    rw [hstack] at hwords
    exact ⟨c, behind, core_keptPayment, begins_keptPayment, hreach, ⟨_, m, henter⟩, hway, hzero,
      hone, pcs, words, hrun, hblocks, hwords⟩

end Exec

end EvmAudit
