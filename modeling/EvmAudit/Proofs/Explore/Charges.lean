import EvmAudit.Proofs.Explore.Memory

/-! What the instructions of a path are charged. Each one pays its own fee, and the difference
between the fee for the memory of its path and the fee that was charged for memory last. -/

namespace EvmAudit

open Exec

/-! ### Fees -/

theorem Fee.ofName_nonneg (name : String) : 0 ≤ Fee.ofName name := by
  have hsingle : ∀ e ∈ Fee.single, 0 ≤ e.2 := by decide
  unfold Fee.ofName
  split_ifs
  all_goals try decide
  cases h : Fee.single.lookup name with
  | none => rfl
  | some fee => exact hsingle _ (Listing.Line.mem_of_lookup h)

theorem Double.ceil_nonneg {m : Nat} {e n : Int} (h : ceil? (.finite false m e) = some n) :
    0 ≤ n := by
  have hpow : 0 ≤ pow2 e := by
    cases e with
    | ofNat k => exact Nat.cast_nonneg _
    | negSucc k => exact Rat.mkRat_nonneg Int.one_nonneg _
  have hle : (0 : Rat) ≤ (m : Rat) * pow2 e := mul_nonneg (Nat.cast_nonneg m) hpow
  cases h
  rw [toRat, if_neg Bool.false_ne_true, one_mul]
  exact_mod_cast hle.trans Rat.le_ceil

namespace Gas

variable {ctx : Context}
variable {m m' : Machine} {n : Int}

theorem memory_mono {n k : Nat} (h : n ≤ k) : memory n ≤ memory k := by
  have hquotient : n * n / 512 ≤ k * k / 512 := Nat.div_le_div_right (Nat.mul_le_mul h h)
  simp only [memory, Fee.memory]
  omega

theorem copyWords_nonneg {k : Int} (hn : 0 ≤ n) (h : copyWords n = .ok k) : 0 ≤ k := by
  have hsign : (decide (n < 0) != decide ((32 : Int) < 0)) = false := by simp [hn]
  rw [copyWords, Double.ofQuotient?, hsign, Double.ofRatio] at h
  dsimp only at h
  split_ifs at h
  all_goals try cases h
  all_goals exact Double.ceil_nonneg rfl

def counted? : Operation → List Value → Option Value
  | .log _, _ :: n :: _ | .extCodeCopy, _ :: _ :: n :: _ | .callDataCopy, _ :: _ :: _ :: n :: _
  | .codeCopy, _ :: _ :: _ :: n :: _ => some n
  | _, _ => none

def Refunds (op : Operation) (stack : List Value) : Prop :=
  ∃ v n, counted? op stack = some v ∧ v.toInt? = some n ∧ n < 0

theorem storeFee_nonneg {f : Formula} (h : (storeFee ctx f).outcome m = (.ok n, m')) : 0 ≤ n := by
  obtain ⟨_, m₁, -, h⟩ := outcome_bind_eq_ok.1 h
  obtain ⟨v, m₂, -, h⟩ := outcome_bind_eq_ok.1 h
  obtain ⟨_, m₃, -, h⟩ := outcome_bind_eq_ok.1 h
  cases h
  split <;> decide

theorem storeSymbol_nonneg {place value : Value}
    (h : (storeSymbol ctx place value).outcome m = (.ok n, m')) : 0 ≤ n := by
  rw [storeSymbol, outcome_tryCatch] at h
  rcases ho : (storeOver ctx place value).outcome m with ⟨e | k, m₁⟩ <;> rw [ho] at h
  · obtain ⟨_, m₂, -, h⟩ := outcome_bind_eq_ok.1 h
    obtain ⟨_, -, h⟩ := outcome_ofExcept_bind_eq_ok.1 h
    exact storeFee_nonneg h
  · cases h
    rw [storeOver, outcome_bind_getWorld] at ho
    split at ho
    · cases ho
    · obtain ⟨_, m₂, -, ho⟩ := outcome_bind_eq_ok.1 ho
      obtain ⟨_, -, ho⟩ := outcome_ofExcept_bind_eq_ok.1 ho
      obtain ⟨_, -, ho⟩ := outcome_ofExcept_bind_eq_ok.1 ho
      exact storeFee_nonneg ho

theorem storeNumber_nonneg (p : Printer) (storage : Table Key Value) (place : Value) (n : Int) :
    0 ≤ storeNumber p storage place n := by
  have hset : 0 ≤ Fee.storageSet := by decide
  have hreset : 0 ≤ Fee.storageReset := by decide
  grind [storeNumber]

theorem callValue_nonneg {amount : Value} (h : (callValue ctx amount).outcome m = (.ok n, m')) :
    0 ≤ n := by
  unfold callValue at h
  split at h
  · cases h
    split <;> decide
  · obtain ⟨free, m₁, -, h⟩ := outcome_bind_eq_ok.1 h
    cases h
    split <;> decide

theorem dynamic_nonneg {op : Operation} (hop : ¬ Refunds op m.path.stack)
    (h : (dynamic ctx op).outcome m = (.ok n, m')) : 0 ≤ n := by
  have hcounted {v : Value} (hv : counted? op m.path.stack = some v) {k : Int}
      (hk : v.toInt? = some k) : 0 ≤ k := by
    by_contra hneg
    exact hop ⟨v, k, hv, hk, by omega⟩
  have hcopy {v : Value} (hv : counted? op m.path.stack = some v) {k : Int} (hk : v.toInt? = some k)
      (h : (Exec.ofExcept do return Fee.copy * (← copyWords k)).outcome m = (.ok n, m')) :
      0 ≤ n := by
    rcases hwords : copyWords k with e | words <;> rw [hwords] at h <;> cases h
    exact Int.mul_nonneg (by decide) (copyWords_nonneg (hcounted hv hk) hwords)
  have hcall {amount : Value}
      (h : (do return Fee.call + (← callValue ctx amount)).outcome m = (.ok n, m')) : 0 ≤ n := by
    obtain ⟨k, m₁, hk, h⟩ := outcome_bind_eq_ok.1 h
    cases h
    exact Int.add_nonneg (by decide) (callValue_nonneg hk)
  rw [dynamic, outcome_bind_getPath] at h
  dsimp only at h
  generalize m.path.stack = stack at h hcounted hcopy
  split at h
  -- fees by one operand are nothing if that is no number
  all_goals try
    split at h
    rotate_left
    · cases h
      rfl
  · cases h
    exact Int.mul_nonneg (by decide) (hcounted rfl ‹_›)
  · cases h
    split
    · exact Int.mul_nonneg (by decide) (by omega)
    · rfl
  · exact hcopy rfl ‹_› h
  · exact hcopy rfl ‹_› h
  · exact hcopy rfl ‹_› h
  · split at h
    · cases h
      exact storeNumber_nonneg _ _ _ _
    · exact storeSymbol_nonneg h
  · cases h
    exact ite_nonneg Int.le_rfl (by decide)
  · exact hcall h
  · exact hcall h
  · exact hcall h
  · cases h
  · cases h
    rfl

end Gas

namespace Exec

variable {ctx : Context} {entries : Table Int String}
variable {m m' : Machine} {text : String} {site : Site} {rest : List Value}

/-! ### Charges -/

/-- The fee of an instruction but for memory: the one of its name, and what its operands add. -/
def FeeOf (ctx : Context) (s : String × Machine) (fee : Int) : Prop :=
  ∃ m₁ m₂ extra, s.2.AlikeBut [.executed, .visitedPcs] m₁ ∧
    (Gas.dynamic ctx (Instruction.ofText s.1).operation).outcome m₁ = (.ok extra, m₂) ∧
    fee = Fee.ofName (Instruction.ofText s.1).name + extra

def Free (s : String × Machine) : Prop := isFree (Instruction.ofText s.1).operation = true

instance (s : String × Machine) : Decidable (Free s) := inferInstanceAs (Decidable (_ = true))

theorem feeOf_nonneg {s : String × Machine} {fee : Int}
    (hop : ¬ Gas.Refunds (Instruction.ofText s.1).operation s.2.path.stack) (h : FeeOf ctx s fee) :
    0 ≤ fee := by
  obtain ⟨m₁, m₂, extra, halike, hextra, rfl⟩ := h
  exact Int.add_nonneg (Fee.ofName_nonneg _) (Gas.dynamic_nonneg (halike.stack ▸ hop) hextra)

/-- A charge: the fee, and what memory costs more than was charged for it before. -/
def Charged (ctx : Context) (s : String × Machine) (a : Analysis) : Prop :=
  ∃ fee, FeeOf ctx s fee ∧ a.memoryGas = Gas.memory s.2.path.words.size ∧
    a.gas = s.2.path.analysis.gas + fee + (a.memoryGas - s.2.path.analysis.memoryGas)

theorem charged_of_charge {m₁ m₂ : Machine} (halike : m.AlikeBut [.executed, .visitedPcs] m₁)
    (h : (Gas.charge ctx (.ofText text)).outcome m₁ = (.ok (), m₂)) :
    Charged ctx (text, m) m₂.path.analysis := by
  obtain ⟨extra, m₃, hextra, h⟩ := outcome_bind_eq_ok.1 h
  have hfees : m₁.part .fees = m.part .fees := halike .fees (by decide)
  have hdynamic := (touches_dynamic _).alike hextra
  have hfees₃ : m₃.part .fees = m.part .fees := (hdynamic .fees (by decide)).trans hfees
  have hwords₃ : m₃.path.words = m.path.words := hdynamic.words.trans halike.words
  obtain ⟨hgas, hmemory⟩ := Prod.mk.inj hfees₃
  cases h
  refine ⟨_, ⟨m₁, m₃, extra, halike, hextra, rfl⟩, congrArg (fun w => Gas.memory w.size) hwords₃,
    ?_⟩
  change m₃.path.analysis.gas + (_ + (Gas.memory m₃.path.words.size - m₃.path.analysis.memoryGas)) =
    m.path.analysis.gas + _ + (Gas.memory m₃.path.words.size - m.path.analysis.memoryGas)
  rw [hgas, hmemory, ← Int.add_assoc]

theorem fees_not_mem_footprint (op : Operation) : .fees ∉ footprint op := by
  cases op <;> simp [footprint]

theorem charged_traced (h : Traces ctx site text m m') :
    (Free (text, m) → m'.part .fees = m.part .fees) ∧
    (¬ Free (text, m) → Charged ctx (text, m) m'.path.analysis) := by
  obtain ⟨m₁, m₂, hready, heffect, hrow⟩ := performed_of_traced h
  have hfees : m'.part .fees = m₁.part .fees :=
    (hrow .fees (by decide)).trans
    ((touches_perform _ _ _ _).alike heffect .fees (fees_not_mem_footprint _))
  obtain ⟨_, mt, htick, hready⟩ := outcome_bind_eq_ok.1 hready
  obtain ⟨_, mv, hvisited, hprepare⟩ := outcome_bind_eq_ok.1 hready
  have halike : m.AlikeBut [.executed, .visitedPcs] mv :=
    (Touches.alike touches_tick htick).trans (Touches.alike touches_markVisited hvisited)
  unfold prepare at hprepare
  refine ⟨fun hfree => ?_, fun hfree => ?_⟩
  · rw [if_pos (show isFree _ = true from hfree)] at hprepare
    cases hprepare
    exact hfees.trans (halike .fees (by decide))
  · rw [if_neg (show ¬ isFree _ = true from hfree)] at hprepare
    obtain ⟨_, mu, hupdate, hnote⟩ := outcome_bind_eq_ok.1 hprepare
    obtain ⟨_, mc, hcharge, hmove⟩ := outcome_bind_eq_ok.1 hupdate
    have hmoved := (touches_noteMove _).alike hmove
    have hnoted : mu.AlikeBut [.problems] m₁ :=
      Touches.alike (touches_ite touches_noteReentrancy (touches_pure ())) hnote
    have hsame : m'.part .fees = mc.part .fees :=
      hfees.trans ((hnoted .fees (by decide)).trans (hmoved .fees (by decide)))
    obtain ⟨hgas, hmemory⟩ := Prod.mk.inj hsame
    obtain ⟨fee, hfee, hheld, hsum⟩ := charged_of_charge halike hcharge
    exact ⟨fee, hfee, hmemory.trans hheld, by rw [hgas, hmemory, hsum]⟩

/-! ### Words of memory -/

def Forgets (s : String × Machine) : Prop :=
  match (Instruction.ofText s.1).operation, s.2.path.stack with
  | .mstore, q :: _ | .mstore8, q :: _ => q.toInt? = none ∨ ¬ s.2.path.Sized
  | .codeCopy, q :: i :: n :: _ =>
    q.toInt? = none ∨ i.toInt? = none ∨ n.toInt? = none ∨ ¬ s.2.path.Sized
  | .extCodeCopy, _ => True
  | _, _ => False

theorem words_traced (hkeeps : ¬ Forgets (text, m))
    (h : Traces ctx site text m m') : m.path.words.size ≤ m'.path.words.size := by
  by_cases hmem : .words ∈ footprint (Instruction.ofText text).operation
  · obtain ⟨m₁, m₂, -, hbefore, heffect, hafter⟩ := performs_of_traced h
    have hsized : m₁.path.Sized ↔ m.path.Sized := by
      rw [Path.Sized, Path.Sized, hbefore.activeWords]
    rw [hafter.words, ← hbefore.words]
    unfold Forgets at hkeeps
    dsimp only at hkeeps
    rw [← hbefore.stack, ← hsized] at hkeeps
    have hwritten {q : Value} (hq : q.toInt? ≠ none) (hsized : m₁.path.Sized) (v : Value) :
        m₁.path.words.size ≤ (wordsAfter ctx.print m₁.path q v).size := by
      obtain ⟨a, ha⟩ := Option.ne_none_iff_exists'.1 hq
      obtain ⟨n, hn⟩ := Option.isSome_iff_exists.1 hsized
      rw [wordsAfter, ha, hn]
      exact size_le_insert _ _ _
    have hops := mem_memoryOperations_of_words hmem
    simp only [List.mem_cons, List.not_mem_nil, or_false] at hops
    rcases hops with hop | hop | hop | hop | hop <;> rw [effect, hop] at heffect <;>
      rw [hop] at hkeeps
    · obtain ⟨_, _, _, hgrown, _⟩ := mload_ok heffect
      exact hgrown
    · obtain ⟨q, v, rest, hq, hwrote, -⟩ := mstore_ok heffect
      rw [hq] at hkeeps
      exact hwrote ▸ hwritten (not_or.1 hkeeps).1 (not_not.1 (not_or.1 hkeeps).2) v
    · obtain ⟨q, v, u, rest, hq, -, hwrote, -⟩ := mstore8_ok heffect
      rw [hq] at hkeeps
      exact hwrote ▸ hwritten (not_or.1 hkeeps).1 (not_not.1 (not_or.1 hkeeps).2) u
    · obtain ⟨q, i, n, rest, hq, hgrown, hsize⟩ := codeCopy_ok heffect
      rw [hq] at hkeeps
      simp only [not_or, not_not] at hkeeps
      exact hgrown (hsize.2 ⟨hkeeps.2.2.2, hkeeps.1, hkeeps.2.1, hkeeps.2.2.1⟩)
    · exact absurd trivial hkeeps
  · exact Nat.le_of_eq (congrArg Table.size (part_traced (p := .words) (by decide) hmem h).symm)

/-! ### Gas on a path -/

def lastHeld (history : List (String × Machine)) : Nat :=
  ((history.filter fun s => ¬ Free s).getLast?.map fun s => s.2.path.words.size).getD 0

theorem lastHeld_concat (history : List (String × Machine)) (s : String × Machine) :
    lastHeld (history ++ [s]) = if Free s then lastHeld history else s.2.path.words.size := by
  by_cases h : Free s <;> simp [lastHeld, h]

theorem keeps_lastHeld :
    Keeps ctx fun history p => p.analysis.memoryGas = Gas.memory (lastHeld history) where
  traced hbefore h := by
    obtain ⟨hfree, hcharged⟩ := charged_traced h
    rw [lastHeld_concat]
    split
    next hs =>
      rw [(Prod.mk.inj (hfree hs)).2, hbefore]
    next hs =>
      obtain ⟨-, -, hheld, -⟩ := hcharged hs
      exact hheld

def Ordinary (s : String × Machine) : Prop :=
  ¬ Forgets s ∧ ¬ Gas.Refunds (Instruction.ofText s.1).operation s.2.path.stack

theorem gas_traced (hop : Ordinary (text, m))
    (hmemory : m.path.analysis.memoryGas ≤ Gas.memory m.path.words.size)
    (h : Traces ctx site text m m') : m'.path.analysis.memoryGas ≤ Gas.memory m'.path.words.size ∧
    m.path.analysis.gas ≤ m'.path.analysis.gas := by
  have hwords := Gas.memory_mono (words_traced hop.1 h)
  obtain ⟨hfree, hcharged⟩ := charged_traced h
  by_cases hs : Free (text, m)
  · obtain ⟨hgas, hheld⟩ := Prod.mk.inj (hfree hs)
    rw [hgas, hheld]
    exact ⟨hmemory.trans hwords, Int.le_refl _⟩
  · obtain ⟨fee, hfee, hheld, hgas⟩ := hcharged hs
    have hfee := feeOf_nonneg hop.2 hfee
    dsimp only at hheld hgas
    exact ⟨by omega, by omega⟩

theorem keeps_gas : Keeps ctx fun history p => (∀ s ∈ history, Ordinary s) →
    p.analysis.memoryGas ≤ Gas.memory p.words.size ∧
    ∀ s ∈ history, s.2.path.analysis.gas ≤ p.analysis.gas where
  traced {history site text m m'} hbefore h hops := by
    simp only [List.mem_append, List.mem_singleton, or_imp, forall_and, forall_eq] at hops ⊢
    obtain ⟨hmemory, hgas⟩ := hbefore hops.1
    obtain ⟨hmemory', hgas'⟩ := gas_traced hops.2 hmemory h
    exact ⟨hmemory', fun s hs => (hgas s hs).trans hgas', hgas'⟩

/-- The gas of a path. An instruction is charged its fee and what memory costs more than when it was
charged for last. So the gas goes down exactly where the words of memory have become so few that the
fee does not make up for it. On a path of ordinary instructions it has never gone down. -/
theorem gas_charged {g : Graph} {root : Call} {history : List (String × Machine)}
    {s : String × Machine} (hroot : Begins ctx g entries root)
    (hs : Reached ctx entries root history s) :
    (∀ site m', (traced ctx site s.1).outcome s.2 = (.ok (), m') →
      (Free s → m'.path.analysis.gas = s.2.path.analysis.gas) ∧
      (¬ Free s → ∃ fee, FeeOf ctx s fee ∧
        m'.path.analysis.gas = s.2.path.analysis.gas + fee +
          (Gas.memory s.2.path.words.size - Gas.memory (lastHeld history)) ∧
        (m'.path.analysis.gas < s.2.path.analysis.gas ↔
          fee + Gas.memory s.2.path.words.size < Gas.memory (lastHeld history)) ∧
        (Ordinary s → 0 ≤ fee))) ∧
    ((∀ t ∈ history, Ordinary t) →
      ∀ t ∈ history, t.2.path.analysis.gas ≤ s.2.path.analysis.gas) := by
  have hfees : root.machine.part .fees = (0, 0) := hroot.alike .fees (by decide)
  have hmemory : root.machine.path.analysis.memoryGas = 0 := (Prod.mk.inj hfees).2
  have hheld := hs.keeps keeps_lastHeld hmemory
  refine ⟨fun site m' h => ?_, fun hops => ?_⟩
  · obtain ⟨hfree, hcharged⟩ := charged_traced h
    refine ⟨fun hs => (Prod.mk.inj (hfree hs)).1, fun hs => ?_⟩
    obtain ⟨fee, hfee, hnow, hgas⟩ := hcharged hs
    dsimp only at hnow hgas
    exact ⟨fee, hfee, by omega, by omega, fun hop => feeOf_nonneg hop.2 hfee⟩
  · refine (hs.keeps keeps_gas (fun _ => ⟨?_, by simp⟩) hops).2
    rw [hmemory]
    exact Gas.memory_mono (Nat.zero_le _)

def storeSomewhere : Listing.Code := .ofDrafts
  [⟨0, "PUSH1", some "01"⟩, ⟨2, "PUSH1", some "00"⟩, ⟨4, "MSTORE", none⟩, ⟨5, "PUSH1", some "01"⟩,
    ⟨7, "PUSH1", some "20"⟩, ⟨9, "MSTORE", none⟩, ⟨10, "PUSH1", some "01"⟩, ⟨12, "CALLER", none⟩,
    ⟨13, "MSTORE", none⟩, ⟨14, "STOP", none⟩]

def storeTexts : List String :=
  ["PUSH1 0x01 ", "PUSH1 0x00 ", "MSTORE ", "PUSH1 0x01 ", "PUSH1 0x20 ", "MSTORE ", "PUSH1 0x01 ",
    "CALLER ", "MSTORE "]

theorem block_storeSomewhere : (storeSomewhere.linked.blocks.get? 0).map Block.instructions =
    some (storeTexts ++ "STOP " :: []) := by
  rw [Listing.Code.linked_sorted]
  decide +kernel

theorem run_storeSomewhere :
    let m := Call.openedBy affirming storeSomewhere.linked storeTexts
    let o := (traced affirming Site.first "STOP ").outcome m
    Call.Passes affirming storeSomewhere.linked storeTexts ∧ m.path.analysis.gas = 32 ∧
    o.1.isOk = true ∧
    o.2.path.analysis.gas = 29 := by
  decide +kernel

theorem reached_storeSomewhere : ∃ history s m',
    Begins affirming storeSomewhere.linked {} (.first affirming storeSomewhere.linked) ∧
    Reached affirming {} (.first affirming storeSomewhere.linked) history s ∧ s.1 = "STOP " ∧
    Traces affirming Site.first s.1 s.2 m' ∧
    s.2.path.analysis.gas = 32 ∧ m'.path.analysis.gas = 29 := by
  obtain ⟨hrun, hgas, hok, hgas'⟩ := run_storeSomewhere
  exact ⟨_, _, _, begins_first (.inl rfl) (by decide +kernel),
    reached_first rfl block_storeSomewhere (by decide) (by decide) hrun, rfl,
    outcome_eq_of_isOk hok, hgas, hgas'⟩

/-- The last instruction pays nothing, and gets back what one word of memory had cost. -/
theorem gas_charged_storeSomewhere : ∃ history s m' fee,
    Reached affirming {} (.first affirming storeSomewhere.linked) history s ∧
    (traced affirming Site.first s.1).outcome s.2 = (.ok (), m') ∧ ¬ Free s ∧
    FeeOf affirming s fee ∧ m'.path.analysis.gas = s.2.path.analysis.gas + fee +
      (Gas.memory s.2.path.words.size - Gas.memory (lastHeld history)) ∧
    fee + Gas.memory s.2.path.words.size < Gas.memory (lastHeld history) := by
  obtain ⟨history, s, m', hroot, hs, htext, h, hgas, hgas'⟩ := reached_storeSomewhere
  have hcharged : ¬ Free s := by
    rw [Free, htext]
    decide
  obtain ⟨fee, hfee, hsum, hless, -⟩ := ((gas_charged hroot hs).1 Site.first m' h).2 hcharged
  exact ⟨history, s, m', fee, hs, h, hcharged, hfee, hsum, hless.1 (by omega)⟩

theorem gas_refunded : ∃ history s m',
    Begins affirming storeSomewhere.linked {} (.first affirming storeSomewhere.linked) ∧
    Reached affirming {} (.first affirming storeSomewhere.linked) history s ∧
    (traced affirming Site.first s.1).outcome s.2 = (.ok (), m') ∧
    m'.path.analysis.gas < s.2.path.analysis.gas := by
  obtain ⟨history, s, m', hroot, hs, -, h, hgas, hgas'⟩ := reached_storeSomewhere
  exact ⟨history, s, m', hroot, hs, h, by omega⟩

end Exec

end EvmAudit
