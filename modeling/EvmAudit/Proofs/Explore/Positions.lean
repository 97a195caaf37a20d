import EvmAudit.Proofs.Explore.Storage
import EvmAudit.Proofs.Explore.Variables
import EvmAudit.Proofs.Term.Written
import EvmAudit.Proofs.Text

/-! From the name of a storage word back to its place. The name holds the text of a position between
dashes, and what is read back is that text up to its first dash, as a number if it can be read as
one. That is the key of the word for numbers that are not negative, and for texts without dashes
that are no numerals. -/

namespace EvmAudit

open Listing (Code)

def Key.ofPlace (place : String) : Key :=
  match Numeral.read 10 place with
  | some n => .at n
  | none => .named place

theorem Key.ofPlace_eq_at {place : String} {n : Int} :
    ofPlace place = .at n ↔ Numeral.read 10 place = some n := by
  rw [ofPlace]
  cases Numeral.read 10 place <;> simp

theorem Key.ofPlace_eq_named {place text : String} :
    ofPlace place = .named text ↔ place = text ∧ Numeral.read 10 place = none := by
  rw [ofPlace]
  cases Numeral.read 10 place <;> simp

def beforeDash (s : String) : String := String.ofList (s.toList.takeWhile (· ≠ '-'))

theorem beforeDash_eq_self {s : String} : beforeDash s = s ↔ '-' ∉ s.toList := by
  rw [beforeDash, ← String.toList_inj, String.toList_ofList, List.takeWhile_eq_self_iff]
  constructor
  · exact fun h hdash => absurd (h '-' hdash) (by decide)
  · exact fun h c hc => decide_eq_true fun hdash => h (hdash ▸ hc)

variable {p : Printer}

theorem toList_storage (position : Value) (label : String) :
    (Names.storage p position label).toList =
    "Ia_store".toList ++ '-' :: ((p.value position).toList ++ '-' :: label.toList) := by
  simp [Names.storage]

theorem isStorageName_storage (position : Value) (label : String) :
    isStorageName (Names.storage p position label) = true := by
  rw [isStorageName, Text.startsWith, Text.isSome_dropStart?, toList_storage]
  exact List.prefix_append _ _

theorem storagePlace_storage (position : Value) (label : String) :
    storagePlace (Names.storage p position label) =
      .ok (.ofPlace (beforeDash (p.value position))) := by
  have hfirst : ((p.value position).toList ++ '-' :: label.toList).takeWhile (· ≠ '-') =
      (p.value position).toList.takeWhile (· ≠ '-') := by
    rw [List.takeWhile_append]
    split
    next hlength =>
      rw [( List.takeWhile_prefix _).eq_of_length hlength]
      simp
    · rfl
  have hplace : (Text.splitAt '-' (Names.storage p position label))[1]? =
      some (beforeDash (p.value position)) := by
    rw [Text.splitAt, toList_storage, Text.cutAt_append (by decide), List.map_cons,
      List.getElem?_cons_succ, ← List.head?_eq_getElem?, List.head?_map, Text.head?_cutAt, hfirst]
    rfl
  rw [storagePlace, hplace, Key.ofPlace]
  dsimp only
  generalize Numeral.read 10 (beforeDash (p.value position)) = number
  cases number <;> rfl

/-- The key of a position can be read from the name of the word that is made up for it. -/
def Value.Readable (p : Printer) : Value → Prop
  | .int n => 0 ≤ n ∧ (Nat.toDigits 10 n.toNat).length ≤ Numeral.decimalLimit
  | .bool _ => False
  | v => '-' ∉ (p.value v).toList ∧ Numeral.read 10 (p.value v) = none

theorem dash_not_mem_repr (k : Nat) : '-' ∉ (Nat.repr k).toList := by
  rw [Nat.repr, String.toList_ofList]
  intro h
  exact absurd (Numeral.isDigit_of_mem_toDigits h) (by decide)

theorem readable_int_iff (n : Int) :
    Numeral.read 10 (beforeDash (p.value (.int n))) = some n ↔ (Value.int n).Readable p := by
  rw [Printer.value, Value.Readable]
  rcases n with k | k
  · have htext : toString (Int.ofNat k) = Nat.repr k := rfl
    rw [htext, beforeDash_eq_self.2 (dash_not_mem_repr k)]
    rw [Numeral.read_repr_eq]
    split_ifs with hlength
    · exact iff_of_true rfl ⟨Int.natCast_nonneg k, hlength⟩
    · exact iff_of_false (by simp) fun h => hlength h.2
  · -- the text begins with the sign, so nothing stands before the first dash
    have htext : (toString (Int.negSucc k)).toList = '-' :: (Nat.repr (k + 1)).toList := by
      rw [show toString (Int.negSucc k) = "-" ++ Nat.repr (k + 1) from rfl, String.toList_append]
      rfl
    have hempty : beforeDash (toString (Int.negSucc k)) = "" := by
      rw [beforeDash, htext]
      rfl
    have hread : Numeral.read 10 "" = none := by decide
    rw [hempty, hread]
    exact iff_of_false (by simp) fun h => absurd h.1 (by omega)

theorem storagePlace_eq_key_iff (position : Value) (label : String) :
    storagePlace (Names.storage p position label) = .ok (Key.ofValue p position) ↔
      position.Readable p := by
  have hnamed (v : Value) : Key.ofPlace (beforeDash (p.value v)) = .named (p.value v) ↔
      '-' ∉ (p.value v).toList ∧ Numeral.read 10 (p.value v) = none := by
    rw [Key.ofPlace_eq_named, beforeDash_eq_self]
    exact and_congr_right fun h => by rw [beforeDash_eq_self.2 h]
  rw [storagePlace_storage, Except.ok.injEq]
  cases position with
  | int n => exact Key.ofPlace_eq_at.trans (readable_int_iff n)
  | bool b =>
    cases b with
    | false => exact iff_of_false (show Key.ofPlace (beforeDash "False") ≠ .at 0 by decide) id
    | true => exact iff_of_false (show Key.ofPlace (beforeDash "True") ≠ .at 1 by decide) id
  | double | text | word | prop | ratio | record | conditions | absent => exact hnamed _

theorem not_readable_const (hprint : p.Sound) (c : Word) :
    ¬ (Value.word (.const c)).Readable p := by
  intro h
  have hnumber : Numeral.read 10 (p.value (.int c.toNat)) = none := hprint.value_const c ▸ h.2
  have hread : Numeral.read 10 (p.value (.int c.toNat)) = some (c.toNat : Int) :=
    Numeral.read_repr (Term.length_toDigits c)
  rw [hread] at hnumber
  cases hnumber

theorem storageEquations_of_readable {position : Value} (h : position.Readable p) (label : String)
    (storage : Table Key Value) {v : Value} (hv : storage.get? (Key.ofValue p position) = some v) :
    storageEquations storage [Names.storage p position label] =
      ((Value.var (Names.storage p position label)).eq v).map ([·]) := by
  rw [storageEquations, if_pos (isStorageName_storage position label),
    (storagePlace_eq_key_iff _ _).2 h]
  simp only [bind, Except.bind, hv]
  cases (Value.var (Names.storage p position label)).eq v <;> rfl

namespace Exec

variable {ctx : Context} {entries : Table Int String} {g : Graph} {root : Call}
variable {history : List (String × Machine)} {m m' : Machine} {s : String × Machine} {site : Site}
  {position : Value} {rest : List Value}

theorem sload_makes (h : (sload ctx).outcome m = (.ok (), m'))
    (hstack : m.path.stack = position :: rest)
    (hmissing : found? ctx.print m.path.world.storage position = none)
    (hlocal : position.toInt? = none ∨ on ctx.settings.useGlobalStorage = false) :
    ∃ label, m'.path.stack =
      m.path.wordFor (Names.storage ctx.print (ctx.simplify.value position) label) :: rest ∧
      m'.path.world.storage.get? (Key.ofValue ctx.print (ctx.simplify.value position)) =
        some (m.path.wordFor (Names.storage ctx.print (ctx.simplify.value position) label)) := by
  obtain ⟨hnumber, htext⟩ := Option.or_eq_none_iff.1 hmissing
  have hunknown : (loadUnknown ctx position).outcome (m.taken rest) = (.ok (), m') := by
    rw [sload, outcome_need_advance _ (by simp [hstack]), hstack, outcome_pop_taken, outcome_bind,
      outcome_getWorld] at h
    have hstorage : (m.taken rest).path.world.storage = m.path.world.storage := rfl
    dsimp only at h
    rw [hstorage, hnumber, htext] at h
    rcases hlocal with hposition | hglobal
    · rwa [hposition] at h
    · rw [hglobal] at h
      cases hposition : position.toInt? <;> rwa [hposition] at h
  rw [loadUnknown] at hunknown
  obtain ⟨label, m₁, hlabel, hunknown⟩ := outcome_bind_eq_ok.1 hunknown
  have halike : Machine.AlikeBut [] _ m₁ := Touches.alike touches_storageLabel hlabel
  have hstack₁ : m₁.path.stack = rest := halike .stack List.not_mem_nil
  have hvars₁ : m₁.path.vars = m.path.vars := halike .vars List.not_mem_nil
  obtain ⟨vars, hword⟩ :=
    outcome_wordFor (Names.storage ctx.print (ctx.simplify.value position) label) m₁
  rw [outcome_bind, hword] at hunknown
  cases hunknown
  have hsame : m₁.path.wordFor (Names.storage ctx.print (ctx.simplify.value position) label) =
      m.path.wordFor (Names.storage ctx.print (ctx.simplify.value position) label) := by
    rw [Path.wordFor, Path.wordFor, hvars₁]
  refine ⟨label, ?_, ?_⟩
  · rw [← hsame, ← hstack₁]
  · rw [← hsame]
    exact Table.get?_insert_self _ _ _

theorem storage_not_given (p : Printer) (position : Value) (label : String) :
    Names.storage p position label ∉ ["Is", "Ia", "Iv"] := by
  have hlength : 8 ≤ (Names.storage p position label).toList.length := by
    rw [toList_storage, List.length_append]
    exact Nat.le_add_right 8 _
  intro h
  simp only [List.mem_cons, List.not_mem_nil, or_false] at h
  rcases h with h | h | h <;> rw [h] at hlength <;> exact absurd hlength (by decide)

/-- A word that a read of storage makes up is kept under the key of its position, and what is read
from its name is that key exactly if the position is a number that is not negative, or else no truth
value and written without a dash and not as a numeral. The equations for the conditions then find
its present value. -/
theorem storage_name_gives_key_iff (hroot : Begins ctx g entries root)
    (hs : Reached ctx entries root history s) (hop : (Instruction.ofText s.1).operation = .sload)
    (hstack : s.2.path.stack = position :: rest)
    (hmissing : found? ctx.print s.2.path.world.storage position = none)
    (hlocal : position.toInt? = none ∨ on ctx.settings.useGlobalStorage = false)
    (h : (traced ctx site s.1).outcome s.2 = (.ok (), m')) : ∃ label, m'.path.stack =
      .var (Names.storage ctx.print (ctx.simplify.value position) label) :: rest ∧
      m'.path.world.storage.get? (Key.ofValue ctx.print (ctx.simplify.value position)) =
        some (.var (Names.storage ctx.print (ctx.simplify.value position) label)) ∧
      (storagePlace (Names.storage ctx.print (ctx.simplify.value position) label) =
        .ok (Key.ofValue ctx.print (ctx.simplify.value position)) ↔
        (ctx.simplify.value position).Readable ctx.print) ∧
      ((ctx.simplify.value position).Readable ctx.print → ∀ storage v,
        storage.get? (Key.ofValue ctx.print (ctx.simplify.value position)) = some v →
        storageEquations storage [Names.storage ctx.print (ctx.simplify.value position) label] =
          ((Value.var (Names.storage ctx.print (ctx.simplify.value position) label)).eq v).map
            ([·])) := by
  obtain ⟨m₁, m₂, -, hbefore, heffect, hafter⟩ := performs_of_traced h
  rw [effect, hop] at heffect
  replace heffect : (sload ctx).outcome m₁ = (.ok (), m₂) := heffect
  have hstack₁ : m₁.path.stack = s.2.path.stack := hbefore .stack (by decide)
  have hstorage₁ : m₁.path.world.storage = s.2.path.world.storage := hbefore .storage (by decide)
  have hvars₁ : m₁.path.vars = s.2.path.vars := hbefore .vars (by decide)
  obtain ⟨label, hpushed, hkept⟩ :=
    sload_makes heffect (hstack₁.trans hstack) (hstorage₁ ▸ hmissing) hlocal
  have hword : m₁.path.wordFor (Names.storage ctx.print (ctx.simplify.value position) label) =
      .var (Names.storage ctx.print (ctx.simplify.value position) label) := by
    rw [Path.wordFor, hvars₁]
    exact (hs.selfNamed hroot).wordFor (storage_not_given _ _ _)
  have hstack' : m'.path.stack = m₂.path.stack := hafter .stack (by decide)
  have hstorage' : m'.path.world.storage = m₂.path.world.storage := hafter .storage (by decide)
  refine ⟨label, ?_, ?_, storagePlace_eq_key_iff _ _, fun hreadable storage v =>
    storageEquations_of_readable hreadable label storage⟩
  · rw [hstack', hpushed, hword]
  · rw [hstorage', hkept, hword]

def readNested : Code := .ofDrafts
  [⟨0, "PUSH1", some "00"⟩, ⟨2, "SLOAD", none⟩, ⟨3, "SLOAD", none⟩, ⟨4, "STOP", none⟩]

theorem block_readNested : (readNested.linked.blocks.get? 0).map Block.instructions =
      some (["PUSH1 0x00 "] ++ "SLOAD " :: ["SLOAD ", "STOP "]) ∧
    (readNested.linked.blocks.get? 0).map Block.instructions =
      some (["PUSH1 0x00 ", "SLOAD "] ++ "SLOAD " :: ["STOP "]) := by
  rw [Code.linked_sorted]
  decide +kernel

theorem run_readNested :
    let passes := Call.Passes affirming readNested.linked
    let m := Call.openedBy affirming readNested.linked ["PUSH1 0x00 "]
    let m' := Call.openedBy affirming readNested.linked ["PUSH1 0x00 ", "SLOAD "]
    let reads := (traced affirming Site.first "SLOAD ").outcome
    passes ["PUSH1 0x00 "] ∧ m.path.stack = [.int 0] ∧
    found? {} m.path.world.storage (.int 0) = none ∧
    (reads m).1.isOk = true ∧ passes ["PUSH1 0x00 ", "SLOAD "] ∧
    m'.path.stack = [.var "Ia_store-0-"] ∧
    (reads m').1.isOk = true ∧
    (reads m').2.path.world.storage.get? (.named "Ia_store-0-") =
    some (.var "Ia_store-Ia_store-0--") := by
  decide +kernel

/-- The word that is made up for the number 0 is found again by its name. -/
theorem storage_name_gives_key_iff_zero : ∃ history s m' label,
    Reached affirming {} (.first affirming readNested.linked) history s ∧
    (traced affirming Site.first s.1).outcome s.2 = (.ok (), m') ∧
    m'.path.world.storage.get? (.at 0) = some (.var (Names.storage {} (.int 0) label)) ∧
    storagePlace (Names.storage {} (.int 0) label) = .ok (.at 0) := by
  obtain ⟨hrun, hstack, hmissing, hok, -⟩ := run_readNested
  have hroot : Begins affirming readNested.linked {} _ :=
    begins_first (.inl rfl) (by decide +kernel)
  have hs := reached_first rfl block_readNested.1 (by decide) (by decide) hrun
  obtain ⟨label, -, hkept, hkey, -⟩ :=
    storage_name_gives_key_iff hroot hs (by decide) hstack hmissing
    (.inr rfl) (outcome_eq_of_isOk hok)
  exact ⟨_, _, _, label, hs, outcome_eq_of_isOk hok, hkept, hkey.2 ⟨by decide, by decide⟩⟩

/-- The word that is made up for a word of storage is not: its name holds more dashes. Nor is one
that is made up for a constant word: its key is a text, and what is read is a number. -/
theorem storage_name_loses_key : (∃ history s m',
      Reached affirming {} (.first affirming readNested.linked) history s ∧
      s.1 = "SLOAD " ∧ s.2.path.stack = [.var "Ia_store-0-"] ∧
      (traced affirming Site.first s.1).outcome s.2 = (.ok (), m') ∧
      m'.path.world.storage.get? (.named "Ia_store-0-") = some (.var "Ia_store-Ia_store-0--") ∧
      storagePlace "Ia_store-Ia_store-0--" = .ok (.named "Ia_store")) ∧
    ∀ (p : Printer) c label, p.Sound →
      storagePlace (Names.storage p (.word (.const c)) label) ≠
        .ok (Key.ofValue p (.word (.const c))) := by
  obtain ⟨-, -, -, -, hrun, hstack, hok, hkept⟩ := run_readNested
  refine ⟨⟨_, _, _, reached_first rfl block_readNested.2 (by decide) (by decide) hrun, rfl, hstack,
    outcome_eq_of_isOk hok, hkept, by decide⟩, fun p c label hprint h => ?_⟩
  exact not_readable_const hprint c ((storagePlace_eq_key_iff _ _).1 h)

end Exec

end EvmAudit
