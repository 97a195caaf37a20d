import EvmAudit.Operation
import EvmAudit.Proofs.Listing.Line
import EvmAudit.Proofs.Text

/-! The operation that a line of a listing stands for. -/

namespace EvmAudit

namespace Listing.Line

theorem space_not_mem_mnemonic (l : Line) : ' ' ∉ l.mnemonic.toList := by
  obtain ⟨c, cs, hcs, hc, hall⟩ := l.exists_mnemonic
  rw [hcs, List.mem_cons, not_or]
  refine ⟨fun h => ?_, fun h => ?_⟩
  · rw [← h] at hc
    cases hc
  · exact absurd (hall ' ' h) (by decide)

def words (l : Line) : List String :=
  match l.operand with
  | none => [""]
  | some s => ["0x" ++ s, ""]

theorem splitAt_text (l : Line) : Text.splitAt ' ' l.text = l.mnemonic :: l.words := by
  unfold text words
  cases ho : l.operand with
  | none =>
    have h : (l.mnemonic ++ " ").toList = l.mnemonic.toList ++ ' ' :: [] := by simp
    simp only [Text.splitAt, h, Text.cutAt_append l.space_not_mem_mnemonic]
    simp [Text.cutAt]
  | some s =>
    have hs : ' ' ∉ '0' :: 'x' :: s.toList := by
      simp only [List.mem_cons, not_or]
      refine ⟨by decide, by decide, fun h => ?_⟩
      exact absurd ((operand_digits ho).2 ' ' h) (by decide)
    have h : (l.mnemonic ++ " " ++ ("0x" ++ s) ++ " ").toList =
        l.mnemonic.toList ++ ' ' :: (('0' :: 'x' :: s.toList) ++ ' ' :: []) := by simp
    have h0 : String.ofList ('0' :: 'x' :: s.toList) = "0x" ++ s := by
      rw [← String.toList_inj]
      simp
    simp only [Text.splitAt, h, Text.cutAt_append l.space_not_mem_mnemonic, Text.cutAt_append hs]
    simp [Text.cutAt, h0]

theorem ofText_text (l : Line) :
    Instruction.ofText l.text = ⟨l.mnemonic, .ofWords l.mnemonic l.words⟩ := by
  rw [Instruction.ofText, splitAt_text]

theorem mem_of_lookup {α : Type} {name : String} {a : α} {table : List (String × α)}
    (h : table.lookup name = some a) : (name, a) ∈ table := by
  induction table with
  | nil => cases h
  | cons e table ih =>
    obtain ⟨key, value⟩ := e
    rw [List.lookup_cons] at h
    split at h
    next he =>
      cases h
      rw [beq_iff_eq.1 he]
      exact List.mem_cons_self
    · exact List.mem_cons_of_mem _ (ih h)

theorem mnemonic_of_jumpIf {l : Line} (h : (Instruction.ofText l.text).operation = .jumpIf) :
    l.mnemonic = "JUMPI" := by
  rw [ofText_text] at h
  dsimp only at h
  unfold Operation.ofWords at h
  split at h
  next op hop =>
    subst h
    have hall : ∀ e ∈ Operation.named, e.2 = .jumpIf → e.1 = "JUMPI" := by decide
    exact hall _ (mem_of_lookup hop) rfl
  · split at h <;> cases h

end Listing.Line

end EvmAudit
