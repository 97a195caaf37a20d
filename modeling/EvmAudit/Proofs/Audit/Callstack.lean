import EvmAudit.Proofs.Audit.Reports
import EvmAudit.Proofs.Explore.Affected

/-! Calls whose result is not looked at. Those are left out that an exploration has executed without
a change of storage after any of them. -/

namespace EvmAudit.Audit

open Listing Exec

def reportable (affected : Table Int Bool) (r : Int) : Bool :=
  !affected.contains r || affected.get? r == some true

def callstackFinding (affected : Table Int Bool) (pcs : List Int) : Finding where
  vulnerable := !(pcs.filter (reportable affected)).isEmpty
  details := .unavailable
  pcs := pcs.filter (reportable affected)

theorem callstack_eq (pcs : List Int) (affected : Table Int Bool) :
    Finding.callstack none pcs affected = .ok (callstackFinding affected pcs) := by
  have hkept : (fun r => (affected.get? r).getD true) = reportable affected := by
    funext r
    rw [reportable, Table.contains]
    rcases affected.get? r with _ | _ | _ <;> rfl
  rw [callstackFinding, ← hkept]
  rfl

theorem settles_detectCallstack {p : Progress} (hsource : p.source = none) :
    Settles detectCallstack p "callstack" Findings.callstack
      ((Callstack.unchecked (Callstack.mentions p.listing.toList)).map
        (callstackFinding p.machine.shared.affected)) := by
  have hdetect : perform detectCallstack p = perform (do
      let f ← ofExcept ((Callstack.unchecked (Callstack.mentions p.listing.toList)).map
        (callstackFinding p.machine.shared.affected))
      modifyFindings ({ · with callstack := some f })
      enter "callstack" f
      say ("\t  Callstack Depth Attack Vulnerability:  " ++ truthText f.vulnerable)) p := by
    rw [perform_bind, perform_ofExcept, detectCallstack]
    change perform (do
      let pcs ← ofExcept (Callstack.unchecked (Callstack.mentions p.listing.toList))
      let f ← ofExcept (Finding.callstack p.source pcs p.machine.shared.affected)
      modifyFindings ({ · with callstack := some f })
      enter "callstack" f
      say ("\t  Callstack Depth Attack Vulnerability:  " ++ truthText f.vulnerable)) p = _
    rw [perform_bind, perform_ofExcept, hsource]
    cases Callstack.unchecked (Callstack.mentions p.listing.toList) with
    | error e => rfl
    | ok pcs =>
      dsimp only
      rw [callstack_eq, perform_bind, perform_ofExcept]
      rfl
  refine settles_entered hdetect rfl (fun f hf => ?_) (fun _ _ => rfl) fun f => remarks_say _
  rw [hsource]
  exact ⟨_, rfl⟩

/-- When an exploration is over, exactly the places are noted at which it has executed a call with
its operands, and as affecting the state those after which storage is written on the same path. What
affects the state once does so for good, whatever is explored later. Without a source map, the
detector keeps of the calls whose result is not looked at, in their order, those that are not noted
or affect the state. -/
theorem callstack_reported {ctx : Context} {entries : Table Int String} {g : Graph} {root : Call}
    {p : Progress} (hroot : Begins ctx g entries root)
    (hp : p.machine.shared.affected = (root.ending ctx entries).shared.affected)
    (hsource : p.source = none) :
    (∀ r, p.machine.shared.affected.contains r = true ↔ CalledAt ctx entries root r) ∧
    (∀ r, p.machine.shared.affected.get? r = some true ↔ SettledAt ctx entries root r) ∧
    (∀ history s r, Reached ctx entries root history s → s.2.shared.affected.get? r = some true →
      (∀ site, ((traced ctx site s.1).outcome s.2).2.shared.affected.get? r = some true) ∧
      p.machine.shared.affected.get? r = some true) ∧
    match Callstack.unchecked (Callstack.mentions p.listing.toList) with
    | .ok pcs => ∃ f, Reports detectCallstack p "callstack" Findings.callstack f ∧
        f.pcs = pcs.filter (reportable p.machine.shared.affected) ∧
        (f.vulnerable = true ↔ f.pcs ≠ [])
    | .error e => (perform detectCallstack p).1 = .error e := by
  have hnoted := hroot.noted
  rw [← hp] at hnoted
  refine ⟨fun r => hnoted r false, fun r => hnoted r true,
    fun history s r hs htrue => ⟨fun site => ?_, ?_⟩, ?_⟩
  · exact (noted_traced site s.1 s.2 r true).2 (.inl htrue)
  · rw [hp]
    exact noted_gather.mem_ending_of_reached (x := (r, true)) hs htrue
  · have hsettles := settles_detectCallstack hsource
    cases hpcs : Callstack.unchecked (Callstack.mentions p.listing.toList) with
    | error e =>
      rw [hpcs] at hsettles
      exact hsettles
    | ok pcs =>
      rw [hpcs] at hsettles
      exact ⟨_, hsettles, rfl, by simp [callstackFinding]⟩

/-! ### A call before a change of storage, and one behind it -/

def callStoreCall : Code := .ofDrafts
  [⟨0, "PUSH1", some "00"⟩, ⟨2, "DUP1", none⟩, ⟨3, "DUP1", none⟩, ⟨4, "DUP1", none⟩,
    ⟨5, "DUP1", none⟩, ⟨6, "DUP1", none⟩, ⟨7, "DUP1", none⟩, ⟨8, "DUP1", none⟩, ⟨9, "CALL", none⟩,
    ⟨10, "SWAP1", none⟩, ⟨11, "POP", none⟩, ⟨12, "PUSH1", some "00"⟩, ⟨14, "SSTORE", none⟩,
    ⟨15, "PUSH1", some "00"⟩, ⟨17, "DUP1", none⟩, ⟨18, "DUP1", none⟩, ⟨19, "DUP1", none⟩,
    ⟨20, "DUP1", none⟩, ⟨21, "DUP1", none⟩, ⟨22, "DUP1", none⟩, ⟨23, "DUP1", none⟩,
    ⟨24, "CALL", none⟩, ⟨25, "SWAP1", none⟩, ⟨26, "POP", none⟩, ⟨27, "STOP", none⟩]

def callStoreCallTexts : List String :=
  ["PUSH1 0x00 ", "DUP1 ", "DUP1 ", "DUP1 ", "DUP1 ", "DUP1 ", "DUP1 ", "DUP1 ", "CALL ", "SWAP1 ",
    "POP ", "PUSH1 0x00 ", "SSTORE ", "PUSH1 0x00 ", "DUP1 ", "DUP1 ", "DUP1 ", "DUP1 ", "DUP1 ",
    "DUP1 ", "DUP1 ",
    "CALL ", "SWAP1 ", "POP ", "STOP "]

def callStoreCallRoot : Call := .first affirming callStoreCall.assembled

theorem begins_callStoreCall : Begins affirming callStoreCall.linked {} callStoreCallRoot :=
  begins_unsourced callStoreCall.linked_sorted rfl (by decide +kernel)

def callStoreCallEnd : Machine := callStoreCallRoot.ending affirming {}

def callStoreCallListing : String :=
  "9 CALL\n10 SWAP1\n11 POP\n12 PUSH1 => 0x00\n14 SSTORE\n24 CALL\n25 SWAP1\n26 POP\n27 STOP\n"

theorem affected_callStoreCall :
    callStoreCallEnd.shared.affected.entries = [(9, true), (24, false)] := by
  decide +kernel

theorem unchecked_callStoreCall :
    (Callstack.unchecked (Callstack.mentions callStoreCallListing.toList)).toOption =
      some [9, 24] := by
  decide +kernel

/-- Both calls are executed, but storage is written only after the first one, and it alone is
reported. -/
theorem callstack_reported_callStoreCall :
    SettledAt affirming {} callStoreCallRoot 9 ∧
    CalledAt affirming {} callStoreCallRoot 24 ∧
    ¬ SettledAt affirming {} callStoreCallRoot 24 ∧
    ∃ f, f.pcs = [9] ∧ Reports detectCallstack
      { machine := callStoreCallEnd, listing := callStoreCallListing } "callstack"
        Findings.callstack f := by
  have hend : callStoreCallEnd.shared.affected =
      (callStoreCallRoot.ending affirming {}).shared.affected := by
    unfold callStoreCallEnd
    exact Eq.refl _
  have hentries := affected_callStoreCall
  have hunchecked := unchecked_callStoreCall
  generalize callStoreCallEnd = m at hend hentries ⊢
  generalize callStoreCallListing = listing at hunchecked ⊢
  have haffected : m.shared.affected = ⟨[(9, true), (24, false)]⟩ := congrArg Table.mk hentries
  obtain ⟨hcalled, hsettled, -, hreport⟩ := callstack_reported (p := { machine := m, listing })
    begins_callStoreCall hend rfl
  dsimp only at hcalled hsettled hreport
  rw [haffected] at hcalled hsettled hreport
  cases hpcs : Callstack.unchecked (Callstack.mentions listing.toList) with
  | error e =>
    rw [hpcs] at hunchecked
    cases hunchecked
  | ok pcs =>
    rw [hpcs] at hunchecked hreport
    cases hunchecked
    obtain ⟨f, hf, hkept, -⟩ := hreport
    exact ⟨(hsettled 9).1 rfl, (hcalled 24).1 rfl, fun h => absurd ((hsettled 24).2 h) (by decide),
      f, hkept, hf⟩

end EvmAudit.Audit
