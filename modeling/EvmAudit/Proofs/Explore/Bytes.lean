import EvmAudit.Proofs.Explore.Memory

/-! The bytes of memory. A store at a number that is not negative finds room for its bytes, which
grow by whole words, and leaves the other bytes alone. -/

namespace EvmAudit

/-- What a store at an address makes of the bytes. -/
structure Bytes.Stored (a : Int) (b b' : Bytes) : Prop where
  whole : 32 ∣ b.size → 32 ∣ b'.size
  grows : b.size ≤ b'.size
  room : a + 32 ≤ b'.size
  kept : ∀ i : Nat, (i : Int) < a ∨ a + 32 ≤ i → b'.get i = b.get i

namespace Exec

variable {ctx : Context} {entries : Table Int String} {g : Graph} {root : Call}
  {history : List (String × Machine)}
variable {m m' : Machine} {a : Int} {q : Value} {s : String × Machine}

/-! ### One store -/

theorem mod_ne_missingItem (v : Value) : v.mod (.int 256) ≠ .error .missingItem := by
  cases v with
  | double x =>
    obtain ⟨u, hu⟩ := @mod_of_splits (.double x) trivial
    simp [hu]
  | _ =>
    simp [Value.mod, Value.Arithmetic.apply, Value.toInt?, Value.asDouble, Value.asRatio,
      Value.asTerm, bind, Except.bind, pure, Except.pure]

theorem div_ne_missingItem (v : Value) : v.div (.int 256) ≠ .error .missingItem := by
  cases v with
  | double x =>
    obtain ⟨u, hu, -⟩ := @div_of_splits (.double x) trivial
    simp [hu]
  | int n | bool b =>
    simp only [Value.div, Value.Arithmetic.apply, Value.toInt?]
    split
    · simp
    · split <;> simp
  | _ =>
    simp [Value.div, Value.Arithmetic.apply, Value.toInt?, Value.asDouble, Value.asRatio,
      Value.asTerm, bind, Except.bind, pure, Except.pure]

theorem setBytes_cells (ha : 0 ≤ a) (n : Nat) (v : Value) (hsize : a + n ≤ m.path.bytes.size) :
    ((setBytes a n v).outcome m).1 ≠ .error .missingItem ∧
      ((setBytes a n v).outcome m).2.path.bytes.size = m.path.bytes.size ∧
      ∀ i : Nat, (i : Int) < a ∨ a + n ≤ i →
      ((setBytes a n v).outcome m).2.path.bytes.get i = m.path.bytes.get i := by
  induction n generalizing v m with
  | zero => exact ⟨by simp [setBytes], rfl, fun _ _ => rfl⟩
  | succ n ih =>
    rw [setBytes, outcome_bind, outcome_ofExcept]
    rcases hbyte : v.mod (.int 256) with e | byte
    · exact ⟨fun h => mod_ne_missingItem v (hbyte.trans (by simpa using h)), rfl, fun _ _ => rfl⟩
    · dsimp only
      rw [outcome_bind, outcome_setByte byte (by omega) (by omega)]
      dsimp only
      have hset (i : Nat) (hi : (i : Int) < a ∨ a + (n + 1 : Nat) ≤ i) :
          (m.path.bytes.set (a + n).toNat byte).get i = m.path.bytes.get i :=
        Bytes.get_set_of_ne (by omega) _ _
      rw [outcome_bind, outcome_ofExcept]
      rcases hrest : v.div (.int 256) with e | rest
      · exact ⟨fun h => div_ne_missingItem v (hrest.trans (by simpa using h)), rfl, hset⟩
      · obtain ⟨hfound, hkept, hcells⟩ := @ih { m with path := { m.path with
          bytes := m.path.bytes.set (a + n).toNat byte } } rest (by simp; omega)
        exact ⟨hfound, hkept, fun i hi => (hcells i (by omega)).trans (hset i hi)⟩

theorem storeBytes_cells (hq : q.toInt? = some a) (ha : 0 ≤ a) (v : Value) (m : Machine) :
    ((storeBytes ctx q v).outcome m).1 ≠ .error .missingItem ∧
      ∀ m', (storeBytes ctx q v).outcome m = (.ok (), m') →
      m.path.bytes.Stored a m'.path.bytes := by
  have hstore : storeBytes ctx q v = (do extendBytes ctx a; setBytes a 32 v) := by
    rw [storeBytes, hq]
  rw [hstore, outcome_bind]
  rcases hextend : (extendBytes ctx a).outcome m with ⟨e | u, m₁⟩
  · have hfound : e ≠ .missingItem := by
      rintro rfl
      rw [extendBytes, outcome_bind_getPath] at hextend
      dsimp only at hextend
      split at hextend
      · cases hextend
      · split at hextend <;> cases hextend
    simp [hfound]
  · rw [outcome_extendBytes (room_of_extendBytes hextend)] at hextend
    cases hextend
    dsimp only
    have hceil := le_ceil32 (a + 32)
    obtain ⟨hfound, hsize, hcells⟩ := @setBytes_cells { m with path := { m.path with
      bytes := m.path.bytes.extend (missingBytes m.path a).toNat } } a ha 32 v (by
        simp only [Bytes.size_extend, missingBytes]
        omega)
    refine ⟨hfound, fun m' h => ?_⟩
    rw [h] at hsize hcells
    simp only [Bytes.size_extend, missingBytes] at hsize
    exact ⟨by omega, by omega, by omega, hcells⟩

/-! ### Every path -/

/-- The number at which an instruction stores a word. -/
def storedAt? (s : String × Machine) : Option Int :=
  if (Instruction.ofText s.1).operation = .mstore then s.2.path.stack.head?.bind Value.toInt?
  else none

theorem bytes_traced {site : Site} {text : String} (h : Traces ctx site text m m') :
    (storedAt? (text, m) = none → m'.path.bytes = m.path.bytes) ∧
      ∀ a, storedAt? (text, m) = some a → 0 ≤ a → m.path.bytes.Stored a m'.path.bytes := by
  obtain ⟨m₁, m₂, -, hbefore, heffect, hafter⟩ := performs_of_traced h
  unfold storedAt?
  split
  next hop =>
    rw [effect, hop] at heffect
    obtain ⟨q, v, rest, m₃, hstack, hstore, -, hbytes⟩ := stores_of_mstore heffect
    rw [← hbefore.stack, hstack, ← hbefore.bytes, hafter.bytes, hbytes]
    refine ⟨fun hnone => ?_, fun a ha hnonneg => ?_⟩
    · have hquiet : storeBytes ctx q v = pure () := by
        rw [storeBytes, show q.toInt? = none from hnone]
      rw [hquiet] at hstore
      cases hstore
      rfl
    · exact (storeBytes_cells ha hnonneg v (m₁.taken rest)).2 m₃ hstore
  next hop =>
    have hsame := bytes_of_perform ctx site (Instruction.ofText text).name hop m₁
    rw [heffect] at hsame
    exact ⟨fun _ => hafter.bytes.trans (hsame.trans hbefore.bytes), by rintro _ ⟨⟩⟩

/-- What the instructions executed so far have made of the bytes. -/
structure BytesHeld (history : List (String × Machine)) (b : Bytes) : Prop where
  whole : 32 ∣ b.size
  grows : ∀ w ∈ history, w.2.path.bytes.size ≤ b.size
  room : ∀ w ∈ history, ∀ a, storedAt? w = some a → a + 32 ≤ b.size

theorem keeps_bytes : Keeps ctx fun history p =>
    (∀ w ∈ history, ∀ a, storedAt? w = some a → 0 ≤ a) → BytesHeld history p.bytes where
  traced {history site text m m'} hbefore h hnonneg := by
    rw [List.forall_mem_append, List.forall_mem_singleton] at hnonneg
    obtain ⟨hwhole, hgrows, hroom⟩ := hbefore hnonneg.1
    obtain ⟨hnone, hsome⟩ := bytes_traced h
    have hstep : 32 ∣ m'.path.bytes.size ∧ m.path.bytes.size ≤ m'.path.bytes.size ∧
        ∀ a, storedAt? (text, m) = some a → a + 32 ≤ m'.path.bytes.size := by
      cases hat : storedAt? (text, m) with
      | none =>
        rw [hnone hat]
        exact ⟨hwhole, Nat.le_refl _, by rintro _ ⟨⟩⟩
      | some a =>
        have hstored := hsome a hat (hnonneg.2 a hat)
        refine ⟨hstored.whole hwhole, hstored.grows, fun a' ha' => ?_⟩
        cases ha'
        exact hstored.room
    refine ⟨hstep.1, fun w hw => ?_, fun w hw a ha => ?_⟩
    · rcases List.mem_append.1 hw with hw | hw
      · exact Nat.le_trans (hgrows w hw) hstep.2.1
      · cases List.mem_singleton.1 hw
        exact hstep.2.1
    · rcases List.mem_append.1 hw with hw | hw
      · have := hroom w hw a ha
        have := hstep.2.1
        omega
      · cases List.mem_singleton.1 hw
        exact hstep.2.2 a ha

/-- The bytes on any path on which no word is stored at a negative number. They are whole words and
never become fewer, and there are enough of them for what has been stored. Only a store at a number
changes them: it finds all the bytes that it sets, and leaves the others as they are. -/
theorem bytes_of_path (hroot : Begins ctx g entries root) (hs : Reached ctx entries root history s)
    (hnonneg : ∀ w ∈ history, ∀ a, storedAt? w = some a → 0 ≤ a) :
    BytesHeld history s.2.path.bytes ∧
    (storedAt? s = none → ∀ site m', (traced ctx site s.1).outcome s.2 = (.ok (), m') →
      m'.path.bytes = s.2.path.bytes) ∧
    ∀ a, storedAt? s = some a → 0 ≤ a →
      (∀ q v m, q.toInt? = some a → ((storeBytes ctx q v).outcome m).1 ≠ .error .missingItem) ∧
      ∀ site m', (traced ctx site s.1).outcome s.2 = (.ok (), m') →
        32 ∣ m'.path.bytes.size ∧ s.2.path.bytes.Stored a m'.path.bytes := by
  have hempty : root.machine.path.bytes = {} := hroot.alike.bytes
  have hheld : BytesHeld history s.2.path.bytes :=
    hs.keeps keeps_bytes (fun _ => by rw [hempty]; exact ⟨by decide, by simp, by simp⟩) hnonneg
  refine ⟨hheld, fun hnone site m' h => (bytes_traced h).1 hnone,
    fun a ha hnonneg => ⟨?_, fun site m' h => ?_⟩⟩
  · exact fun q v m hq => (storeBytes_cells hq hnonneg v m).1
  · have hstored := (bytes_traced h).2 a ha hnonneg
    exact ⟨hstored.whole hheld.whole, hstored⟩

theorem stores_writeAndRead :
    let history := steps affirming Site.first writeAndReadTexts
      (Call.opened affirming writeAndRead.linked)
    let m := Call.openedBy affirming writeAndRead.linked writeAndReadTexts
    (∀ w ∈ history, ∀ a ∈ storedAt? w, 0 ≤ a) ∧ history.filterMap storedAt? = [0] ∧
    storedAt? ("MSTORE ", m) = some 64 ∧
    ((traced affirming Site.first "MSTORE ").outcome m).1.isOk = true := by
  decide +kernel

/-- A word is stored behind another one, which keeps its bytes. -/
theorem bytes_of_path_writeAndRead : ∃ history w m',
    Reached affirming {} (.first affirming writeAndRead.linked) history w ∧
    history.filterMap storedAt? = [0] ∧ BytesHeld history w.2.path.bytes ∧ storedAt? w = some 64 ∧
    (traced affirming Site.first w.1).outcome w.2 = (.ok (), m') ∧
    32 ∣ m'.path.bytes.size ∧ w.2.path.bytes.Stored 64 m'.path.bytes := by
  obtain ⟨hfirst, -⟩ := run_writeAndRead
  obtain ⟨hnonneg, hstores, hat, hok⟩ := stores_writeAndRead
  have hroot : Begins affirming writeAndRead.linked {} _ :=
    begins_first (.inl rfl) (by decide +kernel)
  have hw := reached_first rfl block_writeAndRead (by decide) (by decide) hfirst
  obtain ⟨hheld, -, hcells⟩ := bytes_of_path hroot hw hnonneg
  exact ⟨_, _, _, hw, hstores, hheld, hat, outcome_eq_of_isOk hok,
    (hcells 64 hat (by decide)).2 Site.first _ (outcome_eq_of_isOk hok)⟩

end Exec

end EvmAudit
