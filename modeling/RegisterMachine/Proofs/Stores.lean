import RegisterMachine.Host.Routine
import RegisterMachine.Proofs.Outcomes

/-!
# What a request can change

A request that is granted leaves memory alone, or changes one register of a writable bank: its bytes
inside their bounds, or its layout to one that the bytes are enough for. What this keeps, every host
function keeps too, since requests are all that it can make.
-/

namespace RegisterMachine

namespace Registers

variable {memory next : Registers} {operand : Operand}

/-! ### One register -/

def SameRegister (first second : Operand) : Prop :=
  first.bank = second.bank ∧ first.register = second.register

instance (first second : Operand) : Decidable (SameRegister first second) :=
  inferInstanceAs (Decidable (_ ∧ _))

theorem register_eq_ok_iff {register : Register} :
    memory.register operand = .ok register ↔
      (memory.bank operand.bank)[operand.register.toNat]? = some register := by
  unfold Registers.register
  split
  · next found h => simp [h]
  · next h => simp [h]

theorem ext_lookup {first second : Registers}
    (h : ∀ (bank : Bank) (index : Nat), (first.bank bank)[index]? = (second.bank bank)[index]?) :
    first = second := by
  have hbank : ∀ bank, first.bank bank = second.bank bank :=
    fun bank => Array.ext_getElem? (h bank)
  obtain ⟨work, literal, external⟩ := first
  obtain ⟨work', literal', external'⟩ := second
  obtain rfl : work = work' := hbank .work
  obtain rfl : literal = literal' := hbank .literal
  obtain rfl : external = external' := hbank .external
  rfl

theorem lookup_update (memory : Registers) (operand : Operand) (f : Register → Register)
    (bank : Bank) (index : Nat) :
    ((memory.update operand f).bank bank)[index]? =
      if operand.bank = bank ∧ operand.register.toNat = index then
        (memory.bank bank)[index]?.map f
      else (memory.bank bank)[index]? := by
  have hbank : (memory.update operand f).bank bank =
      if operand.bank = bank then (memory.bank bank).modify operand.register.toNat f
      else memory.bank bank := by
    obtain ⟨named, register, element⟩ := operand
    cases named <;> cases bank <;> rfl
  rw [hbank]
  by_cases hb : operand.bank = bank
  · rw [if_pos hb, Array.getElem?_modify]
    simp only [hb, true_and]
  · rw [if_neg hb, if_neg (fun h => hb h.1)]

/-- Changing one register leaves the others alone. -/
theorem register_update_of_ne {other : Operand} (h : ¬ SameRegister other operand)
    (f : Register → Register) :
    (memory.update operand f).register other = memory.register other := by
  have hne : ¬ (operand.bank = other.bank ∧ operand.register.toNat = other.register.toNat) :=
    fun hs => h ⟨hs.1.symm, (UInt16.toNat_inj.mp hs.2).symm⟩
  unfold Registers.register
  rw [lookup_update, if_neg hne]

theorem update_update (memory : Registers) (operand : Operand) (f g : Register → Register) :
    (memory.update operand f).update operand g = memory.update operand (g ∘ f) := by
  apply ext_lookup
  intro bank index
  simp only [lookup_update]
  split
  · rw [Option.map_map]
  · rfl

/-- Only what a change does to the register that is there matters. -/
theorem update_congr {register : Register} (hr : memory.register operand = .ok register)
    {f g : Register → Register} (h : f register = g register) :
    memory.update operand f = memory.update operand g := by
  apply ext_lookup
  intro bank index
  simp only [lookup_update]
  split
  · next hs =>
    obtain ⟨rfl, rfl⟩ := hs
    rw [register_eq_ok_iff.mp hr, Option.map_some, Option.map_some, h]
  · rfl

/-! ### Ranges -/

/-- What one element resolves to lies inside its register. -/
theorem element_eq_ok {span : Span} (h : memory.element operand = .ok span) :
    ∃ register, memory.register operand = .ok register ∧
      span.start + span.size ≤ register.capacity := by
  obtain ⟨register, hr, h⟩ := Outcome.bind_eq_ok.mp h
  obtain ⟨index, -, h⟩ := Outcome.bind_eq_ok.mp h
  exact ⟨register, hr, Register.elementSpan_le h⟩

theorem region_eq_ok {span : Span} (h : memory.region operand = .ok span) :
    ∃ register, memory.register operand = .ok register ∧
      span.start + span.size ≤ register.capacity := by
  unfold region at h
  split at h
  · obtain ⟨register, hr, h⟩ := Outcome.bind_eq_ok.mp h
    exact ⟨register, hr, Register.wholeSpan_le h⟩
  · exact element_eq_ok h

private theorem checkWritable_eq_ok (h : checkWritable operand = .ok ()) :
    operand.bank ≠ .literal := by
  unfold checkWritable at h
  split at h
  · cases h
  · next hne => exact hne

/-! ### One change -/

/-- How memory can come out of a request. -/
inductive Change (memory : Registers) : Registers → Prop
  | none : Change memory memory
  | update {operand : Operand} {register : Register} {f : Register → Register}
      (hw : operand.bank ≠ .literal) (hr : memory.register operand = .ok register)
      (hc : (f register).capacity = register.capacity)
      (hl : (f register).layout = register.layout ∨
        (f register).layout.fitsIn register.capacity = true) :
      Change memory (memory.update operand f)

private theorem Change.store {register : Register} {start : Nat} {bytes : List UInt8}
    (hw : operand.bank ≠ .literal) (hr : memory.register operand = .ok register)
    (hle : start + bytes.length ≤ register.capacity) :
    Change memory (memory.store operand start bytes) :=
  .update hw hr (Register.capacity_splice hle) (.inl rfl)

/-- A store that is refused changes nothing. -/
theorem Change.commit {stored : Except Fault Registers}
    (h : ∀ next, stored = .ok next → Change memory next) : Change memory (memory.commit stored).2 := by
  cases stored with
  | ok next => exact h next rfl
  | error fault => exact .none

/-- Every store by an overwriting request is of as many bytes as its operand resolves to. -/
theorem Change.overwrite {resolved : Except Fault Span} {content : Span → List UInt8}
    (hs : ∀ span, resolved = .ok span → ∃ register, memory.register operand = .ok register ∧
      span.start + span.size ≤ register.capacity)
    (hlen : ∀ span, (content span).length ≤ span.size)
    (h : (do
      let span ← resolved
      checkWritable operand
      return memory.store operand span.start (content span)) = .ok next) : Change memory next := by
  obtain ⟨span, hspan, h⟩ := Outcome.bind_eq_ok.mp h
  obtain ⟨_, hw, h⟩ := Outcome.bind_eq_ok.mp h
  cases h
  obtain ⟨register, hr, hle⟩ := hs span hspan
  exact .store (checkWritable_eq_ok hw) hr (Nat.le_trans (Nat.add_le_add_left (hlen span) _) hle)

private theorem Change.changeType {layout : Layout}
    (h : memory.changeType operand layout = .ok next) :
    Change memory next := by
  obtain ⟨_, hw, h⟩ := Outcome.bind_eq_ok.mp h
  obtain ⟨register, hr, h⟩ := Outcome.bind_eq_ok.mp h
  split at h
  · next hf =>
    cases h
    exact .update (checkWritable_eq_ok hw) hr rfl (.inr hf)
  · cases h

private theorem Change.copy {source target : Operand} (h : memory.copy source target = .ok next) :
    Change memory next := by
  obtain ⟨bytes, -, h⟩ := Outcome.bind_eq_ok.mp h
  apply Change.overwrite (fun span => region_eq_ok) _ h
  exact fun span => List.length_take_le _ _

/-- Whatever is asked of memory, it comes out with at most one such change. -/
theorem change_serve (memory : Registers) (request : Request) :
    Change memory (memory.serve request).2 := by
  cases request with
  | writeBool operand value =>
    apply Change.commit
    intro next h
    exact Change.overwrite (fun span => element_eq_ok)
      (fun span => Nat.le_of_eq (Truth.length_toBytes span.size value)) h
  | writeInt operand value =>
    apply Change.commit
    intro next h
    exact Change.overwrite (fun span => element_eq_ok)
      (fun span => Nat.le_of_eq (Integer.length_toBytes span.size value)) h
  | zero operand =>
    apply Change.commit
    intro next h
    exact Change.overwrite (fun span => region_eq_ok)
      (fun span => Nat.le_of_eq List.length_replicate) h
  | copy source target =>
    apply Change.commit
    intro next h
    exact Change.copy h
  | changeType operand layout =>
    apply Change.commit
    intro next h
    exact Change.changeType h
  | _ => exact .none

private theorem commit_refused {stored : Except Fault Registers} {fault : Fault}
    (h : (memory.commit stored).1 = .error fault) : (memory.commit stored).2 = memory := by
  cases stored with
  | ok next => cases h
  | error refusal => rfl

theorem commit_granted {stored : Except Fault Registers} (h : (memory.commit stored).1 = .ok ()) :
    stored = .ok (memory.commit stored).2 := by
  cases stored with
  | ok next => rfl
  | error refusal => cases h

/-- A request that is refused changes nothing. -/
theorem serve_refused {request : Request} {fault : Fault}
    (h : (memory.serve request).1 = .error fault) : (memory.serve request).2 = memory := by
  cases request with
  | writeBool operand value => exact commit_refused h
  | writeInt operand value => exact commit_refused h
  | zero operand => exact commit_refused h
  | copy source target => exact commit_refused h
  | changeType operand layout => exact commit_refused h
  | _ => rfl

end Registers

/-- What every request keeps, every routine keeps. -/
theorem Routine.run_keeps {P : Registers → Prop}
    (hP : ∀ memory request, P memory → P (memory.serve request).2) {α : Type}
    (routine : Routine α) {memory : Registers} (h : P memory) : P (routine.run memory).memory := by
  induction routine generalizing memory with
  | done result => exact h
  | ask request next ih => exact ih _ (hP memory request h)
  | log line next ih => exact ih h

end RegisterMachine
