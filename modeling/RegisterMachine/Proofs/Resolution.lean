import RegisterMachine.Proofs.Footprints
import RegisterMachine.Proofs.Words

/-!
# Operand resolution is exact

What an operand resolves to, said once in exact numbers: the register must be there, the index must be
one that the layout has, and the bytes must be there. All that reads, compares or overwrites registers
is then carried out in machine words. It comes to the same, so that no operation on the way overflows
and no byte is sought outside the register that it is taken from.
-/

namespace RegisterMachine

open Word

namespace Registers

/-- The number of bytes of every register is a word. -/
def Addressable (memory : Registers) : Prop :=
  ∀ bank, ∀ register ∈ memory.bank bank, register.Addressable

instance (memory : Registers) : Decidable memory.Addressable :=
  decidable_of_iff (∀ bank ∈ Bank.all, ∀ register ∈ memory.bank bank, register.capacity < UInt64.size)
    ⟨fun h bank => h bank (by cases bank <;> decide), fun h bank _ => h bank⟩

def indexInWords (memory : Registers) : Element → Except Trap Int64
  | .whole => .ok 0
  | .fixed index => .ok index.toUInt64.toInt64
  | .indirect number => do
    let register ← lift (memory.register (.work number))
    let window ← register.elementInWords 0
    Integer.ofBytesInWords (← register.sliceInWords window)

def elementInWords (memory : Registers) (operand : Operand) : Except Trap WordSpan := do
  let register ← lift (memory.register operand)
  let index ← memory.indexInWords operand.element
  register.elementInWords index

def regionInWords (memory : Registers) (operand : Operand) : Except Trap WordSpan :=
  match operand.element with
  | .whole => do
    let register ← lift (memory.register operand)
    register.wholeInWords
  | _ => memory.elementInWords operand

/-- Take the bytes of a window that was found for an operand. -/
def takeInWords (memory : Registers) (operand : Operand) (found : Except Trap WordSpan) :
    Except Trap (List UInt8) := do
  let window ← found
  let register ← lift (memory.register operand)
  register.sliceInWords window

def readBoolInWords (memory : Registers) (operand : Operand) : Except Trap Bool := do
  return Truth.ofBytes (← memory.takeInWords operand (memory.elementInWords operand))

def readIntInWords (memory : Registers) (operand : Operand) : Except Trap Int64 := do
  Integer.ofBytesInWords (← memory.takeInWords operand (memory.elementInWords operand))

def equalsInWords (memory : Registers) (left right : Operand) : Except Trap Bool := do
  let first ← memory.regionInWords left
  let second ← memory.regionInWords right
  if first.size ≠ second.size then return false
  let leftBytes ← memory.takeInWords left (.ok first)
  let rightBytes ← memory.takeInWords right (.ok second)
  return leftBytes == rightBytes

/-- Overwrite a window that was found for an operand, once this is known to be allowed. -/
def overwriteInWords (memory : Registers) (operand : Operand) (found : Except Trap WordSpan)
    (allowed : Except Fault Unit) (content : Nat → List UInt8) : Except Trap Registers := do
  let window ← found
  lift allowed
  let _ ← memory.takeInWords operand (.ok window)
  return memory.store operand window.start.toNat (content window.size.toNat)

def copyInWords (memory : Registers) (source target : Operand) : Except Trap Registers := do
  let origin ← memory.regionInWords source
  let goal ← memory.regionInWords target
  lift (checkWritable target)
  let size := min origin.size goal.size
  let bytes ← memory.takeInWords source (.ok { origin with size })
  let _ ← memory.takeInWords target (.ok { goal with size })
  return memory.store target goal.start.toNat bytes

def changeTypeInWords (memory : Registers) (operand : Operand) (layout : Layout) :
    Except Trap Registers := do
  lift (checkWritable operand)
  let register ← lift (memory.register operand)
  if register.roomInWords layout then return memory.update operand ({ · with layout })
  else lift (Fault.raise .layoutTooLarge)

def putInWords (memory : Registers) : Store → Except Trap Registers
  | .writeBool operand value =>
    memory.overwriteInWords operand (memory.elementInWords operand) (checkWritable operand)
      (Truth.toBytes · value)
  | .writeInt operand value =>
    memory.overwriteInWords operand (memory.elementInWords operand) (checkWritable operand)
      (Integer.toBytes · value)
  | .zero operand =>
    memory.overwriteInWords operand (memory.regionInWords operand) (checkWritable operand)
      (List.replicate · 0)
  | .copy source target => memory.copyInWords source target
  | .changeType operand layout => memory.changeTypeInWords operand layout
  | .setBool operand value =>
    memory.overwriteInWords operand (memory.elementInWords operand) (.ok ()) (Truth.toBytes · value)
  | .setInt operand value =>
    memory.overwriteInWords operand (memory.elementInWords operand) (.ok ()) (Integer.toBytes · value)

variable {memory : Registers} {operand : Operand}

/-- The index that an element stands for: none is the first, one that is fixed is itself, and one in a
work register is read there. -/
def Selects (memory : Registers) : Element → Int → Prop
  | .whole, index => index = 0
  | .fixed number, index => index = number.toNat
  | .indirect number, index =>
    ∃ value, memory.readInt (.work number) = .ok value ∧ index = value.toInt

private theorem index_indirect (memory : Registers) (number : UInt16) :
    memory.index (.indirect number) = (memory.readInt (.work number)).map Int64.toInt := by
  simp only [index, readInt, elementBytes, element, Operand.work, firstInt]
  cases memory.register { bank := .work, register := number } with
  | error fault => rfl
  | ok register =>
    cases h : register.elementSpan 0 with
    | error fault => simp [bind, Except.bind, Except.map, h]
    | ok span => simp [bind, Except.bind, Except.map, h, pure, Except.pure]

theorem index_eq_ok_iff {chosen : Element} {index : Int} :
    memory.index chosen = .ok index ↔ memory.Selects chosen index := by
  cases chosen with
  | whole => simp [Registers.index, Selects, eq_comm]
  | fixed number => simp [Registers.index, Selects, eq_comm]
  | indirect number =>
    rw [index_indirect, Outcome.map_eq_ok]
    simp only [Selects, eq_comm]

namespace Addressable

variable (h : memory.Addressable)

include h

private theorem register {register : Register} (hr : memory.register operand = .ok register) :
    register.Addressable :=
  h operand.bank register (Array.mem_of_getElem? (register_eq_ok_iff.mp hr))

private theorem indexInWords (chosen : Element) :
    Agrees Int64.toInt (memory.indexInWords chosen) (memory.index chosen) := by
  cases chosen with
  | whole => rfl
  | fixed index => exact congrArg Except.ok (Integer.toInt_toInt64 index)
  | indirect number =>
    apply Agrees.lift_bind
    intro register hr
    have hregister := h.register hr
    unfold firstInt
    rcases (hregister.elementInWords 0).cases with ⟨fault, hw, hs⟩ | ⟨window, hw, hs⟩
    · rw [hw, show register.elementSpan 0 = .error fault from hs]
      rfl
    · rw [hw, show register.elementSpan 0 = .ok window.span from hs]
      have hslice := hregister.sliceInWords (Register.elementSpan_le hs)
      simp only [bind, Except.bind, hslice, Integer.ofBytesInWords_eq]
      rfl

private theorem elementInWords (operand : Operand) :
    Agrees WordSpan.span (memory.elementInWords operand) (memory.element operand) := by
  apply Agrees.lift_bind
  intro register hr
  apply (h.indexInWords operand.element).bind
  intro index _
  exact (h.register hr).elementInWords index

private theorem regionInWords (operand : Operand) :
    Agrees WordSpan.span (memory.regionInWords operand) (memory.region operand) := by
  unfold Registers.regionInWords region
  cases operand.element with
  | whole =>
    apply Agrees.lift_bind
    intro register hr
    exact (h.register hr).wholeInWords
  | fixed index => exact h.elementInWords operand
  | indirect number => exact h.elementInWords operand

/-- The bytes of a window that was found can be taken. -/
theorem takeInWords {register : Register} (hr : memory.register operand = .ok register)
    {window : WordSpan} (hw : window.span.start + window.span.size ≤ register.capacity) :
    memory.takeInWords operand (.ok window) = .ok (register.slice window.span) := by
  have hslice := (h.register hr).sliceInWords hw
  simp only [Registers.takeInWords, hr, lift_ok, bind, Except.bind, hslice]

private theorem elementBytes (operand : Operand) :
    memory.takeInWords operand (memory.elementInWords operand) = lift (memory.elementBytes operand) := by
  rcases (h.elementInWords operand).cases with ⟨fault, hw, hs⟩ | ⟨window, hw, hs⟩
  · rw [hw, Registers.elementBytes, hs]
    rfl
  · obtain ⟨register, hr, hle⟩ := element_eq_ok hs
    rw [hw, h.takeInWords hr hle, Registers.elementBytes, hs]
    simp only [bind, Except.bind, hr]
    rfl

private theorem readBool (operand : Operand) :
    memory.readBoolInWords operand = lift (memory.readBool operand) := by
  rw [readBoolInWords, h.elementBytes, Registers.readBool]
  cases memory.elementBytes operand <;> rfl

private theorem readInt (operand : Operand) :
    memory.readIntInWords operand = lift (memory.readInt operand) := by
  rw [readIntInWords, h.elementBytes, Registers.readInt]
  cases memory.elementBytes operand with
  | error fault => rfl
  | ok bytes => exact Integer.ofBytesInWords_eq bytes

/-- Windows of different sizes do not show the same. -/
theorem equals (left right : Operand) :
    memory.equalsInWords left right = lift (memory.equals left right) := by
  unfold equalsInWords Registers.equals regionBytes
  rcases (h.regionInWords left).cases with ⟨fault, hw, hs⟩ | ⟨first, hw, hs⟩
  · rw [hw, hs]
    rfl
  · obtain ⟨leftRegister, hl, hle⟩ := region_eq_ok hs
    rw [hw, hs]
    rcases (h.regionInWords right).cases with ⟨fault, hw', hs'⟩ | ⟨second, hw', hs'⟩
    · rw [hw', hs']
      simp only [bind, Except.bind, hl]
      rfl
    · obtain ⟨rightRegister, hr, hle'⟩ := region_eq_ok hs'
      rw [hw', hs']
      simp only [bind, Except.bind, hl, hr, h.takeInWords hl hle, h.takeInWords hr hle', pure,
        Except.pure]
      by_cases hsize : first.size = second.size
      · rw [if_neg fun hn => hn hsize]
        rfl
      · have hne : leftRegister.slice first.span ≠ rightRegister.slice second.span := by
          intro heq
          have hlen := congrArg List.length heq
          rw [Register.length_slice hle, Register.length_slice hle'] at hlen
          exact hsize (UInt64.toNat_inj.mp hlen)
        rw [if_pos hsize, beq_false_of_ne hne]
        rfl

/-- A window that was found can be overwritten. -/
theorem overwriteInWords {found : Except Trap WordSpan} {resolved : Except Fault Span}
    (hf : Agrees WordSpan.span found resolved)
    (hs : ∀ span, resolved = .ok span → ∃ register, memory.register operand = .ok register ∧
      span.start + span.size ≤ register.capacity)
    (allowed : Except Fault Unit) (content : Nat → List UInt8) :
    memory.overwriteInWords operand found allowed content = lift (do
      let span ← resolved
      allowed
      return memory.store operand span.start (content span.size)) := by
  apply Agrees.eq
  apply hf.bind
  intro window hw
  apply Agrees.lift_bind
  intro _ _
  obtain ⟨register, hr, hle⟩ := hs _ hw
  rw [h.takeInWords hr hle]
  rfl

private theorem copyInWords (source target : Operand) :
    memory.copyInWords source target = lift (memory.copy source target) := by
  unfold Registers.copyInWords Registers.copy regionBytes
  apply Agrees.eq
  rw [bind_assoc]
  apply (h.regionInWords source).bind
  intro origin ho
  obtain ⟨read, hread, hle⟩ := region_eq_ok ho
  rw [hread]
  apply (h.regionInWords target).bind
  intro goal hg
  obtain ⟨register, hr, hle'⟩ := region_eq_ok hg
  apply Agrees.lift_bind
  intro _ _
  have hmin := toNat_min origin.size goal.size
  simp only [WordSpan.span] at hle hle'
  have hfrom : WordSpan.span { origin with size := min origin.size goal.size } =
      { origin.span with size := min origin.span.size goal.span.size } :=
    congrArg (Span.mk _) hmin
  dsimp only
  rw [h.takeInWords hread (by simp only [WordSpan.span]; omega),
    h.takeInWords hr (by simp only [WordSpan.span]; omega), hfrom, slice_take]
  rfl

private theorem changeTypeInWords (operand : Operand) (layout : Layout) :
    memory.changeTypeInWords operand layout = lift (memory.changeType operand layout) := by
  apply Agrees.eq
  apply Agrees.lift_bind
  intro _ _
  apply Agrees.lift_bind
  intro register hr
  rw [(h.register hr).roomInWords]
  cases layout.fitsIn register.capacity <;> rfl

/-- A store that is carried out in words comes to what it comes to. -/
theorem putInWords (store : Store) : memory.putInWords store = lift (memory.put store) := by
  cases store with
  | writeBool operand value =>
    exact h.overwriteInWords (h.elementInWords operand) (fun _ => element_eq_ok)
      (checkWritable operand) (Truth.toBytes · value)
  | writeInt operand value =>
    exact h.overwriteInWords (h.elementInWords operand) (fun _ => element_eq_ok)
      (checkWritable operand) (Integer.toBytes · value)
  | zero operand =>
    exact h.overwriteInWords (h.regionInWords operand) (fun _ => region_eq_ok)
      (checkWritable operand) (List.replicate · 0)
  | copy source target => exact h.copyInWords source target
  | changeType operand layout => exact h.changeTypeInWords operand layout
  | setBool operand value =>
    exact h.overwriteInWords (h.elementInWords operand) (fun _ => element_eq_ok) (.ok ())
      (Truth.toBytes · value)
  | setInt operand value =>
    exact h.overwriteInWords (h.elementInWords operand) (fun _ => element_eq_ok) (.ok ())
      (Integer.toBytes · value)

end Addressable

theorem element_eq_ok_iff {span : Span} :
    memory.element operand = .ok span ↔
      ∃ register index, memory.register operand = .ok register ∧
        memory.Selects operand.element index ∧ register.elementSpan index = .ok span := by
  simp only [element, Outcome.bind_eq_ok, index_eq_ok_iff, exists_and_left]

theorem region_whole_eq_ok_iff (h : operand.element = .whole) {span : Span} :
    memory.region operand = .ok span ↔
      ∃ register, memory.register operand = .ok register ∧ register.wholeSpan = .ok span := by
  simp only [region, h, Outcome.bind_eq_ok]

private theorem region_eq_element (h : operand.element ≠ .whole) :
    memory.region operand = memory.element operand := by
  unfold region
  split
  · next hw => exact absurd hw h
  · rfl

/-- In memory whose registers have no more bytes than a word can count, whatever their layouts: an
operand resolves to an element exactly if its register is there, its index is one of the layout's, and
the element ends inside the register; to a whole register exactly if there are bytes enough for the
layout. Found in words, the windows are the same. No operation overflows, and none of the bytes that
are read, compared or overwritten are sought outside the register. -/
theorem resolution_exact (h : memory.Addressable) (operand : Operand) :
    (∀ span, memory.element operand = .ok span ↔
      ∃ register index, memory.register operand = .ok register ∧
        memory.Selects operand.element index ∧ 0 ≤ index ∧
        index < (register.layout.elementCount.toNat * max register.layout.sliceCount.toNat 1 : Nat) ∧
        (index + 1) * register.layout.elementSize.toNat ≤ register.capacity ∧
        (span.start : Int) = index * register.layout.elementSize.toNat ∧
        span.size = register.layout.elementSize.toNat) ∧
    (operand.element = .whole → ∀ span, memory.region operand = .ok span ↔
      ∃ register, memory.register operand = .ok register ∧
        register.layout.elementCount.toNat * max register.layout.sliceCount.toNat 1 *
          register.layout.elementSize.toNat ≤ register.capacity ∧
        span.start = 0 ∧
        span.size = register.layout.elementCount.toNat * max register.layout.sliceCount.toNat 1 *
          register.layout.elementSize.toNat) ∧
    (operand.element ≠ .whole → memory.region operand = memory.element operand) ∧
    (memory.elementInWords operand).map WordSpan.span = lift (memory.element operand) ∧
    (memory.regionInWords operand).map WordSpan.span = lift (memory.region operand) ∧
    memory.readBoolInWords operand = lift (memory.readBool operand) ∧
    memory.readIntInWords operand = lift (memory.readInt operand) ∧
    (∀ other, memory.equalsInWords operand other = lift (memory.equals operand other)) ∧
    ∀ store, memory.putInWords store = lift (memory.put store) := by
  refine ⟨?_, ?_, region_eq_element, h.elementInWords operand, h.regionInWords operand,
    h.readBool operand, h.readInt operand, h.equals operand, h.putInWords⟩
  · intro span
    simp only [element_eq_ok_iff, Register.elementSpan_eq_ok_iff, Layout.elements]
  · intro hw span
    rw [region_whole_eq_ok_iff hw]
    constructor
    · rintro ⟨register, hr, hs⟩
      exact ⟨register, hr, (h.register hr).wholeSpan_eq_ok_iff.mp hs⟩
    · rintro ⟨register, hr, hs⟩
      exact ⟨register, hr, (h.register hr).wholeSpan_eq_ok_iff.mpr hs⟩

/-- A layout whose footprint is no word, with an index at the end of the signed words, and beside it one
of fifteen bytes over seven, of which the second element is there and the third is not. -/
theorem resolution_exact_unbacked :
    let huge : Layout := { elementSize := 0x80000000, elementCount := 0x80000000, sliceCount := 4 }
    let scant : Layout := { elementSize := 3, elementCount := 5 }
    let memory : Registers :=
      { work := #[{ layout := huge, bytes := [0, 0, 0, 0] },
          { layout := .integer, bytes := [255, 255, 255, 255, 255, 255, 255, 127] }],
        external := #[{ layout := scant, bytes := [1, 2, 3, 4, 5, 6, 7] }] }
    let scarce (index : UInt32) : Operand := { bank := .external, register := 0, element := .fixed index }
    memory.Addressable ∧
      (∀ span, memory.element { bank := .work, register := 0, element := .indirect 1 } ≠ .ok span) ∧
      (∀ span, memory.region { bank := .work, register := 0 } ≠ .ok span) ∧
      (memory.elementInWords (scarce 1)).map WordSpan.span = .ok { start := 3, size := 3 } ∧
      ∀ span, memory.element (scarce 2) ≠ .ok span := by
  intro huge scant memory scarce
  have hm : memory.Addressable := by decide
  have hhuge : memory.register { bank := .work, register := 0 } =
      .ok { layout := huge, bytes := [0, 0, 0, 0] } := by decide
  have hscant (index : UInt32) : memory.register (scarce index) =
      .ok { layout := scant, bytes := [1, 2, 3, 4, 5, 6, 7] } := rfl
  obtain ⟨hfar, -⟩ := resolution_exact hm { bank := .work, register := 0, element := .indirect 1 }
  obtain ⟨-, hwhole, -⟩ := resolution_exact hm { bank := .work, register := 0 }
  obtain ⟨hsecond, -, -, hwords, -⟩ := resolution_exact hm (scarce 1)
  obtain ⟨hthird, -⟩ := resolution_exact hm (scarce 2)
  refine ⟨hm, ?_, ?_, ?_, ?_⟩
  · intro span hspan
    obtain ⟨register, index, hr, ⟨value, hv, rfl⟩, -, hcount, -⟩ := (hfar span).mp hspan
    cases hhuge.symm.trans hr
    cases (show memory.readInt (.work 1) = .ok Int64.maxValue by decide).symm.trans hv
    exact absurd hcount (by decide)
  · intro span hspan
    obtain ⟨register, hr, hroom, -⟩ := (hwhole rfl span).mp hspan
    cases hhuge.symm.trans hr
    exact absurd hroom (by decide)
  · rw [hwords, (hsecond { start := 3, size := 3 }).mpr ⟨_, 1, hscant 1, rfl, by decide⟩]
    rfl
  · intro span hspan
    obtain ⟨register, index, hr, rfl, -, -, hroom, -⟩ := (hthird span).mp hspan
    cases (hscant 2).symm.trans hr
    exact absurd hroom (by decide)

end Registers

end RegisterMachine
