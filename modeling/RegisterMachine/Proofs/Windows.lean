import RegisterMachine.Proofs.InPlace

/-!
# Windows on memory

An operand opens a window on the bytes of a register. Overwriting a window changes the bytes inside
it and no other, and it moves no window, except that of an operand whose index stood in the register
that was overwritten. So a window that was overwritten shows what was put there.
-/

namespace RegisterMachine

/-! ### One register -/

namespace Register

variable {register : Register} {start : Nat} {bytes : List UInt8}

theorem getElem?_splice (h : start + bytes.length ≤ register.capacity) (position : Nat) :
    (register.splice start bytes).bytes[position]? =
      if start ≤ position ∧ position < start + bytes.length then bytes[position - start]?
      else register.bytes[position]? := by
  simp only [capacity] at h
  simp only [splice, List.append_assoc, List.getElem?_append, List.length_take, List.getElem?_take,
    List.getElem?_drop]
  have hmin : min start register.bytes.length = start := by omega
  rw [hmin]
  by_cases hbefore : position < start
  · rw [if_pos hbefore, if_pos hbefore, if_neg (by omega)]
  · by_cases hinside : position < start + bytes.length
    · rw [if_neg hbefore, if_pos (by omega), if_pos (by omega)]
    · rw [if_neg hbefore, if_neg (by omega), if_neg (by omega)]
      congr 1
      omega

theorem getElem?_slice (register : Register) (span : Span) (position : Nat) :
    (register.slice span)[position]? =
      if position < span.size then register.bytes[span.start + position]? else none := by
  rw [slice, List.getElem?_take, List.getElem?_drop]

theorem length_slice {span : Span} (h : span.start + span.size ≤ register.capacity) :
    (register.slice span).length = span.size := by
  simp only [capacity] at h
  simp only [slice, List.length_take, List.length_drop]
  omega

/-- What was overwritten shows what was put there. -/
theorem slice_splice {span : Span} (h : span.start + span.size ≤ register.capacity)
    (hb : bytes.length = span.size) : (register.splice span.start bytes).slice span = bytes := by
  apply List.ext_getElem?
  intro position
  rw [getElem?_slice, getElem?_splice (by omega)]
  by_cases hp : position < span.size
  · rw [if_pos hp, if_pos (by omega), Nat.add_sub_cancel_left]
  · rw [if_neg hp, List.getElem?_eq_none (by omega)]

/-- A window that lies apart from what is overwritten shows what it showed. -/
theorem slice_splice_of_apart (h : start + bytes.length ≤ register.capacity) {span : Span}
    (ha : span.start + span.size ≤ start ∨ start + bytes.length ≤ span.start) :
    (register.splice start bytes).slice span = register.slice span := by
  apply List.ext_getElem?
  intro position
  rw [getElem?_slice, getElem?_slice, getElem?_splice h]
  by_cases hp : position < span.size
  · rw [if_pos hp, if_pos hp, if_neg (by omega)]
  · rw [if_neg hp, if_neg hp]

/-- Overwriting a window with what it shows changes nothing. -/
theorem splice_slice {span : Span} (h : span.start + span.size ≤ register.capacity) :
    register.splice span.start (register.slice span) = register := by
  have hlen := length_slice h
  have hbytes : (register.splice span.start (register.slice span)).bytes = register.bytes := by
    apply List.ext_getElem?
    intro position
    rw [getElem?_splice (by omega), hlen]
    by_cases hp : span.start ≤ position ∧ position < span.start + span.size
    · rw [if_pos hp, getElem?_slice, if_pos (by omega), Nat.add_sub_cancel' hp.1]
    · rw [if_neg hp]
  calc register.splice span.start (register.slice span)
      = { register with bytes := (register.splice span.start (register.slice span)).bytes } := rfl
    _ = register := by rw [hbytes]

/-- Of two stores into one window the second is left. -/
theorem splice_splice {first second : List UInt8} (h : start + first.length ≤ register.capacity)
    (hlen : second.length = first.length) :
    (register.splice start first).splice start second = register.splice start second := by
  have hbytes : ((register.splice start first).splice start second).bytes =
      (register.splice start second).bytes := by
    apply List.ext_getElem?
    intro position
    have hroom : start + second.length ≤ (register.splice start first).capacity := by
      rw [capacity_splice h]
      omega
    rw [getElem?_splice hroom, getElem?_splice h, getElem?_splice (by omega), hlen]
    by_cases hp : start ≤ position ∧ position < start + first.length
    · rw [if_pos hp, if_pos hp]
    · rw [if_neg hp, if_neg hp, if_neg hp]
  calc (register.splice start first).splice start second
      = { register with bytes := ((register.splice start first).splice start second).bytes } := rfl
    _ = register.splice start second := by
      rw [hbytes]
      rfl

/-- The element with an index is there exactly if the layout has it and it ends inside the register. -/
theorem elementSpan_eq_ok_iff {index : Int} {span : Span} :
    register.elementSpan index = .ok span ↔
      0 ≤ index ∧ index < register.layout.elements ∧
        (index + 1) * register.layout.elementSize.toNat ≤ register.capacity ∧
        (span.start : Int) = index * register.layout.elementSize.toNat ∧
        span.size = register.layout.elementSize.toNat := by
  unfold elementSpan
  dsimp only
  by_cases hneg : 0 ≤ index
  · obtain ⟨place, rfl⟩ := Int.eq_ofNat_of_zero_le hneg
    have hroom : ((place : Int) + 1) * register.layout.elementSize.toNat ≤ register.capacity ↔
        (place + 1) * register.layout.elementSize.toNat ≤ register.capacity := by
      rw [← Int.ofNat_le, Int.natCast_mul, Int.natCast_add, Int.natCast_one]
    rw [Int.toNat_natCast, hroom, ← Int.natCast_mul, Int.natCast_inj]
    split
    · next hi =>
      obtain ⟨start, size⟩ := span
      simp only [hi, true_and, Except.ok.injEq, Span.mk.injEq, eq_comm]
    · next hi =>
      refine ⟨nofun, fun hn => absurd ⟨hn.1, hn.2.1, hn.2.2.1⟩ hi⟩
  · rw [if_neg fun hi => hneg hi.1]
    exact ⟨nofun, fun hi => absurd hi.1 hneg⟩

/-- Another register has the same layout over as many bytes. -/
structure SameShape (register other : Register) : Prop where
  layout : other.layout = register.layout
  capacity : other.capacity = register.capacity

private theorem sameShape_splice (h : start + bytes.length ≤ register.capacity) :
    register.SameShape (register.splice start bytes) := ⟨rfl, capacity_splice h⟩

private theorem SameShape.elementSpan_eq {other : Register} (h : register.SameShape other)
    (index : Int) :
    other.elementSpan index = register.elementSpan index := by
  simp only [elementSpan, h.layout, h.capacity]

private theorem SameShape.wholeSpan_eq {other : Register} (h : register.SameShape other) :
    other.wholeSpan = register.wholeSpan := by
  simp only [wholeSpan, h.layout, h.capacity]

end Register

/-! ### All registers -/

/-- The operand's index stands in the register that another operand names. -/
def Operand.IndexedBy (operand other : Operand) : Prop :=
  match operand.element with
  | .indirect number => Registers.SameRegister (.work number) other
  | _ => False

instance (operand other : Operand) : Decidable (operand.IndexedBy other) :=
  match operand with
  | { element := .indirect number, .. } =>
    inferInstanceAs (Decidable (Registers.SameRegister (.work number) other))
  | { element := .whole, .. } => inferInstanceAs (Decidable False)
  | { element := .fixed _, .. } => inferInstanceAs (Decidable False)

namespace Registers

variable {memory : Registers} {operand target : Operand} {f : Register → Register}

theorem register_update (memory : Registers) (operand target : Operand) (f : Register → Register) :
    (memory.update target f).register operand =
      if SameRegister operand target then (memory.register operand).map f
      else memory.register operand := by
  split
  · next hs =>
    unfold Registers.register
    rw [lookup_update, if_pos ⟨hs.1.symm, congrArg UInt16.toNat hs.2.symm⟩]
    cases (memory.bank operand.bank)[operand.register.toNat]? with
    | some register => rfl
    | none => rfl
  · next hne => exact register_update_of_ne hne f

private theorem index_update (h : ¬ operand.IndexedBy target) (f : Register → Register) :
    (memory.update target f).index operand.element = memory.index operand.element := by
  unfold Operand.IndexedBy at h
  cases he : operand.element with
  | whole => rfl
  | fixed index => rfl
  | indirect number =>
    rw [he] at h
    simp only [index, register_update_of_ne h]

/-- The change keeps the shape of the register that an operand names. -/
def KeepsShape (memory : Registers) (operand : Operand) (f : Register → Register) : Prop :=
  ∀ register, memory.register operand = .ok register → register.SameShape (f register)

theorem register_update_sameShape (hf : memory.KeepsShape target f) {register : Register}
    (hr : memory.register operand = .ok register) :
    ∃ found, (memory.update target f).register operand = .ok found ∧ register.SameShape found := by
  rw [register_update, hr]
  split
  · next hs =>
    rw [register_of_sameRegister hs] at hr
    exact ⟨f register, rfl, hf register hr⟩
  · exact ⟨register, rfl, rfl, rfl⟩

private theorem register_update_error {fault : Fault}
    (hr : memory.register operand = .error fault) :
    (memory.update target f).register operand = .error fault := by
  rw [register_update, hr]
  split <;> rfl

/-- A change that keeps the shape of one register moves no window, unless it moves the index. -/
theorem element_update (hi : ¬ operand.IndexedBy target) (hf : memory.KeepsShape target f) :
    (memory.update target f).element operand = memory.element operand := by
  unfold Registers.element
  rw [index_update hi]
  cases hr : memory.register operand with
  | error fault => rw [register_update_error hr]
  | ok register =>
    obtain ⟨found, hfound, hshape⟩ := register_update_sameShape hf hr
    rw [hfound]
    cases memory.index operand.element with
    | error fault => rfl
    | ok index => exact hshape.elementSpan_eq index

theorem region_update (hi : ¬ operand.IndexedBy target) (hf : memory.KeepsShape target f) :
    (memory.update target f).region operand = memory.region operand := by
  unfold Registers.region
  split
  · cases hr : memory.register operand with
    | error fault => rw [register_update_error hr]
    | ok register =>
      obtain ⟨found, hfound, hshape⟩ := register_update_sameShape hf hr
      rw [hfound]
      exact hshape.wholeSpan_eq
  · exact element_update hi hf

theorem keepsShape_store {register : Register} (hr : memory.register target = .ok register)
    {start : Nat} {bytes : List UInt8} (h : start + bytes.length ≤ register.capacity) :
    memory.KeepsShape target (·.splice start bytes) := by
  intro found hfound
  cases hr.symm.trans hfound
  exact Register.sameShape_splice h

theorem register_store {register : Register} (hr : memory.register target = .ok register)
    (start : Nat) (bytes : List UInt8) :
    (memory.store target start bytes).register target = .ok (register.splice start bytes) := by
  rw [store, register_update, if_pos ⟨rfl, rfl⟩, hr]
  rfl

/-- An element that was overwritten holds what was put there. -/
theorem elementBytes_store {span : Span} (hs : memory.element operand = .ok span)
    (hi : ¬ operand.IndexedBy operand) {bytes : List UInt8} (hb : bytes.length = span.size) :
    (memory.store operand span.start bytes).element operand = .ok span ∧
      (memory.store operand span.start bytes).elementBytes operand = .ok bytes := by
  obtain ⟨register, hr, hle⟩ := element_eq_ok hs
  have helement : (memory.store operand span.start bytes).element operand = .ok span :=
    (element_update hi (keepsShape_store hr (by omega))).trans hs
  refine ⟨helement, ?_⟩
  simp only [elementBytes, helement, register_store hr, Register.slice_splice hle hb, bind,
    Except.bind, pure, Except.pure]

end Registers

/-! ### Integers -/

private theorem LittleEndian.bound_add (first second : Nat) :
    bound (first + second) = bound first * bound second := by
  induction second with
  | zero => rw [Nat.add_zero, bound, Nat.mul_one]
  | succ second ih => rw [← Nat.add_assoc, bound, ih, bound, Nat.mul_left_comm]

namespace Integer

/-- As many bytes as an integer has can spell as many numbers as there are words. -/
theorem bound_mul_bound {count rest : Nat} (h : count + rest = width) :
    LittleEndian.bound count * LittleEndian.bound rest = UInt64.size := by
  rw [← LittleEndian.bound_add, h]
  rfl

theorem bound_dvd {count : Nat} (h : count ≤ width) : LittleEndian.bound count ∣ UInt64.size :=
  ⟨_, (bound_mul_bound (Nat.add_sub_cancel' h)).symm⟩

theorem toInt_eq_bmod (value : Int64) : value.toInt = Int.bmod value.toUInt64.toNat UInt64.size :=
  BitVec.toInt_eq_toNat_bmod value.toBitVec

/-- A value of so many bytes is what they spell, balanced about zero. -/
theorem toInt_ofBytes (bytes : List UInt8) :
    (ofBytes bytes).toInt =
      Int.bmod (LittleEndian.toNat (bytes.take width))
        (LittleEndian.bound (bytes.take width).length) := by
  have hle : (bytes.take width).length ≤ width := List.length_take_le width bytes
  have hdvd := bound_dvd hle
  have hpos : 0 < LittleEndian.bound (bytes.take width).length :=
    Nat.pos_of_dvd_of_pos hdvd (by decide)
  have hbound : LittleEndian.bound (bytes.take width).length ≤ 2 ^ 64 :=
    Nat.le_of_dvd (by decide) hdvd
  have hlow := Int.le_bmod (x := (LittleEndian.toNat (bytes.take width) : Int)) hpos
  have hhigh := Int.bmod_lt (x := (LittleEndian.toNat (bytes.take width) : Int)) hpos
  rw [ofBytes, Int64.toInt_ofInt_of_le]
  · omega
  · omega

/-- An element keeps of a value as much as it has bytes for. -/
theorem toInt_ofBytes_toBytes (size : Nat) (value : Int64) :
    (ofBytes (toBytes size value)).toInt =
      Int.bmod value.toInt (LittleEndian.bound (min size width)) := by
  have hlow : (toBytes size value).take width =
      LittleEndian.ofNat (min size width) value.toUInt64.toNat := by
    unfold toBytes
    by_cases hs : size ≤ width
    · rw [Nat.sub_eq_zero_of_le hs, List.replicate_zero, List.append_nil, Nat.min_eq_left hs,
        List.take_of_length_le (by rw [LittleEndian.length_ofNat]; exact hs)]
    · rw [Nat.min_eq_right (by omega), List.take_left' (LittleEndian.length_ofNat _ _)]
  have hdvd := bound_dvd (Nat.min_le_right size width)
  rw [toInt_ofBytes, hlow, LittleEndian.length_ofNat, LittleEndian.toNat_ofNat, Int.natCast_emod,
    Int.emod_bmod, toInt_eq_bmod, Int.bmod_bmod_of_dvd hdvd]

private theorem ofBytes_toBytes {size : Nat} (h : width ≤ size) (value : Int64) :
    ofBytes (toBytes size value) = value := by
  apply Int64.toInt_inj.mp
  rw [toInt_ofBytes_toBytes, Nat.min_eq_right h]
  exact Int64.toInt_bmod value

end Integer

namespace Registers

variable {memory : Registers} {operand : Operand} {span : Span}

theorem size_of_element {register : Register} (hr : memory.register operand = .ok register)
    (hs : memory.element operand = .ok span) : span.size = register.layout.elementSize.toNat := by
  obtain ⟨found, hfound, hs⟩ := Outcome.bind_eq_ok.mp hs
  obtain ⟨index, -, hs⟩ := Outcome.bind_eq_ok.mp hs
  cases hr.symm.trans hfound
  obtain ⟨-, -, -, -, hsize⟩ := Register.elementSpan_eq_ok_iff.mp hs
  exact hsize

/-- An integer that is written into an element with bytes enough for it is read there again. -/
theorem readInt_writeInt (hs : memory.element operand = .ok span) (hw : operand.bank ≠ .literal)
    (hi : ¬ operand.IndexedBy operand) (hsize : Integer.width ≤ span.size) (value : Int64) :
    ∃ stored, memory.writeInt operand value = .ok stored ∧
      stored.element operand = .ok span ∧ stored.readInt operand = .ok value := by
  obtain ⟨helement, hbytes⟩ := elementBytes_store hs hi (Integer.length_toBytes span.size value)
  refine ⟨_, ?_, helement, ?_⟩
  · simp only [writeInt, hs, checkWritable, if_neg hw, bind, Except.bind, pure, Except.pure]
  · simp only [readInt, hbytes, bind, Except.bind, pure, Except.pure,
      Integer.ofBytes_toBytes hsize]

end Registers

end RegisterMachine
