import Mathlib.Algebra.Group.Nat.Defs
import RegisterMachine.Proofs.Copies
import RegisterMachine.Proofs.Footprints

/-!
# Values in elements

An element keeps of an integer the lowest bytes that it has room for, up to eight, and in the rest
of it, if there is one, nothing but the sign. A boolean is kept as the integer one or zero. So an
element that is read shows the last value that was put there, reduced to the width of the element,
whichever way it was put and is read; what lies apart from it shows what it showed; and putting back
what was read changes nothing.
-/

namespace RegisterMachine

/-! ### Bytes -/

namespace LittleEndian

private theorem bound_eq (width : Nat) : bound width = 2 ^ (8 * width) := by
  induction width with
  | zero => rfl
  | succ width ih => rw [bound, ih, Nat.mul_succ, Nat.pow_add, Nat.mul_comm]

private theorem ofNat_zero (width : Nat) : ofNat width 0 = List.replicate width 0 := by
  induction width with
  | zero => rfl
  | succ width ih =>
    rw [ofNat, Nat.zero_div, ih]
    rfl

/-- Only so much of a number is written as there are bytes for. -/
theorem ofNat_mod (width n : Nat) : ofNat width (n % bound width) = ofNat width n := by
  have h := ofNat_toNat (ofNat width n)
  rwa [length_ofNat, toNat_ofNat] at h

end LittleEndian

namespace Integer

/-- The integer that the lowest so many bytes of another one stand for in two's complement. -/
def wrap (bytes : Nat) (value : Int) : Int := (BitVec.ofInt (8 * bytes) value).toInt

theorem wrap_eq_bmod (bytes : Nat) (value : Int) :
    wrap bytes value = Int.bmod value (LittleEndian.bound bytes) := by
  rw [wrap, BitVec.toInt_ofInt, LittleEndian.bound_eq]

example : wrap 1 200 = -56 ∧ wrap 2 200 = 200 ∧ wrap 0 200 = 0 := by decide

private theorem wrap_one {bytes : Nat} (h : 1 ≤ bytes) : wrap bytes 1 = 1 := by
  obtain ⟨bytes, rfl⟩ := Nat.exists_eq_add_of_le' h
  have hpos : 0 < LittleEndian.bound bytes := by
    rw [LittleEndian.bound_eq]
    exact Nat.two_pow_pos _
  rw [wrap_eq_bmod, LittleEndian.bound]
  exact Int.one_bmod (by omega)

/-- What is read from bytes that are no more than an integer has is written as the same bytes. -/
theorem toBytes_ofBytes {bytes : List UInt8} (h : bytes.length ≤ width) :
    toBytes bytes.length (ofBytes bytes) = bytes := by
  have hword : (ofBytes bytes).toUInt64.toNat % LittleEndian.bound bytes.length =
      LittleEndian.toNat bytes := by
    have hread := congrArg (Int.bmod · (LittleEndian.bound bytes.length)) (toInt_ofBytes bytes)
    simp only [toInt_eq_bmod, List.take_of_length_le h, Int.bmod_bmod,
      Int.bmod_bmod_of_dvd (bound_dvd h)] at hread
    have hmod := congrArg (· % (LittleEndian.bound bytes.length : Int)) hread
    simp only [Int.bmod_emod] at hmod
    rw [← Nat.mod_eq_of_lt (LittleEndian.toNat_lt bytes)]
    exact_mod_cast hmod
  rw [toBytes, Nat.min_eq_left h, Nat.sub_eq_zero_of_le h, List.replicate_zero, List.append_nil,
    ← LittleEndian.ofNat_mod, hword, LittleEndian.ofNat_toNat]

end Integer

namespace Truth

/-- The integer that a boolean is kept as. -/
def number (value : Bool) : Int64 := if value then 1 else 0

private theorem wrap_number {bytes : Nat} (h : 1 ≤ bytes) (value : Bool) :
    Integer.wrap bytes (number value).toInt = (number value).toInt := by
  cases value with
  | true => exact Integer.wrap_one h
  | false => exact (Integer.wrap_eq_bmod _ 0).trans Int.zero_bmod

private theorem toBytes_eq (size : Nat) (value : Bool) :
    toBytes size value = Integer.toBytes size (number value) := by
  cases size with
  | zero => rfl
  | succ size =>
    have hspread (n : Nat) (hn : n < 256) :
        LittleEndian.ofNat (min (size + 1) Integer.width) n ++
          List.replicate (size + 1 - Integer.width) 0 = UInt8.ofNat n :: List.replicate size 0 := by
      have hmin : min (size + 1) Integer.width = min size 7 + 1 := Nat.succ_min_succ size 7
      have hsum : min size 7 + (size + 1 - Integer.width) = size := by
        simp only [Integer.width]
        omega
      rw [hmin, LittleEndian.ofNat, Nat.div_eq_of_lt hn, LittleEndian.ofNat_zero, List.cons_append,
        List.replicate_append_replicate, hsum]
    cases value with
    | true => exact (hspread 1 (by decide)).symm
    | false => exact (hspread 0 (by decide)).symm

private theorem ofBytes_cons (byte : UInt8) (rest : List UInt8) :
    ofBytes (byte :: rest) = (byte != 0 || ofBytes rest) := List.any_cons

private theorem ofBytes_append (front back : List UInt8) :
    ofBytes (front ++ back) = (ofBytes front || ofBytes back) := List.any_append

theorem ofBytes_eq_false_iff {bytes : List UInt8} :
    ofBytes bytes = false ↔ LittleEndian.toNat bytes = 0 := by
  induction bytes with
  | nil => exact ⟨fun _ => rfl, fun _ => rfl⟩
  | cons byte rest ih =>
    have hbyte : (byte != 0) = false ↔ byte.toNat = 0 := by
      rw [bne_eq_false_iff_eq, ← UInt8.toNat_inj]
      rfl
    rw [ofBytes_cons, Bool.or_eq_false_iff, hbyte, ih, LittleEndian.toNat]
    omega

/-- An element that was given an integer is false exactly if what it shows of that is zero. -/
theorem ofBytes_integer_eq_false_iff (size : Nat) (value : Int64) :
    ofBytes (Integer.toBytes size value) = false ↔
      Integer.wrap (min size Integer.width) value.toInt = 0 := by
  have hdvd := Integer.bound_dvd (Nat.min_le_right size Integer.width)
  have hlow : LittleEndian.toNat
      (LittleEndian.ofNat (min size Integer.width) value.toUInt64.toNat) = 0 ↔
        Integer.wrap (min size Integer.width) value.toInt = 0 := by
    rw [LittleEndian.toNat_ofNat, Integer.wrap_eq_bmod, Integer.toInt_eq_bmod,
      Int.bmod_bmod_of_dvd hdvd, ← Int.dvd_iff_bmod_eq_zero, Int.natCast_dvd_natCast,
      Nat.dvd_iff_mod_eq_zero]
  rw [Integer.toBytes, ofBytes_append, Bool.or_eq_false_iff, ofBytes_eq_false_iff, hlow]
  refine ⟨fun h => h.1, fun h => ⟨h, ?_⟩⟩
  by_cases hs : size ≤ Integer.width
  · rw [Nat.sub_eq_zero_of_le hs]
    rfl
  · -- All of the integer is shown, so it is zero, and so is what carries its sign on.
    rw [Nat.min_eq_right (by omega), Integer.wrap_eq_bmod] at h
    obtain rfl : value = 0 := Int64.toInt_inj.mp ((Int64.toInt_bmod value).symm.trans h)
    simp [ofBytes, Integer.signByte]

end Truth

/-! ### Elements that lie apart -/

def Span.Covers (span : Span) (position : Nat) : Prop :=
  span.start ≤ position ∧ position < span.start + span.size

private theorem Register.slice_splice_of_not_covers {register : Register} {span window : Span}
    {bytes : List UInt8} (h : window.start + window.size ≤ register.capacity)
    (hb : bytes.length = window.size)
    (ha : ∀ position, window.Covers position → ¬ span.Covers position) :
    (register.splice window.start bytes).slice span = register.slice span := by
  apply List.ext_getElem?
  intro position
  rw [getElem?_slice, getElem?_slice, getElem?_splice (by omega), hb]
  by_cases hp : position < span.size
  · have hcovers : span.Covers (span.start + position) := ⟨by omega, by omega⟩
    have hout : ¬ (window.start ≤ span.start + position ∧
        span.start + position < window.start + window.size) := fun hw => ha _ hw hcovers
    rw [if_pos hp, if_pos hp, if_neg hout]
  · rw [if_neg hp, if_neg hp]

namespace Registers

variable {memory next : Registers} {operand other : Operand} {span : Span}

/-- No byte of the element that one operand addresses belongs to that of the other. -/
def Apart (memory : Registers) (operand other : Operand) : Prop :=
  SameRegister other operand → ∀ span window, memory.element operand = .ok span →
    memory.element other = .ok window → ∀ position, span.Covers position → ¬ window.Covers position

/-- Overwriting an element leaves alone what an operand shows that lies apart from it and does not
have its index there. -/
theorem elementBytes_store_of_apart (hs : memory.element operand = .ok span)
    (hi : ¬ other.IndexedBy operand) (ha : memory.Apart operand other) {bytes : List UInt8}
    (hb : bytes.length = span.size) :
    (memory.store operand span.start bytes).elementBytes other = memory.elementBytes other := by
  obtain ⟨register, hr, hle⟩ := element_eq_ok hs
  have helement : (memory.store operand span.start bytes).element other = memory.element other :=
    element_update hi (keepsShape_store hr (by omega))
  unfold elementBytes
  rw [helement]
  cases hw : memory.element other with
  | error fault => rfl
  | ok window =>
    by_cases hsame : SameRegister other operand
    · have hother : memory.register other = .ok register :=
        (register_of_sameRegister hsame).trans hr
      have hstored : (memory.store operand span.start bytes).register other =
          .ok (register.splice span.start bytes) :=
        (register_of_sameRegister hsame).trans (register_store hr span.start bytes)
      have hslice := Register.slice_splice_of_not_covers hle hb (ha hsame span window hs hw)
      simp only [bind, Except.bind, hother, hstored, hslice]
    · rw [store, register_update_of_ne hsame]

/-! ### What is read of a value -/

theorem size_of_layout {layout : Layout} (hl : memory.layout operand = .ok layout)
    (hs : memory.element operand = .ok span) : span.size = layout.elementSize.toNat := by
  obtain ⟨register, hr, hl⟩ := Outcome.bind_eq_ok.mp hl
  cases hl
  exact size_of_element hr hs

theorem readInt_eq_ok_iff {value : Int64} :
    memory.readInt operand = .ok value ↔
      ∃ bytes, memory.elementBytes operand = .ok bytes ∧ Integer.ofBytes bytes = value := by
  rw [readInt, Outcome.bind_eq_ok]
  simp only [Outcome.pure_eq_ok]

private theorem readBool_of_elementBytes {bytes : List UInt8}
    (h : memory.elementBytes operand = .ok bytes) :
    memory.readBool operand = .ok (Truth.ofBytes bytes) := by
  rw [readBool, h]
  rfl

end Registers

/-- The store puts an integer into the element of an operand; a boolean counts as one or zero. -/
inductive Store.Sets (operand : Operand) : Store → Int64 → Prop
  | writeInt (value : Int64) : Sets operand (.writeInt operand value) value
  | setInt (value : Int64) : Sets operand (.setInt operand value) value
  | writeBool (value : Bool) : Sets operand (.writeBool operand value) (Truth.number value)
  | setBool (value : Bool) : Sets operand (.setBool operand value) (Truth.number value)

namespace Store.Sets

open Registers

variable {memory next : Registers} {operand other : Operand} {store : Store} {value : Int64}

theorem exists_store (h : store.Sets operand value) (hp : memory.put store = .ok next) :
    ∃ span, memory.element operand = .ok span ∧
      memory.store operand span.start (Integer.toBytes span.size value) = next := by
  cases h with
  | writeInt => exact window_of_overwrite hp
  | setInt => exact window_of_fill hp
  | writeBool value =>
    obtain ⟨span, hs, rfl⟩ := window_of_overwrite hp
    exact ⟨span, hs, by rw [Truth.toBytes_eq]⟩
  | setBool value =>
    obtain ⟨span, hs, rfl⟩ := window_of_fill hp
    exact ⟨span, hs, by rw [Truth.toBytes_eq]⟩

/-- Behind the store the element shows the value, reduced to its own width. -/
theorem reads (h : store.Sets operand value) (hp : memory.put store = .ok next)
    (hi : ¬ operand.IndexedBy operand) {layout : Layout} (hl : memory.layout operand = .ok layout) :
    ∃ found, next.readInt operand = .ok found ∧
      found.toInt = Integer.wrap (min layout.elementSize.toNat 8) value.toInt ∧
      next.readBool operand =
        .ok (decide (Integer.wrap (min layout.elementSize.toNat 8) value.toInt ≠ 0)) := by
  obtain ⟨span, hs, rfl⟩ := h.exists_store hp
  obtain ⟨-, hbytes⟩ := elementBytes_store hs hi (Integer.length_toBytes span.size value)
  have htruth := Truth.ofBytes_integer_eq_false_iff span.size value
  rw [← size_of_layout hl hs]
  refine ⟨_, readInt_eq_ok_iff.mpr ⟨_, hbytes, rfl⟩, ?_, ?_⟩
  · rw [Integer.toInt_ofBytes_toBytes, Integer.wrap_eq_bmod]
    rfl
  · rw [readBool_of_elementBytes hbytes, Except.ok.injEq, Bool.eq_iff_iff, decide_eq_true_iff,
      ← Bool.not_eq_false, htruth]
    rfl

/-- A boolean is shown as it is where there is a byte for it. -/
theorem reads_truth {value : Bool} (h : store.Sets operand (Truth.number value))
    (hp : memory.put store = .ok next) (hi : ¬ operand.IndexedBy operand) {layout : Layout}
    (hl : memory.layout operand = .ok layout) (hsize : 1 ≤ layout.elementSize.toNat) :
    next.readBool operand = .ok value ∧ next.readInt operand = .ok (Truth.number value) := by
  obtain ⟨found, hfound, hint, hbool⟩ := h.reads hp hi hl
  rw [Truth.wrap_number (by omega)] at hint hbool
  obtain rfl : found = Truth.number value := Int64.toInt_inj.mp hint
  refine ⟨hbool.trans ?_, hfound⟩
  cases value <;> rfl

private theorem reads_apart (h : store.Sets operand value) (hp : memory.put store = .ok next)
    (hi : ¬ other.IndexedBy operand) (ha : memory.Apart operand other) :
    next.readInt other = memory.readInt other ∧ next.readBool other = memory.readBool other := by
  obtain ⟨span, hs, rfl⟩ := h.exists_store hp
  have hbytes :=
    elementBytes_store_of_apart hs hi ha (Integer.length_toBytes span.size value)
  unfold readInt readBool
  rw [hbytes]
  exact ⟨rfl, rfl⟩

/-- Where an element shows all of its bytes, putting back what was read changes nothing. -/
theorem eq_self (h : store.Sets operand value) (hp : memory.put store = .ok next) {layout : Layout}
    (hl : memory.layout operand = .ok layout) (hsize : layout.elementSize.toNat ≤ 8)
    (hread : memory.readInt operand = .ok value) : next = memory := by
  obtain ⟨span, hs, rfl⟩ := h.exists_store hp
  obtain ⟨register, hr, hle⟩ := element_eq_ok hs
  obtain ⟨bytes, hbytes, rfl⟩ := readInt_eq_ok_iff.mp hread
  obtain rfl : register.slice span = bytes := by
    simpa only [elementBytes, hs, hr, bind, Except.bind, pure, Except.pure, Except.ok.injEq]
      using hbytes
  have hlength := Register.length_slice hle
  have hback : Integer.toBytes span.size (Integer.ofBytes (register.slice span)) =
      register.slice span := by
    rw [← hlength]
    apply Integer.toBytes_ofBytes
    rw [hlength, size_of_layout hl hs]
    exact hsize
  rw [hback]
  exact update_eq_self hr (Register.splice_slice hle)

end Store.Sets

namespace Registers

variable {memory next : Registers} {operand : Operand} {layout : Layout}

/-- An element that is not found by an index inside itself shows the last value that was put there.
Of an integer that is as much as the element has bytes for, up to eight; a boolean is shown whole,
and as one or zero, if there is a byte at all. What lies apart and is found by another index shows
what it showed. Putting back what an element of up to eight bytes shows changes nothing. -/
theorem reads_see_last_value (hl : memory.layout operand = .ok layout) :
    (∀ value, ∀ store ∈ [Store.writeInt operand value, .setInt operand value],
      memory.put store = .ok next → ¬ operand.IndexedBy operand →
      ∃ found, next.readInt operand = .ok found ∧
        found.toInt = Integer.wrap (min layout.elementSize.toNat 8) value.toInt ∧
        next.readBool operand =
          .ok (decide (Integer.wrap (min layout.elementSize.toNat 8) value.toInt ≠ 0))) ∧
    (∀ value, ∀ store ∈ [Store.writeBool operand value, .setBool operand value],
      memory.put store = .ok next → ¬ operand.IndexedBy operand →
      1 ≤ layout.elementSize.toNat →
      next.readBool operand = .ok value ∧ next.readInt operand = .ok (if value then 1 else 0)) ∧
    (∀ store value other, store.Sets operand value → memory.put store = .ok next →
      ¬ other.IndexedBy operand → memory.Apart operand other →
      next.readInt other = memory.readInt other ∧ next.readBool other = memory.readBool other) ∧
    ∀ value, ∀ store ∈ [Store.writeInt operand value, .setInt operand value],
      layout.elementSize.toNat ≤ 8 → memory.readInt operand = .ok value →
      memory.put store = .ok next → next = memory := by
  have hinteger (value : Int64) {store : Store}
      (hstore : store ∈ [Store.writeInt operand value, .setInt operand value]) :
      store.Sets operand value := by
    simp only [List.mem_cons, List.not_mem_nil, or_false] at hstore
    rcases hstore with rfl | rfl
    · exact .writeInt value
    · exact .setInt value
  have hboolean (value : Bool) {store : Store}
      (hstore : store ∈ [Store.writeBool operand value, .setBool operand value]) :
      store.Sets operand (Truth.number value) := by
    simp only [List.mem_cons, List.not_mem_nil, or_false] at hstore
    rcases hstore with rfl | rfl
    · exact .writeBool value
    · exact .setBool value
  refine ⟨?_, ?_, ?_, ?_⟩
  · intro value store hstore hp hi
    exact (hinteger value hstore).reads hp hi hl
  · intro value store hstore hp hi hsize
    exact (hboolean value hstore).reads_truth hp hi hl hsize
  · intro store value other hstore hp hi ha
    exact hstore.reads_apart hp hi ha
  · intro value store hstore hsize hread hp
    exact (hinteger value hstore).eq_self hp hl hsize hread

/-- An integer is put into the second of two elements of two bytes, which is found by an index in
another register. Its third byte is lost and its sixteenth bit is the sign. -/
theorem reads_see_last_value_indirect :
    let pair : Layout := { elementSize := 2, elementCount := 2 }
    let index : Register := { layout := .integer, bytes := [1, 0, 0, 0, 0, 0, 0, 0] }
    let memory : Registers := { work := #[{ layout := pair, bytes := [1, 2, 3, 4, 5] }, index] }
    let next : Registers := { work := #[{ layout := pair, bytes := [1, 2, 5, 128, 5] }, index] }
    let first : Operand := { bank := .work, register := 0, element := .fixed 0 }
    let second : Operand := { bank := .work, register := 0, element := .indirect 1 }
    memory.put (.writeInt second 0x18005) = .ok next ∧
      (∃ found, next.readInt second = .ok found ∧ found.toInt = -32763 ∧
        next.readBool second = .ok true) ∧
      next.readInt first = memory.readInt first ∧
      ∀ back, memory.put (.writeInt second 0x0403) = .ok back → back = memory := by
  intro pair index memory next first second
  have hput : memory.put (.writeInt second 0x18005) = .ok next := by decide
  have hlayout : memory.layout second = .ok pair := by decide
  have hapart : memory.Apart second first := by
    intro _ span window hspan hwindow position hs hw
    cases (show memory.element second = .ok { start := 2, size := 2 } by decide).symm.trans hspan
    cases (show memory.element first = .ok { start := 0, size := 2 } by decide).symm.trans hwindow
    exact absurd (Nat.lt_of_le_of_lt hs.1 hw.2) (by decide)
  obtain ⟨hinteger, -, hother, -⟩ := @reads_see_last_value memory next second pair hlayout
  obtain ⟨found, hfound, hint, hbool⟩ :=
    hinteger 0x18005 _ List.mem_cons_self hput (by decide)
  refine ⟨hput, ⟨found, hfound, hint.trans (by decide), hbool.trans (by decide)⟩, ?_, ?_⟩
  · exact (hother _ _ first (.writeInt 0x18005) hput (by decide) hapart).1
  · intro back hback
    exact (reads_see_last_value hlayout).2.2.2 0x0403 _ List.mem_cons_self (by decide) (by decide)
      hback

end Registers

end RegisterMachine
