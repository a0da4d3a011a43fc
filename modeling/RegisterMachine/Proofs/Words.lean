import RegisterMachine.Proofs.Windows

/-!
# Windows in machine words

Windows are found in exact numbers, and only the footprint of a layout is asked to be a word. A machine
finds them in words of 64 bits: indices are signed, counts are products of two fields of a layout, and
places in a register are products of three. Here they are found in that way in one register. Every
operation is checked for a result that is no word, and every window, when its bytes are taken, for
whether it lies in the register. Layouts may be as large as their fields allow and need not fit their
registers; neither check ever fails, and what is found is the same.
-/

namespace RegisterMachine

/-! ### Work in words -/

namespace Word

/-- Why work in words stops. -/
inductive Trap
  | refused (fault : Fault)
  /-- The exact result of an operation is no word. -/
  | overflow
  /-- A window goes beyond the register that its bytes are taken from. -/
  | outside
  deriving DecidableEq, Repr

def add? (a b : UInt64) : Option UInt64 :=
  if a.toNat + b.toNat < UInt64.size then some (a + b) else none

def mul? (a b : UInt64) : Option UInt64 :=
  if a.toNat * b.toNat < UInt64.size then some (a * b) else none

def sub? (a b : UInt64) : Option UInt64 :=
  if b.toNat ≤ a.toNat then some (a - b) else none

/-- An operation that must not overflow. -/
def exact : Option UInt64 → Except Trap UInt64
  | some word => .ok word
  | none => .error .overflow

/-- What is refused in exact numbers is refused in words. -/
def lift {α : Type} (outcome : Except Fault α) : Except Trap α := outcome.mapError .refused

theorem lift_ok {α : Type} (result : α) : lift (.ok result) = .ok result := rfl

variable {a b c : UInt64}

private theorem toNat_of_add? (h : add? a b = some c) : c.toNat = a.toNat + b.toNat := by
  unfold add? at h
  split at h
  · next hlt =>
    cases h
    rw [UInt64.toNat_add, Nat.mod_eq_of_lt hlt]
  · cases h

private theorem toNat_of_mul? (h : mul? a b = some c) : c.toNat = a.toNat * b.toNat := by
  unfold mul? at h
  split at h
  · next hlt =>
    cases h
    rw [UInt64.toNat_mul, Nat.mod_eq_of_lt hlt]
  · cases h

theorem add?_eq_none_iff : add? a b = none ↔ UInt64.size ≤ a.toNat + b.toNat := by
  unfold add?
  split
  · next hlt => simp [Nat.not_le.mpr hlt]
  · next hlt => simp [Nat.not_lt.mp hlt]

theorem mul?_eq_none_iff : mul? a b = none ↔ UInt64.size ≤ a.toNat * b.toNat := by
  unfold mul?
  split
  · next hlt => simp [Nat.not_le.mpr hlt]
  · next hlt => simp [Nat.not_lt.mp hlt]

theorem toNat_min (a b : UInt64) : (min a b).toNat = min a.toNat b.toNat := by
  change (if a ≤ b then a else b).toNat = _
  by_cases h : a ≤ b
  · rw [if_pos h, Nat.min_eq_left (UInt64.le_iff_toNat_le.mp h)]
  · have hlt : ¬ a.toNat ≤ b.toNat := fun hle => h (UInt64.le_iff_toNat_le.mpr hle)
    rw [if_neg h, Nat.min_eq_right (by omega)]

private theorem exact_sub? (h : b.toNat ≤ a.toNat) : exact (sub? a b) = .ok (a - b) := by
  rw [sub?, if_pos h, exact]

/-- Work in words comes to what work in exact numbers does, read through a view of its results: it is
refused where that is, and neither overflows nor leaves a register. -/
def Agrees {α β : Type} (view : α → β) (words : Except Trap α) (numbers : Except Fault β) : Prop :=
  words.map view = lift numbers

namespace Agrees

variable {α β γ δ : Type} {view : α → β} {words : Except Trap α} {numbers : Except Fault β}

theorem cases (h : Agrees view words numbers) :
    (∃ fault, words = .error (.refused fault) ∧ numbers = .error fault) ∨
      ∃ result, words = .ok result ∧ numbers = .ok (view result) := by
  unfold Agrees lift at h
  cases words with
  | ok result =>
    cases numbers with
    | ok found =>
      cases h
      exact .inr ⟨result, rfl, rfl⟩
    | error fault => cases h
  | error trap =>
    cases numbers with
    | ok found => cases h
    | error fault =>
      cases h
      exact .inl ⟨fault, rfl, rfl⟩

theorem bind {other : γ → δ} {next : α → Except Trap γ} {rest : β → Except Fault δ}
    (h : Agrees view words numbers)
    (hn : ∀ result, numbers = .ok (view result) → Agrees other (next result) (rest (view result))) :
    Agrees other (words >>= next) (numbers >>= rest) := by
  rcases h.cases with ⟨fault, rfl, rfl⟩ | ⟨result, rfl, rfl⟩
  · rfl
  · exact hn result rfl

theorem lift_bind {other : γ → δ} {next : β → Except Trap γ} {rest : β → Except Fault δ}
    (hn : ∀ result, numbers = .ok result → Agrees other (next result) (rest result)) :
    Agrees other (Word.lift numbers >>= next) (numbers >>= rest) := by
  cases numbers with
  | error fault => rfl
  | ok result => exact hn result rfl

theorem eq {numbers : Except Fault α} (h : Agrees id words numbers) : words = Word.lift numbers := by
  rcases h.cases with ⟨fault, rfl, rfl⟩ | ⟨result, rfl, rfl⟩ <;> rfl

end Agrees

end Word

open Word

/-! ### Layouts -/

namespace Layout

def elementsInWords (layout : Layout) : Option UInt64 :=
  mul? layout.elementCount.toUInt64 (max layout.sliceCount 1).toUInt64

def footprintInWords (layout : Layout) : Option UInt64 := do
  mul? (← layout.elementsInWords) layout.elementSize.toUInt64

private theorem toNat_max_one (count : UInt32) : (max count 1).toNat = max count.toNat 1 := by
  change (if count ≤ 1 then 1 else count).toNat = _
  by_cases h : count ≤ 1
  · have hle : count.toNat ≤ 1 := UInt32.le_iff_toNat_le.mp h
    rw [if_pos h, Nat.max_eq_right hle]
    rfl
  · have hlt : ¬ count.toNat ≤ 1 := fun hle => h (UInt32.le_iff_toNat_le.mpr hle)
    rw [if_neg h, Nat.max_eq_left (by omega)]

/-- The number of elements is always a word. -/
theorem elementsInWords_eq (layout : Layout) :
    ∃ count, layout.elementsInWords = some count ∧ count.toNat = layout.elements := by
  have helements : layout.elementCount.toUInt64.toNat * (max layout.sliceCount 1).toUInt64.toNat =
      layout.elements := by
    rw [UInt32.toNat_toUInt64, UInt32.toNat_toUInt64, toNat_max_one, elements]
  cases hc : layout.elementsInWords with
  | none =>
    have hle := mul?_eq_none_iff.mp hc
    rw [helements] at hle
    exact absurd layout.elements_lt (Nat.not_lt.mpr hle)
  | some count => exact ⟨count, rfl, (toNat_of_mul? hc).trans helements⟩

private theorem footprintInWords_map (layout : Layout) :
    layout.footprintInWords.map UInt64.toNat = layout.footprint? := by
  obtain ⟨count, hcount, helements⟩ := layout.elementsInWords_eq
  have hbytes : count.toNat * layout.elementSize.toUInt64.toNat = layout.bytes := by
    rw [helements, UInt32.toNat_toUInt64, bytes]
  have hword : layout.footprintInWords = mul? count layout.elementSize.toUInt64 := by
    rw [footprintInWords, hcount]
    rfl
  rw [hword, footprint?]
  cases hm : mul? count layout.elementSize.toUInt64 with
  | none =>
    have hle := mul?_eq_none_iff.mp hm
    rw [hbytes] at hle
    rw [if_neg (Nat.not_lt.mpr hle)]
    rfl
  | some size =>
    have hsize := (toNat_of_mul? hm).trans hbytes
    rw [← hsize, if_pos size.toNat_lt_size]
    rfl

end Layout

/-! ### One register -/

/-- A window, in words. -/
structure WordSpan where
  start : UInt64
  size : UInt64
  deriving DecidableEq, Repr

def WordSpan.span (window : WordSpan) : Span :=
  { start := window.start.toNat, size := window.size.toNat }

private theorem Integer.toInt_toUInt64 {index : Int64} (h : 0 ≤ index.toInt) :
    (index.toUInt64.toNat : Int) = index.toInt := by
  have hlt := index.toUInt64.toNat_lt
  rw [toInt_eq_bmod, UInt64.size, Int.bmod_def] at h ⊢
  omega

theorem Integer.toInt_toInt64 (index : UInt32) : index.toUInt64.toInt64.toInt = index.toNat := by
  have hlt := index.toNat_lt
  have hword : index.toUInt64.toInt64.toUInt64.toNat = index.toNat := UInt32.toNat_toUInt64 index
  rw [toInt_eq_bmod, hword, UInt64.size, Int.bmod_def]
  omega

namespace Register

variable {register : Register}

/-- The number of bytes is a word. -/
def Addressable (register : Register) : Prop := register.capacity < UInt64.size

def capacityInWords (register : Register) : UInt64 := UInt64.ofNat register.capacity

private theorem Addressable.toNat_capacity (h : register.Addressable) :
    register.capacityInWords.toNat = register.capacity :=
  UInt64.toNat_ofNat_of_lt' h

/-- The window of the element with an index that the layout has. -/
def windowInWords (register : Register) (index : UInt64) : Except Trap WordSpan :=
  let size := register.layout.elementSize.toUInt64
  match (mul? index size).bind (add? · size) with
  | some stop =>
    if stop ≤ register.capacityInWords then do
      let start ← exact (sub? stop size)
      return { start, size }
    else lift (Fault.raise .elementOutOfRange)
  | none => lift (Fault.raise .elementOutOfRange)

def elementInWords (register : Register) (index : Int64) : Except Trap WordSpan :=
  let count := register.layout.elementsInWords.getD (UInt64.ofNat (UInt64.size - 1))
  if index < 0 ∨ count ≤ index.toUInt64 then lift (Fault.raise .elementOutOfRange)
  else register.windowInWords index.toUInt64

def roomInWords (register : Register) (layout : Layout) : Bool :=
  match layout.footprintInWords with
  | some size => size ≤ register.capacityInWords
  | none => false

def wholeInWords (register : Register) : Except Trap WordSpan :=
  match register.layout.footprintInWords with
  | some size =>
    if size ≤ register.capacityInWords then .ok { start := 0, size }
    else lift (Fault.raise .layoutTooLarge)
  | none => lift (Fault.raise .layoutTooLarge)

def sliceInWords (register : Register) (window : WordSpan) : Except Trap (List UInt8) := do
  let stop ← exact (add? window.start window.size)
  if stop ≤ register.capacityInWords then return register.slice window.span
  else .error .outside

/-- The end of an element, where it is a word. -/
theorem stop_cases (index size : UInt64) :
    ((mul? index size).bind (add? · size) = none ∧
      UInt64.size ≤ (index.toNat + 1) * size.toNat) ∨
    ∃ stop, (mul? index size).bind (add? · size) = some stop ∧
      stop.toNat = (index.toNat + 1) * size.toNat := by
  rw [Nat.add_mul, Nat.one_mul]
  cases hm : mul? index size with
  | none =>
    have hle := mul?_eq_none_iff.mp hm
    exact .inl ⟨rfl, by omega⟩
  | some start =>
    have hstart := toNat_of_mul? hm
    cases ha : add? start size with
    | none =>
      have hle := add?_eq_none_iff.mp ha
      exact .inl ⟨ha, by omega⟩
    | some stop =>
      have hstop := toNat_of_add? ha
      exact .inr ⟨stop, ha, by omega⟩

private theorem Addressable.windowInWords (h : register.Addressable) (index : UInt64) :
    Agrees WordSpan.span (register.windowInWords index)
      (if (index.toNat + 1) * register.layout.elementSize.toNat ≤ register.capacity then
        .ok { start := index.toNat * register.layout.elementSize.toNat,
              size := register.layout.elementSize.toNat }
      else Fault.raise .elementOutOfRange) := by
  have hsize := UInt32.toNat_toUInt64 register.layout.elementSize
  have hcapacity := h.toNat_capacity
  unfold Register.windowInWords
  dsimp only
  rcases stop_cases index register.layout.elementSize.toUInt64 with
    ⟨hstop, hle⟩ | ⟨stop, hstop, hexact⟩
  · -- An end that is no word lies behind all bytes, since their number is one.
    rw [hsize] at hle
    rw [hstop, if_neg fun hroom => absurd h (Nat.not_lt.mpr (Nat.le_trans hle hroom))]
    rfl
  · rw [hsize] at hexact
    have hroom : stop ≤ register.capacityInWords ↔
        (index.toNat + 1) * register.layout.elementSize.toNat ≤ register.capacity := by
      rw [UInt64.le_iff_toNat_le, hexact, hcapacity]
    rw [hstop]
    dsimp only
    by_cases hr : stop ≤ register.capacityInWords
    · rw [Nat.add_mul, Nat.one_mul] at hexact
      have hle : register.layout.elementSize.toUInt64.toNat ≤ stop.toNat := by omega
      have hstart : (stop - register.layout.elementSize.toUInt64).toNat =
          index.toNat * register.layout.elementSize.toNat := by
        rw [UInt64.toNat_sub_of_le _ _ (UInt64.le_iff_toNat_le.mpr hle), hexact, hsize,
          Nat.add_sub_cancel]
      rw [if_pos hr, if_pos (hroom.mp hr), exact_sub? hle, ← hstart, ← hsize]
      rfl
    · rw [if_neg hr, if_neg fun hn => hr (hroom.mpr hn)]
      rfl

theorem Addressable.elementInWords (h : register.Addressable) (index : Int64) :
    Agrees WordSpan.span (register.elementInWords index) (register.elementSpan index.toInt) := by
  obtain ⟨count, hc, hcount⟩ := register.layout.elementsInWords_eq
  have hsign : index < 0 ↔ index.toInt < 0 := Int64.lt_iff_toInt_lt
  have hmany : count ≤ index.toUInt64 ↔ register.layout.elements ≤ index.toUInt64.toNat := by
    rw [UInt64.le_iff_toNat_le, hcount]
  unfold Register.elementInWords elementSpan
  dsimp only
  rw [hc, Option.getD_some]
  by_cases hneg : index < 0
  · rw [if_pos (.inl hneg), if_neg fun hi => absurd hi.1 (Int.not_le.mpr (hsign.mp hneg))]
    rfl
  · have hindex := Integer.toInt_toUInt64 (Int.not_lt.mp fun hn => hneg (hsign.mpr hn))
    rw [← hindex, Int.toNat_natCast]
    by_cases hm : count ≤ index.toUInt64
    · have hle := hmany.mp hm
      rw [if_pos (.inr hm), if_neg (by omega)]
      rfl
    · have hlt : (index.toUInt64.toNat : Int) < register.layout.elements := by
        have hnot := mt hmany.mpr hm
        omega
      have hboth : ∀ p : Prop, (0 ≤ (index.toUInt64.toNat : Int) ∧
          (index.toUInt64.toNat : Int) < register.layout.elements ∧ p) ↔ p :=
        fun p => ⟨fun hi => hi.2.2, fun hp => ⟨Int.natCast_nonneg _, hlt, hp⟩⟩
      rw [if_neg (not_or.mpr ⟨hneg, hm⟩)]
      simp only [hboth]
      exact h.windowInWords index.toUInt64

theorem Addressable.roomInWords (h : register.Addressable) (layout : Layout) :
    register.roomInWords layout = layout.fitsIn register.capacity := by
  rw [Layout.fitsIn, ← layout.footprintInWords_map, Register.roomInWords]
  cases layout.footprintInWords with
  | none => rfl
  | some size => simp only [Option.map_some, UInt64.le_iff_toNat_le, h.toNat_capacity]

theorem Addressable.wholeInWords (h : register.Addressable) :
    Agrees WordSpan.span register.wholeInWords register.wholeSpan := by
  unfold Register.wholeInWords wholeSpan
  rw [← h.roomInWords, Register.roomInWords]
  have hfootprint := register.layout.footprintInWords_map
  cases hf : register.layout.footprintInWords with
  | none => rfl
  | some size =>
    rw [hf, Option.map_some, Layout.footprint?] at hfootprint
    split at hfootprint
    · have hbytes : size.toNat = register.layout.bytes := Option.some.inj hfootprint
      by_cases hle : size ≤ register.capacityInWords
      · simp only [hle, decide_true, if_true, ← hbytes]
        rfl
      · simp only [hle, decide_false, if_false, Bool.false_eq_true]
        rfl
    · cases hfootprint

theorem Addressable.sliceInWords (h : register.Addressable) {window : WordSpan}
    (hw : window.span.start + window.span.size ≤ register.capacity) :
    register.sliceInWords window = .ok (register.slice window.span) := by
  have hcapacity := h.toNat_capacity
  simp only [WordSpan.span] at hw
  unfold Register.sliceInWords
  cases ha : add? window.start window.size with
  | none =>
    have hle := add?_eq_none_iff.mp ha
    exact absurd h (Nat.not_lt.mpr (Nat.le_trans hle hw))
  | some stop =>
    have hstop : stop ≤ register.capacityInWords := by
      rw [UInt64.le_iff_toNat_le, toNat_of_add? ha, hcapacity]
      exact hw
    simp only [exact, bind, Except.bind, if_pos hstop, pure, Except.pure]

/-- Where the capacity is a word, a layout fits exactly if there are bytes enough for it. -/
theorem Addressable.fitsIn_iff (h : register.Addressable) (layout : Layout) :
    layout.fitsIn register.capacity = true ↔ layout.bytes ≤ register.capacity := by
  unfold Layout.fitsIn Layout.footprint?
  by_cases hword : layout.bytes < UInt64.size
  · simp only [if_pos hword, decide_eq_true_eq]
  · have hmore : ¬ layout.bytes ≤ register.capacity :=
      fun hle => hword (Nat.lt_of_le_of_lt hle h)
    simp only [if_neg hword, hmore, Bool.false_eq_true]

theorem Addressable.wholeSpan_eq_ok_iff (h : register.Addressable) {span : Span} :
    register.wholeSpan = .ok span ↔
      register.layout.bytes ≤ register.capacity ∧ span.start = 0 ∧
        span.size = register.layout.bytes := by
  obtain ⟨start, size⟩ := span
  unfold wholeSpan
  rw [← h.fitsIn_iff]
  split
  · next hf => simp only [hf, true_and, Except.ok.injEq, Span.mk.injEq, eq_comm]
  · next hf => exact ⟨nofun, fun hn => absurd hn.1 hf⟩

end Register

/-! ### Integers -/

namespace Integer

/-- Move a word up to its high end, and down again with its sign. -/
def extend (raw : UInt64) (shift : Nat) : Except Trap Int64 :=
  if shift < 64 then .ok (.ofBitVec ((raw.toBitVec <<< shift).sshiftRight shift))
  else .error .overflow

/-- The value that an element holds in its first bytes, which are put at the low end of a word. -/
def ofBytesInWords (bytes : List UInt8) : Except Trap Int64 :=
  let low := bytes.take width
  if low.length = 0 then .ok 0
  else extend (UInt64.ofNat (LittleEndian.toNat low)) (64 - 8 * low.length)

private theorem shiftLeft_eq (value count : Nat) :
    value <<< (8 * count) = value * LittleEndian.bound count := by
  induction count with
  | zero => rw [Nat.mul_zero, Nat.shiftLeft_zero, LittleEndian.bound, Nat.mul_one]
  | succ count ih =>
    rw [Nat.mul_succ, Nat.shiftLeft_add, ih, Nat.shiftLeft_eq, LittleEndian.bound, Nat.mul_assoc,
      Nat.mul_comm (LittleEndian.bound count)]

/-- What is moved up by some bytes and down again is taken modulo the bits that it kept. -/
theorem toInt_shifted (raw : BitVec 64) {count rest : Nat} (hpos : 0 < count)
    (h : rest + count = width) :
    ((raw <<< (8 * rest)).sshiftRight (8 * rest)).toInt =
      Int.bmod raw.toNat (LittleEndian.bound count) := by
  have hsize : 2 ^ 64 = LittleEndian.bound rest * LittleEndian.bound count :=
    (bound_mul_bound h).symm
  have hrest : 0 < LittleEndian.bound rest :=
    Nat.pos_of_dvd_of_pos (bound_dvd (Nat.le.intro h)) (by decide)
  have heven : 2 ∣ LittleEndian.bound count := by
    obtain ⟨fewer, rfl⟩ := Nat.exists_eq_succ_of_ne_zero (Nat.ne_of_gt hpos)
    exact ⟨128 * LittleEndian.bound fewer, by rw [LittleEndian.bound]; omega⟩
  have hup : (raw <<< (8 * rest)).toInt =
      LittleEndian.bound rest * Int.bmod raw.toNat (LittleEndian.bound count) := by
    rw [BitVec.toInt_shiftLeft, shiftLeft_eq, Nat.mul_comm, hsize, Int.natCast_mul]
    exact Int.mod_bmod_mul_of_pos _ _ hrest heven
  have hdown := shiftLeft_eq 1 rest
  rw [Nat.one_shiftLeft, Nat.one_mul] at hdown
  rw [BitVec.toInt_sshiftRight, hup, Int.shiftRight_eq_div_pow, hdown,
    Int.mul_ediv_cancel_left _ (by omega)]

theorem ofBytesInWords_eq (bytes : List UInt8) : ofBytesInWords bytes = .ok (ofBytes bytes) := by
  have hle : (bytes.take width).length ≤ 8 := List.length_take_le width bytes
  have hvalue := toInt_ofBytes bytes
  unfold ofBytesInWords
  dsimp only
  generalize bytes.take width = low at hle hvalue
  by_cases hz : low.length = 0
  · rw [if_pos hz]
    rw [List.eq_nil_of_length_eq_zero hz] at hvalue
    exact congrArg Except.ok (Int64.toInt_inj.mp hvalue.symm)
  · have hraw : (UInt64.ofNat (LittleEndian.toNat low)).toNat = LittleEndian.toNat low := by
      have hlt := LittleEndian.toNat_lt low
      have hbound := Nat.le_of_dvd (by decide) (bound_dvd hle)
      exact UInt64.toNat_ofNat_of_lt' (Nat.lt_of_lt_of_le hlt hbound)
    have hshift : 64 - 8 * low.length = 8 * (width - low.length) := (Nat.mul_sub 8 8 low.length).symm
    have hshifted := toInt_shifted (UInt64.ofNat (LittleEndian.toNat low)).toBitVec
      (Nat.pos_of_ne_zero hz) (Nat.sub_add_cancel hle)
    rw [UInt64.toNat_toBitVec, hraw, ← hvalue] at hshifted
    rw [if_neg hz, extend, if_pos (by omega), hshift]
    exact congrArg Except.ok (Int64.toInt_inj.mp ((Int64.toInt_ofBitVec _).trans hshifted))

end Integer

end RegisterMachine
