import Mathlib.Algebra.Group.Nat.Defs
import RegisterMachine.Proofs.Prefixes

/-!
# Bursts

Shifting the checksum register is linear and injective. So a difference between two registers never
dies out, and up to four bytes in a row are taken in as one word would be. Two buffers that differ
in a window of four bytes therefore have different checksums, and the loader compares checksums
before anything else looks at the buffer.
-/

namespace RegisterMachine

namespace Checksum

open LittleEndian

/-- What the bit that falls out brings back in. -/
def feedback (register : UInt32) : UInt32 := if register &&& 1 = 1 then polynomial else 0

private theorem shift_eq (register : UInt32) :
    shift register = (register >>> 1) ^^^ feedback register := by
  unfold shift feedback
  split
  · rfl
  · rw [UInt32.xor_zero]

theorem and_one_eq_one_iff (register : UInt32) : register &&& 1 = 1 ↔ register.toNat % 2 = 1 := by
  rw [← UInt32.toNat_inj, UInt32.toNat_and, UInt32.toNat_one, Nat.and_one_is_mod]

private theorem feedback_xor (first second : UInt32) :
    feedback (first ^^^ second) = feedback first ^^^ feedback second := by
  simp only [feedback, and_one_eq_one_iff, UInt32.toNat_xor, Nat.xor_mod_two_eq_one]
  by_cases hf : first.toNat % 2 = 1 <;> by_cases hs : second.toNat % 2 = 1 <;> simp [hf, hs]

private theorem shift_xor (first second : UInt32) :
    shift (first ^^^ second) = shift first ^^^ shift second := by
  simp only [shift_eq, feedback_xor, UInt32.shiftRight_xor]
  ac_rfl

private theorem toNat_shiftRight_one (register : UInt32) :
    (register >>> 1).toNat = register.toNat / 2 := by
  rw [UInt32.toNat_shiftRight, UInt32.toNat_one, Nat.shiftRight_eq_div_pow]

/-- A one that falls out comes back as the highest bit, so that no register but zero is shifted to
zero. -/
theorem eq_zero_of_shift {register : UInt32} (h : shift register = 0) : register = 0 := by
  rw [shift_eq, UInt32.xor_eq_zero_iff, ← UInt32.toNat_inj, toNat_shiftRight_one] at h
  have hlt := register.toNat_lt
  unfold feedback at h
  split at h
  · have hpolynomial : 2 ^ 31 ≤ polynomial.toNat := by decide
    omega
  · next hlow =>
    rw [and_one_eq_one_iff] at hlow
    rw [← UInt32.toNat_inj]
    simp only [UInt32.toNat_zero] at h ⊢
    omega

theorem shift_injective : Function.Injective shift := by
  intro first second h
  rw [← UInt32.xor_eq_zero_iff] at h ⊢
  apply eq_zero_of_shift
  rw [shift_xor, h]

private theorem shifts_xor (n : Nat) (first second : UInt32) :
    shifts n (first ^^^ second) = shifts n first ^^^ shifts n second := by
  induction n generalizing first second with
  | zero => rfl
  | succ n ih => rw [shifts, shift_xor, ih, shifts, shifts]

theorem shifts_injective (n : Nat) : Function.Injective (shifts n) := by
  induction n with
  | zero => exact Function.injective_id
  | succ n ih => exact ih.comp shift_injective

private theorem shifts_add (m n : Nat) (register : UInt32) :
    shifts (m + n) register = shifts n (shifts m register) := by
  induction m generalizing register with
  | zero => rw [Nat.zero_add, shifts]
  | succ m ih => rw [Nat.succ_add, shifts, ih, shifts]

/-- As long as only zeros fall out, nothing is fed back. -/
theorem shifts_ofNat {n word : Nat} (h : 2 ^ n * word < UInt32.size) :
    shifts n (UInt32.ofNat (2 ^ n * word)) = UInt32.ofNat word := by
  induction n with
  | zero => rw [shifts, Nat.pow_zero, Nat.one_mul]
  | succ n ih =>
    have hdouble : 2 ^ (n + 1) * word = 2 * (2 ^ n * word) := by
      rw [Nat.pow_succ', Nat.mul_assoc]
    rw [hdouble] at h ⊢
    have hshift : shift (UInt32.ofNat (2 * (2 ^ n * word))) = UInt32.ofNat (2 ^ n * word) := by
      have heven : ¬ UInt32.ofNat (2 * (2 ^ n * word)) &&& 1 = 1 := by
        rw [and_one_eq_one_iff, UInt32.toNat_ofNat_of_lt' h]
        omega
      rw [shift, if_neg heven, ← UInt32.toNat_inj, toNat_shiftRight_one,
        UInt32.toNat_ofNat_of_lt' h, UInt32.toNat_ofNat_of_lt' (by omega)]
      omega
    rw [shifts, hshift, ih (by omega)]

/-! ### Bytes -/

private theorem ofNat_add_mul (byte : UInt8) (high : Nat) :
    UInt32.ofNat (byte.toNat + 2 ^ 8 * high) = byte.toUInt32 ^^^ UInt32.ofNat (2 ^ 8 * high) := by
  have hlow : byte.toUInt32 = UInt32.ofNat byte.toNat := UInt32.toNat_inj.mp (by simp)
  have hsum : byte.toNat + 2 ^ 8 * high = byte.toNat ^^^ 2 ^ 8 * high := by
    apply Nat.eq_of_testBit_eq
    intro i
    have hbyte : byte.toNat < 2 ^ 8 := byte.toNat_lt
    rw [Nat.add_comm, Nat.testBit_two_pow_mul_add high hbyte, Nat.testBit_xor,
      Nat.testBit_two_pow_mul]
    by_cases hi : i < 8
    · simp [hi, Nat.not_le.mpr hi]
    · have hle : 2 ^ 8 ≤ 2 ^ i := Nat.pow_le_pow_right (by decide) (Nat.le_of_not_lt hi)
      have hnone : byte.toNat.testBit i = false :=
        Nat.testBit_lt_two_pow (Nat.lt_of_lt_of_le hbyte hle)
      simp [hi, Nat.le_of_not_lt hi, hnone]
  rw [hsum, UInt32.ofNat_xor, hlow]

/-- Up to four bytes are taken in as the word that they spell. -/
theorem foldl_step {bytes : List UInt8} (h : bytes.length ≤ 4) (register : UInt32) :
    bytes.foldl step register =
      shifts (8 * bytes.length) (register ^^^ UInt32.ofNat (toNat bytes)) := by
  induction bytes generalizing register with
  | nil => simp [LittleEndian.toNat, shifts]
  | cons byte rest ih =>
    -- Eight shifts move the high bytes of the word to where the later bytes are taken in.
    have hrest : rest.length ≤ 3 := Nat.le_of_succ_le_succ h
    have hword : 2 ^ 8 * toNat rest < UInt32.size := by
      have hbound : ∀ width ≤ 3, bound width ≤ bound 3 := by decide
      have hlt := Nat.lt_of_lt_of_le (toNat_lt rest) (hbound _ hrest)
      exact Nat.mul_lt_mul_of_pos_left hlt (by decide)
    have hlater : UInt32.ofNat (toNat rest) = shifts 8 (UInt32.ofNat (2 ^ 8 * toNat rest)) :=
      (shifts_ofNat hword).symm
    have hspelled : toNat (byte :: rest) = byte.toNat + 2 ^ 8 * toNat rest := rfl
    calc (byte :: rest).foldl step register
        = shifts (8 * rest.length) (step register byte ^^^ UInt32.ofNat (toNat rest)) :=
          ih (Nat.le_succ_of_le hrest) _
      _ = shifts (8 * rest.length) (shifts 8
            ((register ^^^ byte.toUInt32) ^^^ UInt32.ofNat (2 ^ 8 * toNat rest))) := by
          rw [hlater, step, ← shifts_xor]
      _ = shifts (8 * (byte :: rest).length)
            (register ^^^ UInt32.ofNat (toNat (byte :: rest))) := by
          rw [hspelled, ofNat_add_mul, ← UInt32.xor_assoc, List.length_cons, Nat.mul_succ,
            Nat.add_comm, shifts_add]

/-- Up to four bytes can be told from the register that they leave behind. -/
theorem eq_of_foldl_step {first second : List UInt8} (hlength : second.length = first.length)
    (hfour : first.length ≤ 4) {register : UInt32}
    (h : second.foldl step register = first.foldl step register) : second = first := by
  rw [foldl_step hfour, foldl_step (hlength ▸ hfour), hlength] at h
  have hword := (UInt32.xor_right_inj _).mp (shifts_injective _ h)
  have hbound : ∀ width ≤ 4, bound width ≤ UInt32.size := by decide
  have hlt {bytes : List UInt8} (hb : bytes.length ≤ 4) : toNat bytes < UInt32.size :=
    Nat.lt_of_lt_of_le (toNat_lt bytes) (hbound _ hb)
  have hspelled := congrArg UInt32.toNat hword
  rw [UInt32.toNat_ofNat_of_lt' (hlt hfour), UInt32.toNat_ofNat_of_lt' (hlt (hlength ▸ hfour))]
    at hspelled
  rw [← ofNat_toNat second, ← ofNat_toNat first, hspelled, hlength]

theorem foldl_step_injective (bytes : List UInt8) :
    Function.Injective fun register => bytes.foldl step register := by
  induction bytes with
  | nil => exact Function.injective_id
  | cons byte rest ih =>
    have hstep : Function.Injective (step · byte) := by
      intro first second h
      exact (UInt32.xor_left_inj _).mp (shifts_injective 8 h)
    exact ih.comp hstep

/-- Up to four bytes anywhere in a buffer can be told from its checksum and the other bytes. -/
theorem eq_of_crc32 {front first second tail : List UInt8} (hlength : second.length = first.length)
    (hfour : first.length ≤ 4)
    (h : crc32 (front ++ (second ++ tail)) = crc32 (front ++ (first ++ tail))) :
    second = first := by
  have hregister := (UInt32.xor_left_inj _).mp h
  simp only [List.foldl_append] at hregister
  exact eq_of_foldl_step hlength hfour (foldl_step_injective tail hregister)

end Checksum

/-- A byte string that differs from another in a stretch of it only. -/
theorem exists_stretch {front stretch tail other : List UInt8}
    (hlength : other.length = (front ++ (stretch ++ tail)).length)
    (h : ∀ index, index < front.length ∨ front.length + stretch.length ≤ index →
      other[index]? = (front ++ (stretch ++ tail))[index]?) :
    ∃ changed, changed.length = stretch.length ∧ other = front ++ (changed ++ tail) := by
  have hfront : other.take front.length = front := by
    apply List.ext_getElem?
    intro index
    by_cases hi : index < front.length
    · rw [List.getElem?_take_of_lt hi, h index (.inl hi), List.getElem?_append_left hi]
    · rw [List.getElem?_take_eq_none (Nat.le_of_not_lt hi),
        List.getElem?_eq_none (Nat.le_of_not_lt hi)]
  have htail : other.drop (front.length + stretch.length) = tail := by
    apply List.ext_getElem?
    intro index
    rw [List.getElem?_drop, h _ (.inr (Nat.le_add_right _ _)), Nat.add_assoc,
      List.getElem?_append_right (Nat.le_add_right _ _), Nat.add_sub_cancel_left,
      List.getElem?_append_right (Nat.le_add_right _ _), Nat.add_sub_cancel_left]
  refine ⟨(other.drop front.length).take stretch.length, ?_, ?_⟩
  · simp only [List.length_append] at hlength
    rw [List.length_take, List.length_drop]
    omega
  · rw [← htail, ← List.drop_drop, List.take_append_drop]
    nth_rewrite 1 [← hfront]
    rw [List.take_append_drop]

private theorem lt_length_of_differs {bytes other : List UInt8}
    (hlength : other.length = bytes.length) {index : Nat} (h : other[index]? ≠ bytes[index]?) :
    index < bytes.length := by
  by_contra hge
  rw [List.getElem?_eq_none (Nat.le_of_not_lt hge),
    List.getElem?_eq_none (hlength ▸ Nat.le_of_not_lt hge)] at h
  exact h rfl

private theorem getElem?_stretch (front tail : List UInt8) {stretch : List UInt8} {index : Nat}
    (h : index < stretch.length) :
    (front ++ (stretch ++ tail))[front.length + index]? = stretch[index]? := by
  rw [List.getElem?_append_right (Nat.le_add_right _ _), Nat.add_sub_cancel_left,
    List.getElem?_append_left h]

/-- Two buffers that differ within four bytes in a row have different checksums. -/
theorem Checksum.crc32_ne_of_burst {buffer other : List UInt8} (start : Nat)
    (hlength : other.length = buffer.length) (hne : other ≠ buffer)
    (h : ∀ index, other[index]? ≠ buffer[index]? → start ≤ index ∧ index < start + 4) :
    crc32 other ≠ crc32 buffer := by
  intro hcrc
  have hsplit : buffer =
      buffer.take start ++ ((buffer.drop start).take 4 ++ buffer.drop (start + 4)) := by
    rw [← List.drop_drop, List.take_append_drop, List.take_append_drop]
  generalize hfront : buffer.take start = front at hsplit
  generalize hburst : (buffer.drop start).take 4 = burst at hsplit
  generalize buffer.drop (start + 4) = tail at hsplit
  -- A window that reaches past the end holds fewer than four bytes of the buffer.
  have hbefore : front.length = min start buffer.length := by rw [← hfront, List.length_take]
  have hwithin : burst.length = min 4 (buffer.length - start) := by
    rw [← hburst, List.length_take, List.length_drop]
  obtain ⟨changed, hchanged, rfl⟩ : ∃ changed, changed.length = burst.length ∧
      other = front ++ (changed ++ tail) := by
    apply exists_stretch (hsplit ▸ hlength)
    intro index hi
    rw [← hsplit]
    by_contra hdiffers
    have hlt := lt_length_of_differs hlength hdiffers
    have hwindow := h index hdiffers
    omega
  rw [hsplit] at hcrc hne
  exact hne (by rw [eq_of_crc32 hchanged (by omega) hcrc])

namespace Image

open LittleEndian

private theorem bind_of_refused {α β : Type} {x : Reader α} {f : α → Reader β} {bytes : List UInt8}
    {fault : Fault} (h : x bytes = .error fault) : (x >>= f) bytes = .error fault := by
  change (x bytes >>= fun p => f p.1 p.2) = .error fault
  rw [h]
  rfl

/-- The sixteen bytes before the buffer of an image. -/
def headBytes (reserved : UInt8) (alignment : Nat) (buffer : List UInt8) : List UInt8 :=
  magic ++ (ofHalf formatVersion ++ ([UInt8.ofNat alignment, reserved] ++
    (ofWord (Checksum.crc32 buffer) ++ ofNat 4 buffer.length)))

private theorem length_headBytes (reserved : UInt8) (alignment : Nat) (buffer : List UInt8) :
    (headBytes reserved alignment buffer).length = 16 := by
  have hmagic : magic.length = 4 := rfl
  simp only [headBytes, List.length_append, hmagic, length_ofHalf, length_ofWord, length_ofNat,
    List.length_cons, List.length_nil]

/-- A buffer of the right length is refused by its checksum, before anything else is looked at. -/
theorem takeBuffer_of_mismatch {buffer rest : List UInt8} {checksum : UInt32}
    (hsize : buffer.length < UInt32.size) (h : Checksum.crc32 buffer ≠ checksum) :
    takeBuffer (ofWord checksum ++ (ofNat 4 buffer.length ++ (buffer ++ rest))) =
      .error { cause := .checksumMismatch } := by
  have hword : takeWord (ofWord checksum ++ (ofNat 4 buffer.length ++ (buffer ++ rest))) =
      .ok (checksum, ofNat 4 buffer.length ++ (buffer ++ rest)) := takeWord_eq_ok_iff.mpr rfl
  have hlength : takeWord (ofNat 4 buffer.length ++ (buffer ++ rest)) =
      .ok (UInt32.ofNat buffer.length, buffer ++ rest) :=
    takeWord_eq_ok_iff.mpr (by rw [ofWord_ofNat hsize])
  have htake : take (UInt32.ofNat buffer.length).toNat (buffer ++ rest) = .ok (buffer, rest) :=
    take_eq_ok_iff.mpr ⟨(UInt32.toNat_ofNat_of_lt' hsize).symm, rfl⟩
  rw [takeBuffer, bind_of_reads hword, bind_of_reads hlength, bind_of_reads htake]
  apply bind_of_refused
  rw [require, if_neg (by simpa using h)]
  rfl

private theorem takeParts_of_mismatch {reserved : UInt8} {alignment : Nat}
    {buffer changed : List UInt8} (ha : Code.isAlignment alignment = true)
    (hsize : buffer.length < UInt32.size) (hlength : changed.length = buffer.length)
    (h : Checksum.crc32 changed ≠ Checksum.crc32 buffer) (rest : List UInt8) :
    takeParts (headBytes reserved alignment buffer ++ (changed ++ rest)) =
      .error { cause := .checksumMismatch } := by
  have hheader : takeHeader (headBytes reserved alignment buffer ++ (changed ++ rest)) =
      .ok (alignment, ofWord (Checksum.crc32 buffer) ++
        (ofNat 4 changed.length ++ (changed ++ rest))) := by
    refine takeHeader_eq_ok_iff.mpr ⟨ha, reserved, ?_⟩
    simp only [headBytes, hlength, List.append_assoc]
  rw [takeParts_eq, bind_of_reads hheader]
  exact bind_of_refused (takeBuffer_of_mismatch (hlength ▸ hsize) h)

end Image

namespace Code

open Image

/-- An image whose buffer is changed in any way within four bytes in a row is refused for its
checksum. -/
theorem load_of_burst {bytes other : List UInt8} {code : Code} (start : Nat)
    (h : load bytes = .ok code) (hlength : other.length = bytes.length) (hne : other ≠ bytes)
    (hburst : ∀ index, other[index]? ≠ bytes[index]? →
      (16 ≤ index ∧ index < 16 + code.size) ∧ start ≤ index ∧ index < start + 4) :
    load other = .error { cause := .checksumMismatch } := by
  obtain ⟨ha, ⟨reserved, hsize, -, -, hbytes⟩, -⟩ := load_eq_ok_iff.mp h
  obtain ⟨table, hsplit⟩ : ∃ table, bytes =
      headBytes reserved code.alignment code.buffer ++ (code.buffer ++ table) :=
    ⟨_, by simp only [hbytes, headBytes, List.append_assoc]; rfl⟩
  subst hsplit
  generalize hhead : headBytes reserved code.alignment code.buffer = head at *
  have hsixteen : head.length = 16 := hhead ▸ length_headBytes ..
  obtain ⟨changed, hchanged, rfl⟩ : ∃ changed, changed.length = code.buffer.length ∧
      other = head ++ (changed ++ table) := by
    apply exists_stretch hlength
    intro index hi
    by_contra hdiffers
    have hregion := (hburst index hdiffers).1
    have hdef : code.size = code.buffer.length := rfl
    omega
  have hmismatch : Checksum.crc32 changed ≠ Checksum.crc32 code.buffer := by
    refine Checksum.crc32_ne_of_burst (start - 16) hchanged ?_ ?_
    · rintro rfl
      exact hne rfl
    · intro index hdiffers
      have hlt := lt_length_of_differs hchanged hdiffers
      rw [← getElem?_stretch head table (hchanged ▸ hlt), ← getElem?_stretch head table hlt]
        at hdiffers
      have hwindow := (hburst _ hdiffers).2
      omega
  rw [load, ← hhead, takeParts_of_mismatch ha hsize hchanged hmismatch]
  rfl

/-- A loop that counts in another register after a burst in the operand that names it. -/
theorem load_of_burst_operand :
    let image (index : List UInt8) : List UInt8 :=
      [71, 86, 66, 67, 1, 0, 0, 0, 81, 34, 249, 20, 20, 0, 0, 0] ++
        [81, 0, 1, 0, 0, 0, 0, 0, 0, 0] ++ index ++ [0, 0, 0, 0, 82, 0] ++
        [1, 0, 0, 0, 4, 0, 109, 97, 105, 110, 0, 0, 0, 0]
    (load (image [0, 0, 1, 0])).isOk = true ∧
      load (image [2, 1, 0, 7]) = .error { cause := .checksumMismatch } := by
  intro image
  let code : Code :=
    { buffer := [81, 0, 1, 0, 0, 0, 0, 0, 0, 0, 0, 0, 1, 0, 0, 0, 0, 0, 82, 0], count := 2,
      entries := [{ name := "main", instruction := 0 }] }
  have h : load (image [0, 0, 1, 0]) = .ok code := by decide +kernel
  refine ⟨Outcome.isOk_iff.mpr ⟨code, h⟩, load_of_burst 26 h rfl (by decide) ?_⟩
  intro index hdiffers
  have hlength : (image [2, 1, 0, 7]).length = (image [0, 0, 1, 0]).length := rfl
  have hcases : ∀ place < (image [0, 0, 1, 0]).length,
      (image [2, 1, 0, 7])[place]? ≠ (image [0, 0, 1, 0])[place]? →
        (16 ≤ place ∧ place < 16 + code.size) ∧ 26 ≤ place ∧ place < 26 + 4 := by decide +kernel
  exact hcases index (lt_length_of_differs hlength hdiffers) hdiffers

end Code

end RegisterMachine
