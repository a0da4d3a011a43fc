/-!
# Little-endian numbers

Every number on the wire and in a register is a run of bytes, least significant first. One writer
and one reader serve all widths; `toNat_ofNat` and `ofNat_toNat` say that they are inverse up to
the width.
-/

namespace RegisterMachine.LittleEndian

/-- The number that a run of bytes spells. -/
def toNat : List UInt8 → Nat
  | [] => 0
  | byte :: rest => byte.toNat + 256 * toNat rest

/-- The lowest `width` bytes of `n`. -/
def ofNat : Nat → Nat → List UInt8
  | 0, _ => []
  | width + 1, n => UInt8.ofNat n :: ofNat width (n / 256)

/-- How many numbers `width` bytes can spell. -/
def bound : Nat → Nat
  | 0 => 1
  | width + 1 => 256 * bound width

def ofHalf (half : UInt16) : List UInt8 := ofNat 2 half.toNat

def ofWord (word : UInt32) : List UInt8 := ofNat 4 word.toNat

/-- The half word at the front of `bytes`. -/
def half (bytes : List UInt8) : UInt16 := UInt16.ofNat (toNat (bytes.take 2))

/-- The word at the front of `bytes`. -/
def word (bytes : List UInt8) : UInt32 := UInt32.ofNat (toNat (bytes.take 4))

@[simp] theorem length_ofNat (width n : Nat) : (ofNat width n).length = width := by
  induction width generalizing n with
  | zero => rfl
  | succ width ih => simp [ofNat, ih]

@[simp] theorem length_ofHalf (half : UInt16) : (ofHalf half).length = 2 := length_ofNat ..

@[simp] theorem length_ofWord (word : UInt32) : (ofWord word).length = 4 := length_ofNat ..

theorem toNat_ofNat (width n : Nat) : toNat (ofNat width n) = n % bound width := by
  induction width generalizing n with
  | zero => rw [ofNat, toNat, bound, Nat.mod_one]
  | succ width ih =>
    have h : (UInt8.ofNat n).toNat = n % 256 := UInt8.toNat_ofNat'
    rw [ofNat, toNat, ih, h, bound, Nat.mod_mul]

theorem toNat_lt (bytes : List UInt8) : toNat bytes < bound bytes.length := by
  induction bytes with
  | nil => exact Nat.zero_lt_one
  | cons byte rest ih =>
    have hb : byte.toNat < 256 := byte.toNat_lt
    rw [toNat, List.length_cons, bound]
    omega

theorem ofNat_toNat (bytes : List UInt8) : ofNat bytes.length (toNat bytes) = bytes := by
  induction bytes with
  | nil => rfl
  | cons byte rest ih =>
    have hb : byte.toNat < 256 := byte.toNat_lt
    have hd : (byte.toNat + 256 * toNat rest) / 256 = toNat rest := by omega
    have hm : UInt8.ofNat (byte.toNat + 256 * toNat rest) = byte := by
      apply UInt8.toNat_inj.mp
      simp
    rw [List.length_cons, toNat, ofNat, hd, hm, ih]

@[simp] theorem half_ofHalf_append (h : UInt16) (rest : List UInt8) : half (ofHalf h ++ rest) = h := by
  have ht : (ofHalf h ++ rest).take 2 = ofHalf h := by simp
  have hb : h.toNat < bound 2 := h.toNat_lt
  rw [half, ht, ofHalf, toNat_ofNat, Nat.mod_eq_of_lt hb, UInt16.ofNat_toNat]

@[simp] theorem word_ofWord_append (w : UInt32) (rest : List UInt8) : word (ofWord w ++ rest) = w := by
  have ht : (ofWord w ++ rest).take 4 = ofWord w := by simp
  have hb : w.toNat < bound 4 := w.toNat_lt
  rw [word, ht, ofWord, toNat_ofNat, Nat.mod_eq_of_lt hb, UInt32.ofNat_toNat]

end RegisterMachine.LittleEndian
