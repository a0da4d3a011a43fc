import RegisterMachine.LittleEndian

/-!
# Values in bytes

Elements of a register hold integers in two's complement, least significant byte first, and
booleans as zero or one. An element of any size can hold either: a value is cut to the element if
that is short, and its sign is carried on through the element if that is long.
-/

namespace RegisterMachine

namespace Integer

/-- The number of bytes that a value takes in full. -/
def width : Nat := 8

/-- The value that an element holds in its first bytes. -/
def ofBytes (bytes : List UInt8) : Int64 :=
  let low := bytes.take width
  Int64.ofInt (Int.bmod (LittleEndian.toNat low) (LittleEndian.bound low.length))

/-- The byte that carries a sign on. -/
def signByte (value : Int64) : UInt8 := if value < 0 then 0xFF else 0

/-- The bytes of a value in an element of `size` bytes. -/
def toBytes (size : Nat) (value : Int64) : List UInt8 :=
  LittleEndian.ofNat (min size width) value.toUInt64.toNat ++
    List.replicate (size - width) (signByte value)

@[simp] theorem length_toBytes (size : Nat) (value : Int64) : (toBytes size value).length = size := by
  simp only [toBytes, List.length_append, LittleEndian.length_ofNat, List.length_replicate]
  omega

end Integer

namespace Truth

/-- An element is true unless all its bytes are zero. -/
def ofBytes (bytes : List UInt8) : Bool := bytes.any (· != 0)

/-- One or zero in the first byte of an element of `size` bytes, and zeros behind it. -/
def toBytes : Nat → Bool → List UInt8
  | 0, _ => []
  | size + 1, value => (if value then 1 else 0) :: List.replicate size 0

@[simp] theorem length_toBytes (size : Nat) (value : Bool) : (toBytes size value).length = size := by
  cases size <;> simp [toBytes]

end Truth

end RegisterMachine
