/-!
# Checksums

The reflected CRC-32 with polynomial `0xEDB88320`, whose register starts with all bits set and is
complemented at the end.
-/

namespace RegisterMachine.Checksum

/-- The polynomial, lowest power in the highest bit. -/
def polynomial : UInt32 := 0xEDB88320

/-- Shift the register by one bit, and subtract the polynomial if a one falls out. -/
def shift (register : UInt32) : UInt32 :=
  if register &&& 1 = 1 then (register >>> 1) ^^^ polynomial else register >>> 1

def shifts : Nat → UInt32 → UInt32
  | 0, register => register
  | n + 1, register => shifts n (shift register)

def step (register : UInt32) (byte : UInt8) : UInt32 := shifts 8 (register ^^^ byte.toUInt32)

def crc32 (bytes : List UInt8) : UInt32 := bytes.foldl step 0xFFFFFFFF ^^^ 0xFFFFFFFF

end RegisterMachine.Checksum
