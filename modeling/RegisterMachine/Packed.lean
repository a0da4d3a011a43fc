import RegisterMachine.Fault
import RegisterMachine.LittleEndian

/-!
# Packed records

A type is `Packed` when its values have a fixed-size byte form. Unpacking looks at the front of its
input and ignores whatever follows.
-/

namespace RegisterMachine

/-- Values with a byte form of one fixed size. -/
class Packed (α : Type) where
  size : Nat
  pack : α → List UInt8
  /-- The value at the front of a byte string, or why there is none. -/
  unpack : List UInt8 → Except Fault α

export Packed (pack unpack)

/-- Refuse a record that its bytes are too few for, and read it otherwise. -/
def Packed.whole {α : Type} (size : Nat) (read : List UInt8 → Except Fault α)
    (bytes : List UInt8) : Except Fault α :=
  if bytes.length < size then Fault.raise .truncatedByteCode "RECORD" else read bytes

/-- Packed values have their size, and are read back from their bytes whatever follows them. -/
class LawfulPacked (α : Type) [Packed α] : Prop where
  length_pack (a : α) : (pack a).length = Packed.size α
  unpack_pack_append (a : α) (rest : List UInt8) : unpack (pack a ++ rest) = .ok a

export LawfulPacked (length_pack unpack_pack_append)

theorem Packed.whole_of_le {α : Type} {size : Nat} (read : List UInt8 → Except Fault α)
    {bytes : List UInt8} (h : size ≤ bytes.length) : Packed.whole size read bytes = read bytes :=
  if_neg (Nat.not_lt.mpr h)

/-- Behind a packed value stands what was put there. -/
theorem drop_pack_append {α : Type} [Packed α] [LawfulPacked α] (a : α) (rest : List UInt8) :
    (pack a ++ rest).drop (Packed.size α) = rest := by
  rw [← length_pack a, List.drop_left]

/-- A word stands for a function number or for a jump distance. -/
instance : Packed UInt32 where
  size := 4
  pack := LittleEndian.ofWord
  unpack := Packed.whole 4 fun bytes => .ok (LittleEndian.word bytes)

instance : LawfulPacked UInt32 where
  length_pack := LittleEndian.length_ofWord
  unpack_pack_append word rest := by
    have h : 4 ≤ (LittleEndian.ofWord word ++ rest).length := by
      rw [List.length_append, LittleEndian.length_ofWord]
      omega
    exact (Packed.whole_of_le _ h).trans (congrArg _ (LittleEndian.word_ofWord_append word rest))

end RegisterMachine
