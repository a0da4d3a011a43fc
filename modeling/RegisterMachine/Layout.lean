/-!
# Register layouts

A layout is the shape that a register's bytes are read in: a type tag, the size of an element, and
how many elements there are in how many slices.
-/

namespace RegisterMachine

/-- The shape of a register. -/
structure Layout where
  typeTag : UInt32 := 0
  elementSize : UInt32 := 0
  elementCount : UInt32 := 0
  sliceCount : UInt32 := 0
  deriving DecidableEq, Repr

namespace Layout

/-- The number of elements across all slices; no slices count as one. -/
def elements (layout : Layout) : Nat :=
  layout.elementCount.toNat * max layout.sliceCount.toNat 1

/-- The exact number of bytes that all elements take. -/
def bytes (layout : Layout) : Nat := layout.elements * layout.elementSize.toNat

/-- The number of bytes that the layout needs, when a machine word can name it. -/
def footprint? (layout : Layout) : Option Nat :=
  if layout.bytes < UInt64.size then some layout.bytes else none

def fitsIn (layout : Layout) (capacity : Nat) : Bool :=
  match layout.footprint? with
  | some size => size ≤ capacity
  | none => false

def integer : Layout := { elementSize := 8, elementCount := 1, sliceCount := 1 }

/-- The element count always fits a machine word, whatever the fields hold. -/
theorem elements_lt (layout : Layout) : layout.elements < UInt64.size := by
  have hc := layout.elementCount.toNat_lt
  have hs := layout.sliceCount.toNat_lt
  have h : layout.elements ≤ (UInt32.size - 1) * (UInt32.size - 1) :=
    Nat.mul_le_mul (by simp only [UInt32.size]; omega) (by simp only [UInt32.size]; omega)
  exact Nat.lt_of_le_of_lt h (by decide)

end Layout

end RegisterMachine
