import RegisterMachine.Fault
import RegisterMachine.Layout

/-!
# Registers

A register is a layout over bytes whose number never changes. Whatever a layout says, only ranges
that lie inside those bytes are ever given out.
-/

namespace RegisterMachine

structure Span where
  start : Nat
  size : Nat
  deriving DecidableEq, Repr

structure Register where
  layout : Layout
  bytes : List UInt8
  deriving DecidableEq, Repr

namespace Register

def capacity (register : Register) : Nat := register.bytes.length

/-- The range of the element `index`, which the layout must have and the bytes must hold. -/
def elementSpan (register : Register) (index : Int) : Except Fault Span :=
  let size := register.layout.elementSize.toNat
  if 0 ≤ index ∧ index < register.layout.elements ∧ (index.toNat + 1) * size ≤ register.capacity
  then .ok { start := index.toNat * size, size }
  else Fault.raise .elementOutOfRange

/-- The range of all elements, if the bytes are enough for the layout. -/
def wholeSpan (register : Register) : Except Fault Span :=
  if register.layout.fitsIn register.capacity then .ok { start := 0, size := register.layout.bytes }
  else Fault.raise .layoutTooLarge

def slice (register : Register) (span : Span) : List UInt8 :=
  (register.bytes.drop span.start).take span.size

/-- Overwrite bytes from `start` on. -/
def splice (register : Register) (start : Nat) (bytes : List UInt8) : Register :=
  { register with
    bytes := register.bytes.take start ++ bytes ++ register.bytes.drop (start + bytes.length) }

/-- A range that was given out for an element lies inside the register. -/
theorem elementSpan_le {register : Register} {index : Int} {span : Span}
    (h : register.elementSpan index = .ok span) : span.start + span.size ≤ register.capacity := by
  unfold elementSpan at h
  dsimp only at h
  split at h
  · next hi =>
    cases h
    have := hi.2.2
    rw [Nat.add_mul, Nat.one_mul] at this
    exact this
  · cases h

/-- A range that was given out for the whole layout lies inside the register. -/
theorem wholeSpan_le {register : Register} {span : Span} (h : register.wholeSpan = .ok span) :
    span.start + span.size ≤ register.capacity := by
  unfold wholeSpan at h
  split at h
  · next hf =>
    cases h
    simp only [Layout.fitsIn, Layout.footprint?] at hf
    split at hf
    · next he => split at he <;> simp_all
    · cases hf
  · cases h

/-- Overwriting inside a register keeps its capacity. -/
theorem capacity_splice {register : Register} {start : Nat} {bytes : List UInt8}
    (h : start + bytes.length ≤ register.capacity) :
    (register.splice start bytes).capacity = register.capacity := by
  simp only [capacity] at h
  simp only [splice, capacity, List.length_append, List.length_take, List.length_drop]
  omega

end Register

end RegisterMachine
