import RegisterMachine.Op

/-!
# Instructions

An instruction is an operation with the operands of its host call, of which there are at most
`maxOperands`. In a buffer the operands are packed one behind the other; `OperandArray` reads them
in place.
-/

namespace RegisterMachine

/-- An operation and the operands that follow it. -/
structure Instruction where
  op : Op
  operands : List Operand := []
  bounded : operands.length ≤ maxOperands := by decide
  deriving DecidableEq

namespace Instruction

def arity (instruction : Instruction) : Fin (maxOperands + 1) :=
  ⟨instruction.operands.length, Nat.lt_succ_of_le instruction.bounded⟩

/-- The opcode, which for a host call counts the operands. -/
def opcode (instruction : Instruction) : Opcode := instruction.op.opcode instruction.arity

def body (instruction : Instruction) : List UInt8 :=
  instruction.op.payload ++ instruction.operands.flatMap pack

end Instruction

/-- Packed operands, read where they stand. -/
structure OperandArray where
  bytes : List UInt8
  deriving DecidableEq, Repr

namespace OperandArray

/-- The number of operands that the bytes have room for. -/
def size (operands : OperandArray) : Nat := operands.bytes.length / Packed.size Operand

def isEmpty (operands : OperandArray) : Bool := operands.bytes.isEmpty

/-- The operand at `index`, if there is one and it is well formed. -/
def get? (operands : OperandArray) (index : Nat) : Option Operand :=
  if index < operands.size then
    (Operand.ofBytes (operands.bytes.drop (index * Packed.size Operand))).toOption
  else none

/-- At most `count` operands from the front of `bytes`, up to the first that is malformed. -/
def read : Nat → List UInt8 → List Operand
  | 0, _ => []
  | count + 1, bytes =>
    match Operand.ofBytes bytes with
    | .ok operand => operand :: read count (bytes.drop (Packed.size Operand))
    | .error _ => []

/-- The operands in order, up to the first that is malformed. -/
def toList (operands : OperandArray) : List Operand := read operands.size operands.bytes

/-- Operands are read back from their packed form, whatever follows it. -/
theorem read_flatMap_pack (operands : List Operand) (rest : List UInt8) :
    read operands.length (operands.flatMap pack ++ rest) = operands := by
  induction operands with
  | nil => rfl
  | cons operand operands ih =>
    have hl : operand.toBytes.length = 8 := operand.length_toBytes
    have hd : (operand.toBytes ++ (operands.flatMap pack ++ rest)).drop 8 =
        operands.flatMap pack ++ rest := by
      rw [← hl, List.drop_left]
    have hp : pack operand = operand.toBytes := rfl
    have hs : Packed.size Operand = 8 := rfl
    simp only [List.length_cons, List.flatMap_cons, List.append_assoc, read, hp, hs,
      Operand.ofBytes_toBytes_append, hd, ih]

end OperandArray

end RegisterMachine
