import RegisterMachine.Code.Basic

/-!
# Directives

A compiler builds code by directives. Each is checked before anything is written, so a refused
directive leaves the code as it was.
-/

namespace RegisterMachine

/-- A request to append one instruction. -/
inductive Directive
  | execute (function : UInt32) (operands : List Operand)
  | zero (arg : Operand)
  | setFalse (arg : Operand)
  | setTrue (arg : Operand)
  | copy (source target : Operand)
  | increment (arg : Operand)
  | decrement (arg : Operand)
  | equals (left right result : Operand)
  | notEquals (left right result : Operand)
  /-- The tag must be that of an unconditional jump. -/
  | jump (tag : UInt8) (target : Nat)
  /-- The tag must be that of a conditional jump. -/
  | jumpIf (tag : UInt8) (target : Nat) (condition : Operand) (polarity : Bool)
  /-- The layout must fit the bytes that the compiler gave the register. -/
  | changeType (arg : Operand) (layout : Layout) (capacity : Nat)
  | exit
  | beginBlock (count index : Operand)
  | endBlock

namespace Directive

def jumpWord (index target : Nat) : Except Fault UInt32 :=
  if target < UInt32.size then .ok (UInt32.ofNat target)
  else Fault.raiseAt .invalidJumpTarget index

/-- The instruction that a directive asks for, to be number `index`. -/
def instruction (index : Nat) : Directive → Except Fault Instruction
  | .execute function operands =>
    if bounded : operands.length ≤ maxOperands then .ok { op := .execute function, operands, bounded }
    else Fault.raiseAt .tooManyOperands index "MAXIMUM IS 64"
  | .zero arg => .ok { op := .zero arg }
  | .setFalse arg => .ok { op := .setFalse arg }
  | .setTrue arg => .ok { op := .setTrue arg }
  | .copy source target => .ok { op := .copy { source, target } }
  | .increment arg => .ok { op := .increment arg }
  | .decrement arg => .ok { op := .decrement arg }
  | .equals left right result => .ok { op := .equals { left, right, result } }
  | .notEquals left right result => .ok { op := .notEquals { left, right, result } }
  | .jump tag target =>
    match Opcode.ofTag? tag with
    | some (.jump direction) => do
      let target ← jumpWord index target
      return { op := .jump direction target }
    | _ => Fault.raiseAt .notAJump index
  | .jumpIf tag target condition polarity =>
    match Opcode.ofTag? tag with
    | some (.jumpIf direction) => do
      let target ← jumpWord index target
      return { op := .jumpIf direction { target, polarity, condition } }
    | _ => Fault.raiseAt .notAJump index
  | .changeType arg layout capacity =>
    if layout.fitsIn capacity then .ok { op := .changeType { arg, layout } }
    else Fault.raiseAt .layoutTooLarge index
  | .exit => .ok { op := .exit }
  | .beginBlock count index => .ok { op := .beginBlock { count, index } }
  | .endBlock => .ok { op := .endBlock }

end Directive

/-- Carry out a directive: the offset of the new record, and the code with it. -/
def Code.add (code : Code) (directive : Directive) : Except Fault (Nat × Code) := do
  let instruction ← directive.instruction code.count
  let openBlocks ← Code.openAfter code.count instruction.op code.openBlocks
  return (code.size, { code.emit instruction with openBlocks })

end RegisterMachine
