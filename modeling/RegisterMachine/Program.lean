import RegisterMachine.Code.Alignment
import RegisterMachine.Code.Link

/-!
# Programs

A program is code that passed the checks, with all that running it needs worked out once.
-/

namespace RegisterMachine

/-- Code that is ready to run. -/
structure Program where
  code : Code
  linked : Linked
  deriving DecidableEq

namespace Program

def ofCode (code : Code) : Except Fault Program := do
  return { code, linked := ← code.finalize }

def ofCodeAligned (code : Code) (alignment : Nat) : Except Fault Program := do
  ofCode (← code.align alignment)

def size (program : Program) : Nat := program.linked.instructions.size

def isEmpty (program : Program) : Bool := program.linked.instructions.isEmpty

def instruction? (program : Program) (index : Nat) : Option Instruction :=
  program.linked.instructions[index]?

/-- The last instruction of the block that starts at an index. -/
def blockEnd? (program : Program) (start : Nat) : Option Nat := program.linked.blocks.lookup start

def entry (program : Program) (name : String) : Except Fault Nat :=
  match program.code.findEntry? name with
  | some index => .ok index
  | none => Fault.raise .entryNotFound

end Program

end RegisterMachine
