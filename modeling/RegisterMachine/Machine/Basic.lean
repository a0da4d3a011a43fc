import RegisterMachine.BoundedStack
import RegisterMachine.Host.FunctionTable
import RegisterMachine.Program

/-!
# The machine

A machine runs a program on memory of its own. Each instruction makes one transition: it changes
memory and moves on, or it moves the cursor elsewhere. `Machine.step` is that transition.
-/

namespace RegisterMachine

namespace Machine

/-- How far an invocation has come. -/
inductive Phase
  /-- None was started, or the last one was interrupted. -/
  | idle
  | running
  | exited
  | faulted
  deriving DecidableEq, Repr

/-- A block that is being repeated. -/
structure Frame where
  bodyStart : Nat
  /-- How many rounds there are, as read when the block began. -/
  limit : Int64
  /-- Where the rounds are counted. -/
  index : Operand
  deriving DecidableEq, Repr

/-- The deepest nesting of blocks unless another is asked for. -/
def defaultDepth : Nat := 64

end Machine

/-- A program being run. -/
structure Machine where
  program : Program
  functions : FunctionTable
  memory : Registers
  frames : BoundedStack Machine.Frame
  pc : Nat := 0
  phase : Machine.Phase := .idle
  interrupted : Bool := false
  trace : Array TraceLine := #[]

namespace Machine

def create (program : Program) (functions : FunctionTable) (memory : Registers)
    (maxDepth : Nat := defaultDepth) : Machine :=
  { program, functions, memory,
    frames := { limit := maxDepth, warning := "BLOCKS NESTED TOO DEEP" } }

def depth (machine : Machine) : Nat := machine.frames.size

/-- What a transition can come to, short of a fault. -/
inductive Step
  | next (machine : Machine)
  | exit
  /-- A host function failed; the machine has moved past the call. -/
  | hostError (fault : Fault) (machine : Machine)

def goTo (machine : Machine) (pc : Nat) : Step := .next { machine with pc }

def advance (machine : Machine) (stored : Except Fault Registers) : Except Fault Step :=
  stored.map fun memory => .next { machine with memory, pc := machine.pc + 1 }

/-- Add to the integer in an element, wrapping at 64 bits. -/
def addTo (memory : Registers) (operand : Operand) (change : Int64) : Except Fault Registers := do
  let value ← memory.readInt operand
  memory.writeInt operand (value + change)

def follow (machine : Machine) (direction : Direction) (target : UInt32) : Except Fault Step :=
  match direction.resolve machine.pc target with
  | some target => .ok (machine.goTo target)
  | none => Fault.raiseAt .invalidJumpTarget machine.pc

def call (machine : Machine) (function : UInt32) (operands : List Operand) : Except Fault Step :=
  match machine.functions.get? function.toNat with
  | none => Fault.raiseAt .invalidFunction machine.pc
  | some function =>
    let outcome := (function.body operands).run machine.memory
    let moved := { machine with
      memory := outcome.memory, trace := machine.trace ++ outcome.trace, pc := machine.pc + 1 }
    match outcome.result with
    | .ok () => .ok (.next moved)
    | .error fault => .ok (.hostError (fault.inInstruction machine.pc) moved)

/-- Enter a block, or skip it when there is nothing to repeat. -/
def enterBlock (machine : Machine) (loop : Loop) : Except Fault Step := do
  let limit ← machine.memory.readInt loop.count
  if limit ≤ 0 then
    match machine.program.blockEnd? machine.pc with
    | some stop => return machine.goTo (stop + 1)
    | none => Fault.raiseAt .unbalancedBlock machine.pc
  else
    let frames ← machine.frames.push
      { bodyStart := machine.pc + 1, limit, index := loop.index }
    return .next { machine with frames, pc := machine.pc + 1 }

/-- Count a round of the innermost block, then repeat it or leave it. -/
def leaveBlock (machine : Machine) : Except Fault Step :=
  match machine.frames.top? with
  | none => Fault.raiseAt .unbalancedBlock machine.pc
  | some frame => do
    let index ← machine.memory.readInt frame.index
    let index := index + 1
    let memory ← machine.memory.writeInt frame.index index
    if index < frame.limit then return .next { machine with memory, pc := frame.bodyStart }
    else
      let (_, frames) ← machine.frames.pop
      return .next { machine with memory, frames, pc := machine.pc + 1 }

def perform (machine : Machine) (instruction : Instruction) : Except Fault Step :=
  let memory := machine.memory
  match instruction.op with
  | .execute function => machine.call function instruction.operands
  | .zero arg => machine.advance (memory.zero arg)
  | .setFalse arg => machine.advance (memory.writeBool arg false)
  | .setTrue arg => machine.advance (memory.writeBool arg true)
  | .copy transfer => machine.advance (memory.copy transfer.source transfer.target)
  | .increment arg => machine.advance (addTo memory arg 1)
  | .decrement arg => machine.advance (addTo memory arg (-1))
  | .equals comparison => machine.advance do
    let same ← memory.equals comparison.left comparison.right
    memory.writeBool comparison.result same
  | .notEquals comparison => machine.advance do
    let same ← memory.equals comparison.left comparison.right
    memory.writeBool comparison.result !same
  | .jump direction target => machine.follow direction target
  | .jumpIf direction branch => do
    let value ← memory.readBool branch.condition
    if value = branch.polarity then machine.follow direction branch.target
    else return machine.goTo (machine.pc + 1)
  | .changeType retyping => machine.advance (memory.changeType retyping.arg retyping.layout)
  | .exit => .ok .exit
  | .beginBlock loop => machine.enterBlock loop
  | .endBlock => machine.leaveBlock

/-- Carry out the next instruction; past the last one there is only the exit. -/
def step (machine : Machine) : Except Fault Step :=
  match machine.program.instruction? machine.pc with
  | some instruction => machine.perform instruction
  | none => .ok .exit

end Machine

end RegisterMachine
