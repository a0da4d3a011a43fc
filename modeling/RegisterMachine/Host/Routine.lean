import RegisterMachine.Memory.Registers

/-!
# Host routines

A host function sees memory only through requests. A `Routine` is the tree of what it asks for and
how it goes on with each answer, so that all it can do to memory is what the requests can do. It may
also leave lines in the trace.
-/

namespace RegisterMachine

/-- What a host function can ask of memory. -/
inductive Request
  | layout (operand : Operand)
  | capacity (operand : Operand)
  | readBool (operand : Operand)
  | writeBool (operand : Operand) (value : Bool)
  | readInt (operand : Operand)
  | writeInt (operand : Operand) (value : Int64)
  | zero (operand : Operand)
  | copy (source target : Operand)
  | equals (left right : Operand)
  | changeType (operand : Operand) (layout : Layout)

def Request.Reply : Request → Type
  | .layout _ => Layout
  | .capacity _ => Nat
  | .readBool _ | .equals _ _ => Bool
  | .readInt _ => Int64
  | .writeBool _ _ | .writeInt _ _ | .zero _ | .copy _ _ | .changeType _ _ => Unit

/-- The memory after a store: the new one, or the old one if the store was refused. -/
def Registers.commit (memory : Registers) : Except Fault Registers → Except Fault Unit × Registers
  | .ok stored => (.ok (), stored)
  | .error fault => (.error fault, memory)

def Registers.serve (memory : Registers) :
    (request : Request) → Except Fault request.Reply × Registers
  | .layout operand => (memory.layout operand, memory)
  | .capacity operand => (memory.capacity operand, memory)
  | .readBool operand => (memory.readBool operand, memory)
  | .writeBool operand value => memory.commit (memory.writeBool operand value)
  | .readInt operand => (memory.readInt operand, memory)
  | .writeInt operand value => memory.commit (memory.writeInt operand value)
  | .zero operand => memory.commit (memory.zero operand)
  | .copy source target => memory.commit (memory.copy source target)
  | .equals left right => (memory.equals left right, memory)
  | .changeType operand layout => memory.commit (memory.changeType operand layout)

/-- A line of the trace: the value that the operand at a position was found to hold. -/
structure TraceLine where
  position : Nat
  operand : Operand
  value : Int64
  deriving DecidableEq, Repr

/-- A computation that talks to memory by requests. -/
inductive Routine (α : Type) : Type
  /-- Finished, with a result or a fault. -/
  | done (result : Except Fault α)
  /-- Make a request and go on with its answer. -/
  | ask (request : Request) (next : Except Fault request.Reply → Routine α)
  /-- Leave a line in the trace and go on. -/
  | log (line : TraceLine) (next : Routine α)

namespace Routine

variable {α β : Type}

/-- Go on with the result of a routine; a fault ends both. -/
def bind : Routine α → (α → Routine β) → Routine β
  | .done (.ok a), f => f a
  | .done (.error fault), _ => .done (.error fault)
  | .ask request next, f => .ask request fun reply => (next reply).bind f
  | .log line next, f => .log line (next.bind f)

instance : Monad Routine where
  pure a := .done (.ok a)
  bind := bind

def fail (fault : Fault) : Routine α := .done (.error fault)

def request (request : Request) : Routine request.Reply := .ask request .done

def readInt (operand : Operand) : Routine Int64 := request (.readInt operand)

def writeInt (operand : Operand) (value : Int64) : Routine Unit := request (.writeInt operand value)

def writeBool (operand : Operand) (value : Bool) : Routine Unit := request (.writeBool operand value)

def capacity (operand : Operand) : Routine Nat := request (.capacity operand)

structure Outcome (α : Type) where
  result : Except Fault α
  memory : Registers
  /-- The lines it left, in order. -/
  trace : List TraceLine := []

def run : Routine α → Registers → Outcome α
  | .done result, memory => { result, memory }
  | .ask request next, memory =>
    let (reply, memory) := memory.serve request
    (next reply).run memory
  | .log line next, memory =>
    let outcome := next.run memory
    { outcome with trace := line :: outcome.trace }

end Routine

end RegisterMachine
