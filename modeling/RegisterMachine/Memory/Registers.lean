import RegisterMachine.Memory.Integer
import RegisterMachine.Memory.Register
import RegisterMachine.Operand

/-!
# Register memory

Three banks of registers. Every access first resolves its operand to a range of bytes; a store then
checks that the bank can be written and splices the new bytes in. A refused store leaves the memory
as it was, because the new memory is what a store returns.
-/

namespace RegisterMachine

structure Registers where
  work : Array Register := #[]
  literal : Array Register := #[]
  external : Array Register := #[]
  deriving DecidableEq, Repr

namespace Registers

def bank (memory : Registers) : Bank → Array Register
  | .work => memory.work
  | .literal => memory.literal
  | .external => memory.external

def modifyBank (memory : Registers) (bank : Bank) (f : Array Register → Array Register) :
    Registers :=
  match bank with
  | .work => { memory with work := f memory.work }
  | .literal => { memory with literal := f memory.literal }
  | .external => { memory with external := f memory.external }

/-- Add a register of `capacity` zero bytes, and return its operand. -/
def add (memory : Registers) (bank : Bank) (layout : Layout) (capacity : Nat) :
    Operand × Registers :=
  ({ bank, register := UInt16.ofNat (memory.bank bank).size },
    memory.modifyBank bank (·.push { layout, bytes := List.replicate capacity 0 }))

/-- Add a register just large enough for its layout; one whose size no word can name has no bytes. -/
def addFor (memory : Registers) (bank : Bank) (layout : Layout) : Operand × Registers :=
  memory.add bank layout (layout.footprint?.getD 0)

/-! ### Resolving operands -/

def register (memory : Registers) (operand : Operand) : Except Fault Register :=
  match (memory.bank operand.bank)[operand.register.toNat]? with
  | some register => .ok register
  | none => Fault.raise .invalidRegister

def firstInt (register : Register) : Except Fault Int64 := do
  let span ← register.elementSpan 0
  return Integer.ofBytes (register.slice span)

/-- The index that an operand's element stands for. -/
def index (memory : Registers) : Element → Except Fault Int
  | .whole => .ok 0
  | .fixed index => .ok index.toNat
  | .indirect register => do
    let value ← firstInt (← memory.register (Operand.work register))
    return value.toInt

/-- The range of the one element that an operand addresses. -/
def element (memory : Registers) (operand : Operand) : Except Fault Span := do
  let register ← memory.register operand
  let index ← memory.index operand.element
  register.elementSpan index

/-- The range that an operand covers: all elements of a whole register, or one element. -/
def region (memory : Registers) (operand : Operand) : Except Fault Span :=
  match operand.element with
  | .whole => do
    let register ← memory.register operand
    register.wholeSpan
  | _ => memory.element operand

/-- Refuse operands in the literal bank. -/
def checkWritable (operand : Operand) : Except Fault Unit :=
  if operand.bank = .literal then Fault.raise .readOnlyMemory else .ok ()

def update (memory : Registers) (operand : Operand) (f : Register → Register) : Registers :=
  memory.modifyBank operand.bank (·.modify operand.register.toNat f)

def store (memory : Registers) (operand : Operand) (start : Nat) (bytes : List UInt8) : Registers :=
  memory.update operand (·.splice start bytes)

/-! ### Reading -/

def layout (memory : Registers) (operand : Operand) : Except Fault Layout := do
  return (← memory.register operand).layout

def capacity (memory : Registers) (operand : Operand) : Except Fault Nat := do
  return (← memory.register operand).capacity

def elementBytes (memory : Registers) (operand : Operand) : Except Fault (List UInt8) := do
  let span ← memory.element operand
  let register ← memory.register operand
  return register.slice span

def regionBytes (memory : Registers) (operand : Operand) : Except Fault (List UInt8) := do
  let span ← memory.region operand
  let register ← memory.register operand
  return register.slice span

def readInt (memory : Registers) (operand : Operand) : Except Fault Int64 := do
  return Integer.ofBytes (← memory.elementBytes operand)

def readBool (memory : Registers) (operand : Operand) : Except Fault Bool := do
  return Truth.ofBytes (← memory.elementBytes operand)

/-- Whether two operands cover the same bytes; regions of different sizes differ. -/
def equals (memory : Registers) (left right : Operand) : Except Fault Bool := do
  let leftBytes ← memory.regionBytes left
  let rightBytes ← memory.regionBytes right
  return leftBytes == rightBytes

/-! ### Stores by the host, which may fill literals -/

def setInt (memory : Registers) (operand : Operand) (value : Int64) : Except Fault Registers := do
  let span ← memory.element operand
  return memory.store operand span.start (Integer.toBytes span.size value)

def setBool (memory : Registers) (operand : Operand) (value : Bool) : Except Fault Registers := do
  let span ← memory.element operand
  return memory.store operand span.start (Truth.toBytes span.size value)

/-! ### Stores by running code -/

def writeInt (memory : Registers) (operand : Operand) (value : Int64) : Except Fault Registers := do
  let span ← memory.element operand
  checkWritable operand
  return memory.store operand span.start (Integer.toBytes span.size value)

def writeBool (memory : Registers) (operand : Operand) (value : Bool) : Except Fault Registers := do
  let span ← memory.element operand
  checkWritable operand
  return memory.store operand span.start (Truth.toBytes span.size value)

def zero (memory : Registers) (operand : Operand) : Except Fault Registers := do
  let span ← memory.region operand
  checkWritable operand
  return memory.store operand span.start (List.replicate span.size 0)

/-- Copy as many bytes as both operands cover, as they were before the copy. -/
def copy (memory : Registers) (source target : Operand) : Except Fault Registers := do
  let bytes ← memory.regionBytes source
  let span ← memory.region target
  checkWritable target
  return memory.store target span.start (bytes.take span.size)

/-- Give a register another layout over the same bytes, which must be enough for it. -/
def changeType (memory : Registers) (operand : Operand) (layout : Layout) :
    Except Fault Registers := do
  checkWritable operand
  let register ← memory.register operand
  if layout.fitsIn register.capacity then return memory.update operand ({ · with layout })
  else Fault.raise .layoutTooLarge

end Registers

end RegisterMachine
