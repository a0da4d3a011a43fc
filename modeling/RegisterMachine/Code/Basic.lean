import RegisterMachine.Code.Record

/-!
# Code

Code is a buffer of records with a table of named entries. `Code.emit` appends one record, padded so
that its payload starts on the code's alignment.
-/

namespace RegisterMachine

/-- A named place to start at. -/
structure Entry where
  name : String
  instruction : Nat
  deriving DecidableEq, Repr

/-- Point the first entry called `name` at `instruction`, or add such an entry at the end. -/
def Entry.put (name : String) (instruction : Nat) : List Entry → List Entry
  | [] => [{ name, instruction }]
  | entry :: rest =>
    if entry.name = name then { entry with instruction } :: rest
    else entry :: put name instruction rest

/-- Code under construction, or ready to run. -/
structure Code where
  buffer : List UInt8 := []
  count : Nat := 0
  alignment : Nat := 0
  entries : List Entry := []
  /-- The indices of the blocks that are still open, innermost first. -/
  openBlocks : List Nat := []
  deriving DecidableEq, Repr

namespace Code

/-- The most that a payload can be aligned to; the padding has to fit one byte. -/
def maxAlignment : Nat := 128

/-- Alignments are the divisors of `maxAlignment`, that is the powers of two up to it, and zero for
none. -/
def isAlignment (alignment : Nat) : Bool :=
  alignment == 0 || maxAlignment % alignment == 0

/-- The filler that a record at `offset` needs for its payload to start on `alignment`. -/
def paddingFor (alignment offset : Nat) : Nat :=
  if alignment = 0 then 0
  else (alignment - (offset + Record.headerSize) % alignment) % alignment

/-- The bytes of a record that starts at `offset`, with zeros for filler. -/
def lay (alignment offset : Nat) (opcode : Opcode) (body : List UInt8) : List UInt8 :=
  let padding := paddingFor alignment offset
  opcode.tag :: UInt8.ofNat padding :: (List.replicate padding 0 ++ body)

def size (code : Code) : Nat := code.buffer.length

def isEmpty (code : Code) : Bool := code.buffer.isEmpty

def emit (code : Code) (instruction : Instruction) : Code :=
  { code with
    buffer := code.buffer ++ lay code.alignment code.size instruction.opcode instruction.body
    count := code.count + 1 }

/-- Name an instruction. A name that is already taken moves there. -/
def addEntry (code : Code) (name : String) (instruction : Nat) : Code :=
  { code with entries := Entry.put name instruction code.entries }

def findEntry? (code : Code) (name : String) : Option Nat :=
  (code.entries.find? (·.name = name)).map (·.instruction)

def records (code : Code) : Except Fault (List Record) := Record.readAll 0 0 code.buffer

/-- The blocks still open after the operation number `index`, given those open before it. -/
def openAfter (index : Nat) (op : Op) (opened : List Nat) : Except Fault (List Nat) :=
  match op, opened with
  | .beginBlock _, _ => .ok (index :: opened)
  | .endBlock, _ :: outer => .ok outer
  | .endBlock, [] => Fault.raiseAt .unbalancedBlock index "END WITHOUT BEGIN"
  | _, _ => .ok opened

end Code

end RegisterMachine
