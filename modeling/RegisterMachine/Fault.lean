/-!
# Faults

Every operation that can be refused answers with a `Fault`: a cause, the instruction it belongs to
when there is one, and a note in plain words.
-/

namespace RegisterMachine

/-- Why an operation was refused: while code is built, while it is loaded, or while it runs. -/
inductive Fault.Cause
  | tooManyOperands
  | invalidJumpTarget
  | unbalancedBlock
  | layoutTooLarge
  | notAJump
  | invalidAlignment
  | badMagic
  | unsupportedVersion
  | truncatedByteCode
  | checksumMismatch
  | invalidOpcode
  | malformedEntry
  | entryNotFound
  | invalidFunction
  | invalidRegister
  | readOnlyMemory
  | elementOutOfRange
  | blockOverflow
  | hostFailure
  | internalError
  deriving DecidableEq, Repr

/-- A refusal, with its place in the instruction stream and a note that may be empty. -/
structure Fault where
  cause : Fault.Cause
  instruction : Option Nat := none
  note : String := ""
  deriving DecidableEq, Repr

namespace Fault

/-- Causes are numbered by stage: below 50 building, below 100 loading, then running. -/
def Cause.number : Cause → Nat
  | .tooManyOperands => 1
  | .invalidJumpTarget => 2
  | .unbalancedBlock => 3
  | .layoutTooLarge => 4
  | .notAJump => 5
  | .invalidAlignment => 6
  | .badMagic => 50
  | .unsupportedVersion => 51
  | .truncatedByteCode => 52
  | .checksumMismatch => 53
  | .invalidOpcode => 54
  | .malformedEntry => 55
  | .entryNotFound => 100
  | .invalidFunction => 101
  | .invalidRegister => 102
  | .readOnlyMemory => 103
  | .elementOutOfRange => 104
  | .blockOverflow => 105
  | .hostFailure => 106
  | .internalError => 199

def Cause.text : Cause → String
  | .tooManyOperands => "TOO MANY OPERANDS"
  | .invalidJumpTarget => "INVALID JUMP TARGET"
  | .unbalancedBlock => "UNBALANCED BLOCK"
  | .layoutTooLarge => "LAYOUT TOO LARGE"
  | .notAJump => "NOT A JUMP"
  | .invalidAlignment => "INVALID ALIGNMENT"
  | .badMagic => "BAD MAGIC"
  | .unsupportedVersion => "UNSUPPORTED VERSION"
  | .truncatedByteCode => "TRUNCATED BYTE CODE"
  | .checksumMismatch => "CHECKSUM MISMATCH"
  | .invalidOpcode => "INVALID OPCODE"
  | .malformedEntry => "MALFORMED ENTRY"
  | .entryNotFound => "ENTRY NOT FOUND"
  | .invalidFunction => "INVALID FUNCTION"
  | .invalidRegister => "INVALID REGISTER"
  | .readOnlyMemory => "READ ONLY MEMORY"
  | .elementOutOfRange => "ELEMENT OUT OF RANGE"
  | .blockOverflow => "BLOCK OVERFLOW"
  | .hostFailure => "HOST FAILURE"
  | .internalError => "INTERNAL ERROR"

/-- Refuse for `cause`, with no place in the stream yet. -/
abbrev raise {α : Type} (cause : Cause) (note : String := "") : Except Fault α :=
  .error { cause, note }

abbrev raiseAt {α : Type} (cause : Cause) (index : Nat) (note : String := "") : Except Fault α :=
  .error { cause, instruction := some index, note }

/-- Place the fault at `index`, unless it already has a place. -/
def inInstruction (fault : Fault) (index : Nat) : Fault :=
  { fault with instruction := fault.instruction.or (some index) }

/-- Building and loading defects lie in the code itself; the others arise while it runs. -/
def isFormatDefect (fault : Fault) : Bool := fault.cause.number < 100

/-- The report: the cause, then its place, then the note, the last two when present. -/
def text (fault : Fault) : String :=
  fault.cause.text ++
    (match fault.instruction with
      | some index => " IN " ++ toString index
      | none => "") ++
    (if fault.note.isEmpty then "" else "; " ++ fault.note)

def debugText (fault : Fault) : String := "Error \x7b " ++ fault.text ++ " \x7d"

@[simp] theorem inInstruction_cause (fault : Fault) (index : Nat) :
    (fault.inInstruction index).cause = fault.cause := rfl

end Fault

end RegisterMachine
