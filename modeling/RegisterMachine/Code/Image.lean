import RegisterMachine.Checksum
import RegisterMachine.Code.Alignment
import RegisterMachine.Code.Link

/-!
# Images

The saved form of code: the magic bytes, the format version, the alignment and a reserved byte, the
checksum and length of the buffer, the buffer, and the table of entries. Saving refuses code whose
lengths or indices do not fit their fields; loading refuses any defect.
-/

namespace RegisterMachine

namespace Image

def magic : List UInt8 := "GVBC".toUTF8.data.toList

/-- The version of the opcode tags and record sizes. -/
def formatVersion : UInt16 := 1

def nameBytes (name : String) : List UInt8 := name.toUTF8.data.toList

/-- The name that bytes spell, if they are well-formed UTF-8. -/
def nameOfBytes? (bytes : List UInt8) : Option String := String.fromUTF8? ⟨bytes.toArray⟩

/-- Write `n` as a word, or refuse for `cause`. -/
def wordOf (n : Nat) (cause : Fault.Cause) (note : String) : Except Fault (List UInt8) :=
  if n < UInt32.size then .ok (LittleEndian.ofNat 4 n) else Fault.raise cause note

def halfOf (n : Nat) (cause : Fault.Cause) (note : String) : Except Fault (List UInt8) :=
  if n < UInt16.size then .ok (LittleEndian.ofNat 2 n) else Fault.raise cause note

/-- An entry: the length of its name, the name, the instruction. -/
def ofEntry (entry : Entry) : Except Fault (List UInt8) := do
  let name := nameBytes entry.name
  let size ← halfOf name.length .malformedEntry "NAME TOO LONG"
  let instruction ← wordOf entry.instruction .malformedEntry "ENTRY PAST END OF STREAM"
  return size ++ name ++ instruction

/-- Reads the front of a byte string and passes on the rest. -/
abbrev Reader (α : Type) := StateT (List UInt8) (Except Fault) α

def take (n : Nat) : Reader (List UInt8) := fun bytes =>
  let front := bytes.take n
  if front.length < n then Fault.raise .truncatedByteCode else .ok (front, bytes.drop n)

def takeHalf : Reader UInt16 := LittleEndian.half <$> take 2

def takeWord : Reader UInt32 := LittleEndian.word <$> take 4

/-- Refuse for `cause` unless the condition holds. -/
def require (condition : Bool) (cause : Fault.Cause) (note : String := "") : Reader Unit :=
  if condition then pure () else throw { cause, note }

def takeEntry : Reader Entry := do
  let size ← takeHalf
  let bytes ← take size.toNat
  match nameOfBytes? bytes with
  | none => throw { cause := .malformedEntry, note := "NAME IS NOT UTF-8" }
  | some name =>
    let instruction ← takeWord
    return { name, instruction := instruction.toNat }

def takeEntries : Nat → Reader (List Entry)
  | 0 => return []
  | n + 1 => do
    let entry ← takeEntry
    let rest ← takeEntries n
    return entry :: rest

/-- Read the parts of an image: the alignment, the buffer and the entries. -/
def takeParts : Reader (Nat × List UInt8 × List Entry) := do
  require ((← take magic.length) == magic) .badMagic
  require ((← takeHalf) == formatVersion) .unsupportedVersion
  let alignment := ((← take 2).getD 0 0).toNat
  require (Code.isAlignment alignment) .invalidAlignment
  let checksum ← takeWord
  let size ← takeWord
  let buffer ← take size.toNat
  require (Checksum.crc32 buffer == checksum) .checksumMismatch
  let count ← takeWord
  let entries ← takeEntries count.toNat
  require (← get).isEmpty .truncatedByteCode "TRAILING BYTES"
  return (alignment, buffer, entries)

end Image

namespace Code

def save (code : Code) : Except Fault (List UInt8) := do
  let size ← Image.wordOf code.size .truncatedByteCode "BUFFER TOO LARGE"
  let count ← Image.wordOf code.entries.length .malformedEntry "TOO MANY ENTRIES"
  let entries ← code.entries.mapM Image.ofEntry
  return Image.magic ++ LittleEndian.ofHalf Image.formatVersion ++
    [UInt8.ofNat code.alignment, 0] ++ LittleEndian.ofWord (Checksum.crc32 code.buffer) ++
    size ++ code.buffer ++ count ++ entries.flatten

/-- The code that an image holds, checked in full. -/
def load (bytes : List UInt8) : Except Fault Code := do
  let ((alignment, buffer, entries), _) ← Image.takeParts bytes
  let records ← Record.readAll 0 0 buffer
  let code : Code := { buffer, count := records.length, alignment, entries }
  let _ ← code.finalize
  return code

def loadAligned (bytes : List UInt8) (alignment : Nat) : Except Fault Code := do
  let code ← load bytes
  code.align alignment

end Code

end RegisterMachine
