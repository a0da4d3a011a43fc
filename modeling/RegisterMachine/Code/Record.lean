import RegisterMachine.Instruction

/-!
# Records

A buffer of code is a row of records. A record is a tag byte, a padding byte, as many filler bytes
as that says, the payload of the tag's opcode and its operands. `Record.readAll` finds the records
of a buffer in one pass from the front.
-/

namespace RegisterMachine

/-- The bytes of one instruction and where they start. -/
structure Record where
  offset : Nat
  opcode : Opcode
  filler : List UInt8
  payload : List UInt8
  operands : OperandArray
  deriving DecidableEq, Repr

namespace Record

/-- The tag byte and the padding byte. -/
def headerSize : Nat := 2

def padding (record : Record) : Nat := record.filler.length

def payloadOffset (record : Record) : Nat := record.offset + headerSize + record.padding

def operandsOffset (record : Record) : Nat := record.payloadOffset + record.opcode.payloadSize

/-- The bytes that an opcode asks for behind the filler. -/
def bodySize (opcode : Opcode) : Nat :=
  opcode.payloadSize + opcode.arity * Packed.size Operand

def size (record : Record) : Nat := headerSize + record.padding + bodySize record.opcode

def stop (record : Record) : Nat := record.offset + record.size

def body (record : Record) : List UInt8 := record.payload ++ record.operands.bytes

def toBytes (record : Record) : List UInt8 :=
  record.opcode.tag :: UInt8.ofNat record.padding :: (record.filler ++ record.body)

def op (record : Record) : Except Fault Op := Op.ofPayload record.opcode record.payload

/-- The decoded instruction; every operand that the opcode counts must be well formed. -/
def instruction (record : Record) : Except Fault Instruction := do
  let op ← record.op
  let operands := record.operands.toList
  if h : operands.length = record.opcode.arity then
    return { op, operands, bounded := h ▸ record.opcode.arity_le }
  else Fault.raise .invalidOpcode "MALFORMED OPERAND"

/-- Read the record at the front of `bytes`, which is number `index` and starts at `offset`, and
return it with the bytes behind it. -/
def read (index offset : Nat) : List UInt8 → Except Fault (Record × List UInt8)
  | tag :: padding :: rest =>
    match Opcode.ofTag? tag with
    | none => Fault.raiseAt .invalidOpcode index
    | some opcode =>
      let extent := padding.toNat + bodySize opcode
      let bytes := rest.take extent
      if bytes.length < extent then Fault.raiseAt .truncatedByteCode index
      else
        let body := bytes.drop padding.toNat
        .ok ({ offset, opcode, filler := bytes.take padding.toNat,
               payload := body.take opcode.payloadSize,
               operands := ⟨body.drop opcode.payloadSize⟩ }, rest.drop extent)
  | _ => Fault.raiseAt .truncatedByteCode index

theorem length_lt_of_read {index offset : Nat} {bytes rest : List UInt8} {record : Record}
    (h : read index offset bytes = .ok (record, rest)) : rest.length < bytes.length := by
  unfold read at h
  split at h
  · split at h
    · cases h
    · dsimp only at h
      split at h
      · cases h
      · cases h
        simp only [List.length_drop, List.length_cons]
        omega
  · cases h

/-- The records of a buffer, given the number and offset of the first. -/
def readAll (index offset : Nat) (bytes : List UInt8) : Except Fault (List Record) :=
  if bytes.isEmpty then .ok []
  else
    match h : read index offset bytes with
    | .error fault => .error fault
    | .ok (record, rest) =>
      have := length_lt_of_read h
      (readAll (index + 1) record.stop rest).map (record :: ·)
termination_by bytes.length

end Record

end RegisterMachine
