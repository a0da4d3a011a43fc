import RegisterMachine.Code.Basic

/-!
# Alignment

Laying the same records out again for another alignment. Only the filler changes: opcodes, payloads
and operands stay, and so does their order.
-/

namespace RegisterMachine.Code

/-- The bytes of a row of records of which the first starts at `offset`. -/
def layAll (alignment : Nat) : Nat → List Record → List UInt8
  | _, [] => []
  | offset, record :: rest =>
    let bytes := lay alignment offset record.opcode record.body
    bytes ++ layAll alignment (offset + bytes.length) rest

/-- Lay the records out for `alignment`; code that has that alignment already is left as it is. -/
def align (code : Code) (alignment : Nat) : Except Fault Code := do
  if !isAlignment alignment then Fault.raise .invalidAlignment
  else if alignment = code.alignment then return code
  else
    let records ← code.records
    return { code with buffer := layAll alignment 0 records, alignment }

end RegisterMachine.Code
