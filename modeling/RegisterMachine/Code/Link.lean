import RegisterMachine.Code.Basic

/-!
# Linking

Linking checks what can only be known once the last record is there: every payload and operand
decodes, every jump stays inside the stream, every block is closed, every entry names an instruction
or the end. It decodes the instructions and pairs the blocks on the way.
-/

namespace RegisterMachine

/-- Code that passed the checks. -/
structure Linked where
  records : List Record
  instructions : Array Instruction
  /-- Every block's first and last instruction, in the order the blocks end. -/
  blocks : List (Nat × Nat)
  deriving DecidableEq

namespace Linked

/-- What the pass over the records has found so far. -/
structure Scan where
  instructions : Array Instruction := #[]
  /-- The blocks that are open, innermost first. -/
  opened : List Nat := []
  /-- The blocks that are closed, the last one first. -/
  closed : List (Nat × Nat) := []

/-- Whether a jump stays in a stream of `count` instructions; its end is inside. -/
def jumpStays (count index : Nat) (op : Op) : Bool :=
  match op.jumpTarget? index with
  | none => true
  | some none => false
  | some (some target) => target ≤ count

/-- Check the next record of a stream of `count`. -/
def Scan.step (count : Nat) (scan : Scan) (record : Record) : Except Fault Scan := do
  let index := scan.instructions.size
  let instruction ← record.instruction.mapError (·.inInstruction index)
  if !jumpStays count index instruction.op then Fault.raiseAt .invalidJumpTarget index
  else
    let opened ← Code.openAfter index instruction.op scan.opened
    let closed :=
      match instruction.op, scan.opened with
      | .endBlock, start :: _ => (start, index) :: scan.closed
      | _, _ => scan.closed
    return { instructions := scan.instructions.push instruction, opened, closed }

end Linked

namespace Code

/-- Check a row of records against the code's entries. -/
def linkRecords (code : Code) (records : List Record) : Except Fault Linked := do
  let scan ← records.foldlM (Linked.Scan.step records.length) {}
  match scan.opened with
  | start :: _ => Fault.raiseAt .unbalancedBlock start "BEGIN WITHOUT END"
  | [] =>
    if code.entries.any (records.length < ·.instruction) then
      Fault.raise .malformedEntry "ENTRY PAST END OF STREAM"
    else
      return { records, instructions := scan.instructions, blocks := scan.closed.reverse }

def link (code : Code) : Except Fault Linked := do
  code.linkRecords (← code.records)

/-- Check finished code; a block that its builder left open is reported first. -/
def finalize (code : Code) : Except Fault Linked :=
  match code.openBlocks with
  | start :: _ => Fault.raiseAt .unbalancedBlock start "BEGIN WITHOUT END"
  | [] => code.link

end Code

end RegisterMachine
