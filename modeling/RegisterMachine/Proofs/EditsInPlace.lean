import RegisterMachine.Proofs.Edits

/-!
# Editing in place

`Code.respond` makes new code of the code that it is given. A builder that works in place pushes a
record byte by byte behind those it has, opens and closes blocks on its own stack and turns entries
where they stand; what it changed before a refusal stays changed. Here its edits are spelled out in
that way and shown to come to the same, so that a refused edit has changed nothing.
-/

namespace RegisterMachine.Code

open InPlace

variable {code : Code}

/-! ### Records -/

def write (bytes : List UInt8) : EStateM Fault Code Unit :=
  modify fun code => { code with buffer := code.buffer ++ bytes }

/-- Append a record piece by piece, and answer where it starts. -/
def emitInPlace (instruction : Instruction) : EStateM Fault Code Nat := do
  let start ← get
  let padding := paddingFor start.alignment start.size
  write [instruction.opcode.tag]
  write [UInt8.ofNat padding]
  write (List.replicate padding 0)
  write instruction.op.payload
  forM instruction.operands fun operand => write (pack operand)
  modify fun code => { code with count := code.count + 1 }
  return start.size

private theorem run_write (bytes : List UInt8) :
    (write bytes).run code = .ok () { code with buffer := code.buffer ++ bytes } := rfl

private theorem run_writeAll (operands : List Operand) :
    (forM operands fun operand => write (pack operand)).run code =
      .ok () { code with buffer := code.buffer ++ operands.flatMap pack } := by
  induction operands generalizing code with
  | nil => simp [EStateM.run, pure, EStateM.pure]
  | cons operand rest ih =>
    rw [List.forM_cons, EStateM.run_bind, run_write]
    dsimp only
    rw [ih, List.flatMap_cons, List.append_assoc]

private theorem run_emitInPlace (instruction : Instruction) :
    (emitInPlace instruction).run code = .ok code.size (code.emit instruction) := by
  simp only [emitInPlace, EStateM.run_bind, EStateM.run_get, EStateM.run_modify, run_write,
    run_writeAll, EStateM.run_pure]
  simp [emit, lay, Instruction.body]

/-! ### Blocks -/

/-- Note that a block begins or ends. The innermost block is taken off before it is known that there
is one. -/
def bracketInPlace : Op → EStateM Fault Code Unit
  | .beginBlock _ => modify fun code => { code with openBlocks := code.count :: code.openBlocks }
  | .endBlock => do
    let found ← get
    modify fun code => { code with openBlocks := code.openBlocks.tail }
    if found.openBlocks.isEmpty then
      throw { cause := .unbalancedBlock, instruction := some found.count,
              note := "END WITHOUT BEGIN" }
  | _ => pure ()

private theorem run_bracketInPlace (op : Op) :
    (bracketInPlace op).run code = settle code
      ((openAfter code.count op code.openBlocks).map fun openBlocks =>
        ((), { code with openBlocks })) := by
  cases op with
  | endBlock =>
    obtain ⟨buffer, count, alignment, entries, openBlocks⟩ := code
    cases openBlocks <;> rfl
  | _ => rfl

def addInPlace (directive : Directive) : EStateM Fault Code Nat := do
  let instruction ← inspect fun code => directive.instruction code.count
  bracketInPlace instruction.op
  emitInPlace instruction

private theorem run_addInPlace (directive : Directive) :
    (addInPlace directive).run code = settle code (code.add directive) := by
  apply run_inspect_bind
  intro instruction _
  rw [EStateM.run_bind, run_bracketInPlace]
  cases openAfter code.count instruction.op code.openBlocks with
  | error fault => rfl
  | ok openBlocks => exact run_emitInPlace instruction

/-! ### Entries and layouts -/

/-- Turn the entry of that name where it stands, or push one. -/
def addEntryInPlace (name : String) (instruction : Nat) : EStateM Fault Code Unit := do
  match (← get).entries.findIdx? (·.name = name) with
  | some index =>
    modify fun code => { code with entries := code.entries.modify index ({ · with instruction }) }
  | none => modify fun code => { code with entries := code.entries ++ [{ name, instruction }] }

private theorem put_eq (name : String) (instruction : Nat) (entries : List Entry) :
    Entry.put name instruction entries =
      match entries.findIdx? (·.name = name) with
      | some index => entries.modify index ({ · with instruction })
      | none => entries ++ [{ name, instruction }] := by
  induction entries with
  | nil => rfl
  | cons entry rest ih =>
    rw [Entry.put, List.findIdx?_cons]
    split
    · next h => simp [h]
    · next h =>
      rw [ih]
      cases rest.findIdx? (·.name = name) <;> simp [h]

private theorem run_addEntryInPlace (name : String) (instruction : Nat) :
    (addEntryInPlace name instruction).run code = .ok () (code.addEntry name instruction) := by
  rw [addEntry, put_eq]
  simp only [addEntryInPlace, EStateM.run_bind, EStateM.run_get]
  cases code.entries.findIdx? (·.name = name) <;> rfl

def alignInPlace (alignment : Nat) : EStateM Fault Code Unit := do
  let found ← get
  if !isAlignment alignment then throw { cause := .invalidAlignment }
  else if alignment = found.alignment then return
  else
    let records ← inspect fun code => code.records
    modify fun code => { code with buffer := layAll alignment 0 records }
    modify fun code => { code with alignment }

private theorem run_alignInPlace (alignment : Nat) :
    (alignInPlace alignment).run code = settle code ((code.align alignment).map ((), ·)) := by
  rw [alignInPlace, run_get_bind, align]
  split
  · rfl
  · split
    · rfl
    · rw [Outcome.map_bind]
      apply run_inspect_bind
      intro records _
      rfl

/-! ### Edits -/

def editInPlace : Edit → EStateM Fault Code Reply
  | .add directive => do
    return .written (← addInPlace directive)
  | .addEntry name instruction => do
    addEntryInPlace name instruction
    return .done
  | .align alignment => do
    alignInPlace alignment
    return .done

/-- Work on code in place, as the reply and the code that an edit leaves come to it. -/
def told : Reply × Code → EStateM.Result Fault Code Reply
  | (.refused fault, code) => .error fault code
  | (reply, code) => .ok reply code

/-- An edit that is made in place comes to what it comes to. -/
theorem run_editInPlace (edit : Edit) :
    (editInPlace edit).run code = told (code.respond edit) := by
  cases edit with
  | add directive =>
    rw [editInPlace, EStateM.run_bind, run_addInPlace, respond]
    cases code.add directive <;> rfl
  | addEntry name instruction =>
    rw [editInPlace, EStateM.run_bind, run_addEntryInPlace]
    rfl
  | align alignment =>
    rw [editInPlace, EStateM.run_bind, run_alignInPlace, respond]
    cases code.align alignment <;> rfl

/-- A refused edit has changed nothing by the time that it is refused. -/
theorem editInPlace_atomic {edit : Edit} (h : (code.respond edit).1.isGranted = false) :
    ∃ fault, (editInPlace edit).run code = .error fault code := by
  rw [run_editInPlace]
  rcases hr : code.respond edit with ⟨reply, next⟩
  rw [hr] at h
  cases reply with
  | refused fault =>
    have hleft := respond_refused (congrArg Prod.fst hr)
    rw [hr] at hleft
    exact ⟨fault, congrArg _ hleft⟩
  | _ => cases h

private theorem editInPlace_of_granted {edit : Edit} (h : (code.respond edit).1.isGranted = true) :
    (editInPlace edit).run code = .ok (code.respond edit).1 (code.respond edit).2 := by
  rw [run_editInPlace]
  generalize code.respond edit = outcome at h ⊢
  obtain ⟨reply, next⟩ := outcome
  cases reply with
  | refused fault => cases h
  | _ => rfl

/-- An edit that is admissible is made in place, and any other is refused and has changed nothing. -/
theorem Built.editInPlace_settles (hb : Built code) (edit : Edit) :
    (edit.Admissible code →
      (editInPlace edit).run code = .ok (code.respond edit).1 (code.respond edit).2) ∧
      (¬ edit.Admissible code → ∃ fault, (editInPlace edit).run code = .error fault code) := by
  rw [← hb.isGranted_iff]
  exact ⟨editInPlace_of_granted, fun h => editInPlace_atomic (Bool.eq_false_iff.mpr h)⟩

/-- Make one edit after the other, and go on behind those that are refused. -/
def editAllInPlace (edits : List Edit) : EStateM Fault Code Unit :=
  forM edits fun edit => do
    let _ ← attempt (editInPlace edit)

private theorem run_attempt_editInPlace (edit : Edit) :
    ∃ reply, (attempt (editInPlace edit)).run code = .ok reply (code.respond edit).2 := by
  rw [run_attempt, run_editInPlace]
  rcases code.respond edit with ⟨reply, next⟩
  cases reply with
  | refused fault => exact ⟨.error fault, rfl⟩
  | _ => exact ⟨.ok _, rfl⟩

theorem run_editAllInPlace (edits : List Edit) :
    (editAllInPlace edits).run code = .ok () (code.after edits) := by
  induction edits generalizing code with
  | nil => rfl
  | cons edit rest ih =>
    obtain ⟨reply, hreply⟩ := @run_attempt_editInPlace code edit
    rw [editAllInPlace, List.forM_cons, EStateM.run_bind, EStateM.run_bind, hreply]
    exact ih

end RegisterMachine.Code
