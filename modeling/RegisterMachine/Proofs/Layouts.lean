import Mathlib.Data.List.Forall2
import RegisterMachine.Proofs.Edits

/-!
# The layout of what was built

Two pieces of code compute padding: one as a record is appended, one as all records are laid out
again. `Code.Lays` says what code looks like that was built from nothing, given only its
instructions and its alignment, and every edit keeps it. So the way in which code was built leaves
no trace in it.
-/

namespace RegisterMachine

namespace Record

theorem dvd_payloadOffset_relay {alignment : Nat} (ha : alignment ≠ 0) (offset : Nat)
    (record : Record) : alignment ∣ (record.relay alignment offset).payloadOffset := by
  have hpadding : (record.relay alignment offset).padding = Code.paddingFor alignment offset :=
    List.length_replicate
  have hoffset : (record.relay alignment offset).payloadOffset =
      offset + headerSize + Code.paddingFor alignment offset := by
    rw [payloadOffset, hpadding]
    rfl
  rw [hoffset, Code.paddingFor, if_neg ha]
  generalize offset + headerSize = place
  have hlt : place % alignment < alignment := Nat.mod_lt _ (Nat.pos_of_ne_zero ha)
  have hdiv := Nat.div_add_mod place alignment
  by_cases hz : place % alignment = 0
  · rw [hz, Nat.sub_zero, Nat.mod_self, Nat.add_zero]
    exact Nat.dvd_of_mod_eq_zero hz
  · rw [Nat.mod_eq_of_lt (by omega)]
    refine ⟨place / alignment + 1, ?_⟩
    rw [Nat.mul_add, Nat.mul_one]
    omega

theorem padding_relay_zero (offset : Nat) (record : Record) :
    (record.relay 0 offset).padding = 0 := rfl

theorem exists_relay_of_mem {alignment offset : Nat} {records : List Record} {record : Record}
    (h : record ∈ relayAll alignment offset records) :
    ∃ place start, record = Record.relay alignment start place := by
  induction records generalizing offset with
  | nil => cases h
  | cons first rest ih =>
    rcases List.mem_cons.mp h with rfl | h
    · exact ⟨first, offset, rfl⟩
    · exact ih h

end Record

namespace Code

private theorem layAll_append (alignment offset : Nat) (records others : List Record) :
    layAll alignment offset (records ++ others) =
      layAll alignment offset records ++
        layAll alignment (offset + (layAll alignment offset records).length) others := by
  induction records generalizing offset with
  | nil => rfl
  | cons record records ih =>
    simp only [List.cons_append, layAll, ih, List.append_assoc, List.length_append, Nat.add_assoc]

/-- Laying out looks at the opcode and the body of a record only. -/
theorem layAll_relayAll (alignment other offset start : Nat) (records : List Record) :
    layAll alignment offset (Record.relayAll other start records) =
      layAll alignment offset records := by
  induction records generalizing offset start with
  | nil => rfl
  | cons record records ih =>
    simp only [Record.relayAll, layAll, ih]
    rfl

/-- The code holds the instructions one behind the other, with zeros for filler and as little of it
as the alignment asks for, and keeps count of them and of the blocks that they leave open. -/
structure Lays (code : Code) (instructions : List Instruction) : Prop where
  isAlignment : isAlignment code.alignment = true
  counted : ∀ instruction ∈ instructions, instruction.Counted
  buffer : code.buffer = layAll code.alignment 0 (instructions.map Instruction.record)
  count : code.count = instructions.length
  opened : openAfterAll 0 (instructions.map Instruction.op) [] = .ok code.openBlocks

namespace Lays

variable {code next other : Code} {instructions : List Instruction}

private theorem empty : Lays {} [] := ⟨rfl, List.forall_mem_nil _, rfl, rfl, rfl⟩

theorem records (h : Lays code instructions) :
    code.records = .ok (Record.relayAll code.alignment 0 (instructions.map Instruction.record)) := by
  have hw : ∀ record ∈ instructions.map Instruction.record, record.WellFormed := by
    intro record hr
    obtain ⟨instruction, hi, rfl⟩ := List.mem_map.mp hr
    exact (h.counted instruction hi).wellFormed_record
  obtain ⟨hrow, hbytes⟩ := Record.row_relayAll h.isAlignment 0 hw
  exact Record.readAll_eq_ok_iff.mpr ⟨hrow, h.buffer.trans hbytes⟩

/-- Code is determined by its instructions, its alignment and its entries. -/
theorem unique (h : Lays code instructions) (ho : Lays other instructions)
    (ha : code.alignment = other.alignment) (he : code.entries = other.entries) : code = other := by
  have hbuffer : code.buffer = other.buffer := by rw [h.buffer, ho.buffer, ha]
  have hcount : code.count = other.count := by rw [h.count, ho.count]
  have hopened : code.openBlocks = other.openBlocks :=
    Except.ok.inj (h.opened.symm.trans ho.opened)
  obtain ⟨buffer, count, alignment, entries, openBlocks⟩ := code
  obtain ⟨buffer', count', alignment', entries', openBlocks'⟩ := other
  subst hbuffer hcount ha he hopened
  rfl

private theorem add (h : Lays code instructions) {directive : Directive} {offset : Nat}
    (ha : code.add directive = .ok (offset, next)) :
    ∃ instruction, directive.Asks (instruction.op, instruction.operands) ∧
      Lays next (instructions ++ [instruction]) := by
  obtain ⟨instruction, hi, ha⟩ := Outcome.bind_eq_ok.mp ha
  obtain ⟨openBlocks, ho, ha⟩ := Outcome.bind_eq_ok.mp ha
  cases ha
  refine ⟨instruction, Directive.asks_of_instruction hi, h.isAlignment, ?_, ?_, ?_, ?_⟩
  · intro found hm
    rcases List.mem_append.mp hm with hm | hm
    · exact h.counted found hm
    · cases List.mem_singleton.mp hm
      exact Directive.counted hi
  · -- The new record starts where the layout of the others ends.
    change code.buffer ++ lay code.alignment code.size instruction.opcode instruction.body =
      layAll code.alignment 0 ((instructions ++ [instruction]).map Instruction.record)
    rw [List.map_append, layAll_append, ← h.buffer, Nat.zero_add]
    simp only [List.map_cons, List.map_nil, layAll, List.append_nil]
    rfl
  · simp [emit, h.count]
  · rw [List.map_append, openAfterAll_append h.opened, List.length_map, Nat.zero_add, ← h.count]
    exact (openAfterAll_singleton _ _ _).trans ho

private theorem addEntry (h : Lays code instructions) (name : String) (instruction : Nat) :
    Lays (code.addEntry name instruction) instructions :=
  ⟨h.isAlignment, h.counted, h.buffer, h.count, h.opened⟩

private theorem align (h : Lays code instructions) {alignment : Nat}
    (ha : Code.isAlignment alignment = true) :
    ∃ laid, code.align alignment = .ok laid ∧ Lays laid instructions ∧
      laid.alignment = alignment ∧ laid.entries = code.entries := by
  by_cases he : alignment = code.alignment
  · subst he
    refine ⟨code, ?_, h, rfl, rfl⟩
    simp only [Code.align, ha, Bool.not_true, Bool.false_eq_true, ↓reduceIte]
    rfl
  · let laid : Code :=
      { code with
        buffer := layAll alignment 0 (instructions.map Instruction.record)
        alignment }
    refine ⟨laid, ?_, ⟨ha, h.counted, rfl, h.count, h.opened⟩, rfl, rfl⟩
    simp only [Code.align, ha, he, h.records, Bool.not_true, Bool.false_eq_true, ↓reduceIte, bind,
      Except.bind, layAll_relayAll]
    rfl

end Lays

/-! ### Rows of edits -/

/-- One edit adds the instruction of its directive, if it has one and it is carried out. -/
theorem Lays.respond {code : Code} {instructions : List Instruction} (h : Lays code instructions)
    (edit : Edit) :
    ∃ more : List Instruction,
      List.Forall₂ Directive.Asks (code.carriedOut [edit])
        (more.map fun instruction => (instruction.op, instruction.operands)) ∧
      Lays (code.respond edit).2 (instructions ++ more) := by
  cases edit with
  | add directive =>
    cases ha : code.add directive with
    | error fault => exact ⟨[], by simp [carriedOut, Code.respond, ha], by simpa [Code.respond, ha]⟩
    | ok result =>
      obtain ⟨offset, next⟩ := result
      obtain ⟨instruction, hask, hnext⟩ := h.add ha
      refine ⟨[instruction], ?_, by simpa only [Code.respond, ha] using hnext⟩
      simp only [carriedOut, Code.respond, ha]
      exact .cons hask .nil
  | addEntry name instruction =>
    have hnext := h.addEntry name instruction
    exact ⟨[], .nil, by rwa [List.append_nil]⟩
  | align alignment =>
    cases ha : code.align alignment with
    | error fault => exact ⟨[], .nil, by simpa [Code.respond, ha]⟩
    | ok next =>
      obtain ⟨laid, hl, hlaid, -⟩ := h.align (isAlignment_of_align ha)
      cases ha.symm.trans hl
      exact ⟨[], .nil, by simpa [Code.respond, ha]⟩

/-- After a row of edits the code lays out the instructions of the directives carried out. -/
theorem Lays.after {code : Code} {instructions : List Instruction} (h : Lays code instructions)
    (edits : List Edit) :
    ∃ more : List Instruction,
      List.Forall₂ Directive.Asks (code.carriedOut edits)
        (more.map fun instruction => (instruction.op, instruction.operands)) ∧
      Lays (code.after edits) (instructions ++ more) := by
  induction edits generalizing code instructions with
  | nil => exact ⟨[], .nil, by simpa [Code.after] using h⟩
  | cons edit rest ih =>
    obtain ⟨first, hfirst, hnext⟩ := h.respond edit
    obtain ⟨others, hothers, hlays⟩ := ih hnext
    refine ⟨first ++ others, ?_, ?_⟩
    · rw [carriedOut_cons, List.map_append]
      exact List.rel_append hfirst hothers
    · rw [← List.append_assoc]
      exact hlays

theorem lays_after (edits : List Edit) :
    ∃ instructions : List Instruction,
      List.Forall₂ Directive.Asks (({} : Code).carriedOut edits)
        (instructions.map fun instruction => (instruction.op, instruction.operands)) ∧
      Lays (({} : Code).after edits) instructions := by
  simpa using Lays.empty.after edits

theorem instructions_injective {first second : List Instruction}
    (h : first.map (fun instruction => (instruction.op, instruction.operands)) =
      second.map fun instruction => (instruction.op, instruction.operands)) : first = second := by
  refine List.map_injective_iff.mpr ?_ h
  rintro ⟨op, operands, bounded⟩ ⟨op', operands', bounded'⟩ heq
  cases heq
  rfl

/-- Two rows of edits that emit the same operations with the same operands, name the same entries
and end with the same alignment give the same code, whatever was laid out in between. In it every
payload starts on the alignment, or there is no filler when there is none. Laying it out for any
alignment and then for none packs it as laying it out for none at once does. -/
theorem after_eq_of_same_emissions {first second : List Edit} {emissions : List (Op × List Operand)}
    (hfirst : List.Forall₂ Directive.Asks (({} : Code).carriedOut first) emissions)
    (hsecond : List.Forall₂ Directive.Asks (({} : Code).carriedOut second) emissions)
    (hentries : first.filterMap Edit.entry? = second.filterMap Edit.entry?)
    (halignment : (({} : Code).after first).alignment = (({} : Code).after second).alignment) :
    let code := ({} : Code).after first
    code = ({} : Code).after second ∧
    (∃ records, code.records = .ok records ∧ ∀ record ∈ records,
      (code.alignment ≠ 0 → code.alignment ∣ record.payloadOffset) ∧
      (code.alignment = 0 → record.padding = 0)) ∧
    ∀ alignment, (alignment = 0 ∨ alignment.isPowerOfTwo ∧ alignment ≤ 128) →
      ∃ laid packed, code.align alignment = .ok laid ∧ laid.align 0 = .ok packed ∧
        code.align 0 = .ok packed ∧ (code.alignment = 0 → packed = code) := by
  intro code
  have hunique : Relator.RightUnique Directive.Asks := fun _ _ _ hf hs => hf.unique hs
  obtain ⟨instructions, hasks, hlays⟩ := lays_after first
  obtain ⟨others, hothers, hsame⟩ := lays_after second
  obtain rfl : instructions = others := by
    apply instructions_injective
    rw [List.right_unique_forall₂' hunique hasks hfirst,
      List.right_unique_forall₂' hunique hothers hsecond]
  refine ⟨?_, ⟨_, hlays.records, ?_⟩, ?_⟩
  · apply hlays.unique hsame halignment
    rw [entries_after, entries_after, hentries]
  · intro record hr
    obtain ⟨place, start, rfl⟩ := Record.exists_relay_of_mem hr
    refine ⟨fun ha => Record.dvd_payloadOffset_relay ha start place, ?_⟩
    intro ha
    rw [ha]
    exact Record.padding_relay_zero start place
  · intro alignment ha
    obtain ⟨laid, hl, hlaid, -, hle⟩ := hlays.align (isAlignment_iff.mpr ha)
    have hzero : isAlignment 0 = true := rfl
    obtain ⟨packed, hp, hpacked, hpa, hpe⟩ := hlaid.align hzero
    obtain ⟨direct, hd, hdirect, hda, hde⟩ := hlays.align hzero
    obtain rfl : packed = direct :=
      hpacked.unique hdirect (hpa.trans hda.symm) ((hpe.trans hle).trans hde.symm)
    refine ⟨laid, packed, hl, hp, hd, ?_⟩
    intro hz
    exact hdirect.unique hlays (hda.trans hz.symm) hde

/-- A block that is laid out while it is open, and the same block built on the way through other
layouts and between refused edits. -/
theorem after_eq_of_same_emissions_block :
    let count : Operand := { bank := .literal, register := 0 }
    let first : List Edit :=
      [.add (.beginBlock count (.work 1)), .align 8, .add .endBlock, .addEntry "main" 0]
    let second : List Edit :=
      [.add .endBlock, .align 2, .addEntry "main" 0, .add (.beginBlock count (.work 1)), .align 3,
        .add .endBlock, .align 8]
    ({} : Code).after first = ({} : Code).after second ∧
      (({} : Code).after first).buffer =
        [81, 6, 0, 0, 0, 0, 0, 0, 1, 0, 0, 0, 0, 0, 0, 0, 0, 0, 1, 0, 0, 0, 0, 0,
          82, 6, 0, 0, 0, 0, 0, 0] := by
  intro count first second
  let emissions : List (Op × List Operand) :=
    [(.beginBlock { count, index := .work 1 }, []), (.endBlock, [])]
  have hasks : List.Forall₂ Directive.Asks [.beginBlock count (.work 1), .endBlock] emissions :=
    .cons (.beginBlock count (.work 1)) (.cons .endBlock .nil)
  have hfirst : ({} : Code).carriedOut first = [.beginBlock count (.work 1), .endBlock] := by
    decide +kernel
  have hsecond : ({} : Code).carriedOut second = [.beginBlock count (.work 1), .endBlock] := by
    decide +kernel
  rw [← hfirst] at hasks
  have hothers : List.Forall₂ Directive.Asks (({} : Code).carriedOut second) emissions := by
    rw [hsecond, ← hfirst]
    exact hasks
  have halignment : (({} : Code).after first).alignment = (({} : Code).after second).alignment := by
    decide +kernel
  have hsame := after_eq_of_same_emissions hasks hothers rfl halignment
  exact ⟨hsame.1, by decide +kernel⟩

end Code

end RegisterMachine
