import RegisterMachine.Code.Alignment
import RegisterMachine.Proofs.Outcomes

/-!
# Rows of records

`Record.readAll` finds exactly the rows of well-formed records whose bytes the buffer is. Laying a
row out for an alignment moves its records and changes their filler, and nothing that an instruction
is decoded from.
-/

namespace RegisterMachine

namespace Opcode

private theorem nodup_fixed : fixed.Nodup := by decide

private theorem tag_of_fixed {opcode : Opcode} (h : opcode ∈ fixed) :
    opcode.tag = UInt8.ofNat (maxOperands + 1 + fixed.idxOf opcode) := by
  cases opcode with
  | execute arity => simp [fixed] at h
  | _ => rfl

/-- A tag byte is assigned to one opcode only, and is the one that this opcode is written with. -/
theorem ofTag?_eq_some_iff {tag : UInt8} {opcode : Opcode} :
    ofTag? tag = some opcode ↔ opcode.tag = tag := by
  constructor
  · intro h
    unfold ofTag? at h
    split at h
    · cases h
      exact UInt8.ofNat_toNat
    · next hlt =>
      obtain ⟨hi, rfl⟩ := List.getElem?_eq_some_iff.mp h
      rw [tag_of_fixed (List.getElem_mem hi), nodup_fixed.idxOf_getElem _ hi,
        Nat.add_sub_of_le (Nat.le_of_not_lt hlt), UInt8.ofNat_toNat]
  · rintro rfl
    exact ofTag?_tag opcode

end Opcode

namespace Record

/-- The parts of a record have the lengths that its padding byte and its opcode give them. -/
structure WellFormed (record : Record) : Prop where
  padding_lt : record.padding < UInt8.size
  length_payload : record.payload.length = record.opcode.payloadSize
  length_operands : record.operands.bytes.length = record.opcode.arity * Packed.size Operand

theorem instruction_eq_ok {record : Record} {instruction : Instruction}
    (h : record.instruction = .ok instruction) :
    record.op = .ok instruction.op ∧ record.operands.toList = instruction.operands ∧
      instruction.operands.length = record.opcode.arity := by
  obtain ⟨op, hop, h⟩ := Outcome.bind_eq_ok.mp h
  dsimp only at h
  split at h
  · next hl =>
    cases h
    exact ⟨hop, rfl, hl⟩
  · cases h

private theorem WellFormed.length_body {record : Record} (h : record.WellFormed) :
    record.body.length = bodySize record.opcode := by
  rw [body, List.length_append, h.length_payload, h.length_operands, bodySize]

private theorem WellFormed.length_toBytes {record : Record} (h : record.WellFormed) :
    record.toBytes.length = record.size := by
  simp only [toBytes, List.length_cons, List.length_append, h.length_body, size, headerSize,
    padding]
  omega

theorem WellFormed.stop_eq {record : Record} (h : record.WellFormed) :
    record.stop = record.offset + record.toBytes.length := by
  rw [h.length_toBytes, stop]

theorem WellFormed.toNat_padding {record : Record} (h : record.WellFormed) :
    (UInt8.ofNat record.padding).toNat = record.padding :=
  UInt8.toNat_ofNat_of_lt' h.padding_lt

theorem read_toBytes_append {record : Record} (h : record.WellFormed) (index : Nat)
    (rest : List UInt8) :
    read index record.offset (record.toBytes ++ rest) = .ok (record, rest) := by
  have hx : record.padding + bodySize record.opcode = (record.filler ++ record.body).length := by
    rw [List.length_append, h.length_body, padding]
  have hp : record.padding = record.filler.length := rfl
  simp only [toBytes, List.cons_append, read, Opcode.ofTag?_tag, h.toNat_padding, hx,
    List.take_left, List.drop_left, Nat.lt_irrefl, ↓reduceIte]
  rw [hp, List.take_left, List.drop_left, body, ← h.length_payload, List.take_left, List.drop_left]

private theorem wellFormed_of_read {index offset : Nat} {bytes rest : List UInt8} {record : Record}
    (h : read index offset bytes = .ok (record, rest)) :
    record.offset = offset ∧ record.WellFormed ∧ bytes = record.toBytes ++ rest := by
  unfold read at h
  split at h
  · next tag padding tail =>
    split at h
    · cases h
    · next opcode ho =>
      dsimp only at h
      split at h
      · cases h
      · next hlen =>
        cases h
        rw [List.length_take] at hlen
        have hle : padding.toNat + bodySize opcode ≤ tail.length := by omega
        have hfill : (List.take padding.toNat
            (List.take (padding.toNat + bodySize opcode) tail)).length = padding.toNat := by
          simp only [List.length_take]
          omega
        refine ⟨rfl, ⟨?_, ?_, ?_⟩, ?_⟩
        · simp only [Record.padding, hfill]
          exact padding.toNat_lt
        · simp only [List.length_take, List.length_drop, bodySize] at hle ⊢
          omega
        · simp only [List.length_take, List.length_drop, bodySize] at hle ⊢
          omega
        · simp only [toBytes, Record.padding, hfill, body, List.take_append_drop, List.cons_append,
            Opcode.ofTag?_eq_some_iff.mp ho, UInt8.ofNat_toNat]
  · cases h

/-- A record is read from exactly the byte strings that begin with it. -/
theorem read_eq_ok_iff {index offset : Nat} {bytes rest : List UInt8} {record : Record} :
    read index offset bytes = .ok (record, rest) ↔
      record.offset = offset ∧ record.WellFormed ∧ bytes = record.toBytes ++ rest := by
  constructor
  · exact wellFormed_of_read
  · rintro ⟨rfl, hw, rfl⟩
    exact read_toBytes_append hw index rest

/-- Well-formed records that stand one behind the other from `offset` on. -/
inductive Row : Nat → List Record → Prop
  | nil (offset : Nat) : Row offset []
  | cons {record : Record} {rest : List Record} (hw : record.WellFormed)
      (hr : Row record.stop rest) : Row record.offset (record :: rest)

theorem readAll_nil (index offset : Nat) : readAll index offset [] = .ok [] := by
  simp [readAll]

theorem readAll_toBytes_append {record : Record} (hw : record.WellFormed) (index : Nat)
    (rest : List UInt8) :
    readAll index record.offset (record.toBytes ++ rest) =
      (readAll (index + 1) record.stop rest).map (record :: ·) := by
  have he : (record.toBytes ++ rest).isEmpty = false := by simp [toBytes]
  rw [readAll, he]
  simp only [Bool.false_eq_true, ↓reduceIte]
  split
  · next fault h => rw [read_toBytes_append hw] at h; cases h
  · next other tail h =>
    rw [read_toBytes_append hw] at h
    cases h
    rfl

theorem Row.readAll_eq {offset : Nat} {records : List Record} (h : Row offset records)
    (index : Nat) : readAll index offset (records.flatMap toBytes) = .ok records := by
  induction h generalizing index with
  | nil offset => exact readAll_nil index offset
  | cons hw hr ih =>
    rw [List.flatMap_cons, readAll_toBytes_append hw, ih]
    rfl

/-- The records of a buffer are the well-formed row that the buffer spells. -/
theorem readAll_eq_ok_iff {index offset : Nat} {bytes : List UInt8} {records : List Record} :
    readAll index offset bytes = .ok records ↔
      Row offset records ∧ bytes = records.flatMap toBytes := by
  constructor
  · intro h
    fun_induction readAll index offset bytes generalizing records with
    | case1 index offset bytes he =>
      cases h
      exact ⟨.nil offset, List.isEmpty_iff.mp he⟩
    | case2 index offset bytes he fault hr => cases h
    | case3 index offset bytes he record rest hr hlt ih =>
      obtain ⟨others, ho, rfl⟩ := Outcome.map_eq_ok.mp h
      obtain ⟨rfl, hw, rfl⟩ := read_eq_ok_iff.mp hr
      obtain ⟨hrow, rfl⟩ := ih ho
      exact ⟨.cons hw hrow, List.flatMap_cons.symm⟩
  · rintro ⟨hr, rfl⟩
    exact hr.readAll_eq index

theorem Row.append {offset : Nat} {records others : List Record} (h : Row offset records)
    (ho : Row (offset + (records.flatMap toBytes).length) others) :
    Row offset (records ++ others) := by
  induction h with
  | nil offset => exact ho
  | cons hw hr ih =>
    refine .cons hw (ih ?_)
    rw [List.flatMap_cons, List.length_append, ← Nat.add_assoc, ← hw.stop_eq] at ho
    exact ho

theorem Row.wellFormed {offset : Nat} {records : List Record} (h : Row offset records) :
    ∀ record ∈ records, record.WellFormed := by
  induction h with
  | nil offset => simp
  | cons hw hr ih => exact List.forall_mem_cons.mpr ⟨hw, ih⟩

/-- Every record takes two bytes at least. -/
theorem two_mul_length_le (records : List Record) :
    2 * records.length ≤ (records.flatMap toBytes).length := by
  induction records with
  | nil => simp
  | cons record records ih =>
    simp only [List.flatMap_cons, List.length_append, toBytes, List.length_cons]
    omega

end Record

namespace Code

/-- Alignments are zero and the powers of two up to the largest of them. -/
theorem isAlignment_iff {alignment : Nat} :
    isAlignment alignment = true ↔
      alignment = 0 ∨ alignment.isPowerOfTwo ∧ alignment ≤ maxAlignment := by
  by_cases h : alignment ≤ maxAlignment
  · revert alignment
    decide
  · have hm : maxAlignment % alignment = maxAlignment := Nat.mod_eq_of_lt (Nat.lt_of_not_le h)
    have hp : maxAlignment ≠ 0 := by decide
    have hz : alignment ≠ 0 := by omega
    simp [isAlignment, h, hm, hz, hp]

theorem le_of_isAlignment {alignment : Nat} (h : isAlignment alignment = true) :
    alignment ≤ maxAlignment := by
  rcases isAlignment_iff.mp h with rfl | ⟨-, hle⟩
  · exact Nat.zero_le _
  · exact hle

end Code

namespace Record

/-! ### Laying records out -/

/-- The record from `offset` on, with zeros for the filler that puts its payload on `alignment`. -/
def relay (alignment offset : Nat) (record : Record) : Record :=
  { record with offset, filler := List.replicate (Code.paddingFor alignment offset) 0 }

/-- A row of records laid out from `offset` on. -/
def relayAll (alignment : Nat) : Nat → List Record → List Record
  | _, [] => []
  | offset, record :: rest =>
    record.relay alignment offset ::
      relayAll alignment (record.relay alignment offset).stop rest

theorem toBytes_relay (alignment offset : Nat) (record : Record) :
    (record.relay alignment offset).toBytes =
      Code.lay alignment offset record.opcode record.body := by
  simp only [toBytes, padding, relay, List.length_replicate]
  rfl

@[simp] theorem instruction_relay (alignment offset : Nat) (record : Record) :
    (record.relay alignment offset).instruction = record.instruction := rfl

theorem map_instruction_relayAll (alignment offset : Nat) (records : List Record) :
    (relayAll alignment offset records).map instruction = records.map instruction := by
  induction records generalizing offset with
  | nil => rfl
  | cons record records ih => simp only [relayAll, List.map_cons, instruction_relay, ih]

private theorem paddingFor_lt {alignment : Nat} (h : Code.isAlignment alignment = true)
    (offset : Nat) :
    Code.paddingFor alignment offset < UInt8.size := by
  unfold Code.paddingFor
  split
  · decide
  · next hz =>
    have hle : alignment ≤ Code.maxAlignment := Code.le_of_isAlignment h
    have hlt := Nat.mod_lt (alignment - (offset + headerSize) % alignment) (Nat.pos_of_ne_zero hz)
    exact Nat.lt_trans (Nat.lt_of_lt_of_le hlt hle) (by decide)

theorem WellFormed.relay {record : Record} (h : record.WellFormed) {alignment : Nat}
    (ha : Code.isAlignment alignment = true) (offset : Nat) :
    (record.relay alignment offset).WellFormed where
  padding_lt := by
    simp only [padding, Record.relay, List.length_replicate]
    exact paddingFor_lt ha offset
  length_payload := h.length_payload
  length_operands := h.length_operands

/-- Laid out records form a row of which the buffer holds the bytes. -/
theorem row_relayAll {alignment : Nat} (ha : Code.isAlignment alignment = true) (offset : Nat)
    {records : List Record} (h : ∀ record ∈ records, record.WellFormed) :
    Row offset (relayAll alignment offset records) ∧
      Code.layAll alignment offset records =
        (relayAll alignment offset records).flatMap toBytes := by
  induction records generalizing offset with
  | nil => exact ⟨.nil offset, rfl⟩
  | cons record records ih =>
    obtain ⟨hw, hws⟩ := List.forall_mem_cons.mp h
    have hr := hw.relay ha offset
    obtain ⟨hrow, hbytes⟩ := ih (record.relay alignment offset).stop hws
    refine ⟨.cons hr hrow, ?_⟩
    rw [relayAll, List.flatMap_cons, ← hbytes, hr.stop_eq, toBytes_relay]
    rfl

end Record

namespace Instruction

/-- Only host calls have operands. -/
def Counted (instruction : Instruction) : Prop :=
  instruction.opcode.arity = instruction.operands.length

def record (instruction : Instruction) : Record where
  offset := 0
  opcode := instruction.opcode
  filler := []
  payload := instruction.op.payload
  operands := ⟨instruction.operands.flatMap pack⟩

theorem length_flatMap_pack (operands : List Operand) :
    (operands.flatMap pack).length = operands.length * Packed.size Operand := by
  induction operands with
  | nil => simp
  | cons operand operands ih =>
    rw [List.flatMap_cons, List.length_append, length_pack, ih, List.length_cons, Nat.add_mul,
      Nat.one_mul, Nat.add_comm]

theorem Counted.wellFormed_record {instruction : Instruction} (h : instruction.Counted) :
    instruction.record.WellFormed where
  padding_lt := show 0 < UInt8.size by decide
  length_payload := instruction.op.length_payload instruction.arity
  length_operands := by
    simp only [record]
    rw [length_flatMap_pack, h]

private theorem toList_record (instruction : Instruction) :
    instruction.record.operands.toList = instruction.operands := by
  have hs : instruction.record.operands.size = instruction.operands.length := by
    simp only [OperandArray.size, record, length_flatMap_pack]
    exact Nat.mul_div_cancel _ (by decide)
  have hr := OperandArray.read_flatMap_pack instruction.operands []
  rw [List.append_nil] at hr
  rw [OperandArray.toList, hs]
  exact hr

/-- An instruction is decoded from its record. -/
theorem Counted.instruction_record {instruction : Instruction} (h : instruction.Counted) :
    instruction.record.instruction = .ok instruction := by
  have hop : instruction.record.op = .ok instruction.op := by
    have hp := instruction.op.ofPayload_payload_append instruction.arity []
    rwa [List.append_nil] at hp
  have hl : instruction.operands.length = instruction.record.opcode.arity := h.symm
  simp only [Record.instruction, hop, bind, Except.bind, toList_record]
  rw [dif_pos hl]
  rfl

end Instruction

namespace Code

theorem isAlignment_of_align {code next : Code} {alignment : Nat}
    (h : code.align alignment = .ok next) : isAlignment alignment = true := by
  cases ha : isAlignment alignment with
  | false => simp [align, ha] at h
  | true => rfl

/-- Code whose records can be read can be laid out for any alignment, and its records then decode to
what they decoded to before. -/
theorem align_of_records {code : Code} {alignment : Nat} (ha : isAlignment alignment = true)
    {records : List Record} (hr : code.records = .ok records) :
    ∃ buffer others, code.align alignment = .ok { code with buffer, alignment } ∧
      { code with buffer, alignment }.records = .ok others ∧
      others.map Record.instruction = records.map Record.instruction := by
  by_cases he : alignment = code.alignment
  · subst he
    refine ⟨code.buffer, records, ?_, hr, rfl⟩
    simp only [align, ha, Bool.not_true, Bool.false_eq_true, ↓reduceIte]
    rfl
  · obtain ⟨hrow, -⟩ := Record.readAll_eq_ok_iff.mp hr
    obtain ⟨hlaid, hbytes⟩ := Record.row_relayAll ha 0 hrow.wellFormed
    refine ⟨layAll alignment 0 records, Record.relayAll alignment 0 records, ?_, ?_,
      Record.map_instruction_relayAll alignment 0 records⟩
    · simp [align, ha, he, hr, bind, Except.bind, pure, Except.pure]
    · exact Record.readAll_eq_ok_iff.mpr ⟨hlaid, hbytes⟩

end Code

end RegisterMachine
