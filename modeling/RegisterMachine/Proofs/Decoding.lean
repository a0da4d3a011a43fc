import RegisterMachine.Proofs.Layouts

/-!
# Decoding what was built

Whatever edits code was built by, its records are those of the directives that were carried out, in
order: each decodes to the operation that its directive spells out, and its operands can be walked
through or looked up one by one.
-/

namespace RegisterMachine

namespace OperandArray

private theorem drop_flatMap_pack (operands : List Operand) (index : Nat) :
    (operands.flatMap pack).drop (index * Packed.size Operand) =
      (operands.drop index).flatMap pack := by
  induction index generalizing operands with
  | zero => simp
  | succ index ih =>
    cases operands with
    | nil => simp
    | cons operand operands =>
      rw [List.flatMap_cons, Nat.succ_mul, Nat.add_comm, ← List.drop_drop, drop_pack_append, ih,
        List.drop_succ_cons]

private theorem size_flatMap_pack (operands : List Operand) :
    size ⟨operands.flatMap pack⟩ = operands.length := by
  simp only [size, Instruction.length_flatMap_pack]
  exact Nat.mul_div_cancel _ (by decide)

/-- Looking up packed operands one by one gives the same as listing them. -/
theorem get?_flatMap_pack (operands : List Operand) (index : Nat) :
    get? ⟨operands.flatMap pack⟩ index = operands[index]? := by
  unfold get?
  rw [size_flatMap_pack, drop_flatMap_pack]
  by_cases hlt : index < operands.length
  · have hread : Operand.ofBytes ((operands.drop index).flatMap pack) = .ok operands[index] := by
      rw [List.drop_eq_getElem_cons hlt, List.flatMap_cons]
      exact Operand.ofBytes_toBytes_append _ _
    rw [if_pos hlt, hread, List.getElem?_eq_getElem hlt]
    rfl
  · rw [if_neg hlt, List.getElem?_eq_none (Nat.le_of_not_lt hlt)]

end OperandArray

/-- The record decodes to the operation and the operands that the directive spells out. -/
def Record.Carries (record : Record) (directive : Directive) : Prop :=
  ∃ op operands, directive.Asks (op, operands) ∧ record.op = .ok op ∧
    record.operands.toList = operands ∧ record.operands.size = operands.length ∧
    ∀ index, record.operands.get? index = operands[index]?

private theorem Instruction.Counted.carries {instruction : Instruction} (h : instruction.Counted)
    {directive : Directive} (hd : directive.Asks (instruction.op, instruction.operands))
    (alignment offset : Nat) : (instruction.record.relay alignment offset).Carries directive := by
  obtain ⟨hop, hlist, -⟩ := Record.instruction_eq_ok h.instruction_record
  exact ⟨instruction.op, instruction.operands, hd, hop, hlist,
    OperandArray.size_flatMap_pack _, OperandArray.get?_flatMap_pack _⟩

namespace Code

private theorem carries_relayAll {instructions : List Instruction} {directives : List Directive}
    (hc : ∀ instruction ∈ instructions, instruction.Counted)
    (h : List.Forall₂ Directive.Asks directives
      (instructions.map fun instruction => (instruction.op, instruction.operands)))
    (alignment offset : Nat) :
    List.Forall₂ Record.Carries
      (Record.relayAll alignment offset (instructions.map Instruction.record)) directives := by
  induction instructions generalizing directives offset with
  | nil =>
    cases h
    exact .nil
  | cons instruction instructions ih =>
    obtain ⟨hcounted, hrest⟩ := List.forall_mem_cons.mp hc
    cases h with
    | cons hd hds => exact .cons (hcounted.carries hd alignment offset) (ih hrest hds _)

/-- A directive is told where its record starts, and that record is then the last. -/
theorem Lays.last_of_add {code next : Code} {instructions : List Instruction}
    (h : Lays code instructions) {directive : Directive} {offset : Nat}
    (ha : code.add directive = .ok (offset, next)) :
    ∃ records last, next.records = .ok (records ++ [last]) ∧ last.offset = offset := by
  obtain ⟨instruction, hi, ha⟩ := Outcome.bind_eq_ok.mp ha
  obtain ⟨openBlocks, -, ha⟩ := Outcome.bind_eq_ok.mp ha
  cases ha
  exact ⟨_, _, records_emit h.isAlignment h.records (Directive.counted hi), rfl⟩

/-- Code that any row of edits made of nothing. An edit that is refused changes nothing. The records
can be read, there are as many as the code counts, and they carry the directives that were carried
out, in order. The offset that a directive was told is that of the last record for as long as the
buffer stays as the directive left it. -/
theorem decodes_of_edits (edits : List Edit) :
    let code := ({} : Code).after edits
    (∀ edit fault, (code.respond edit).1 = .refused fault → (code.respond edit).2 = code) ∧
    ∃ records, code.records = .ok records ∧ records.length = code.count ∧
      List.Forall₂ Record.Carries records (({} : Code).carriedOut edits) ∧
      ∀ front directive back offset, edits = front ++ .add directive :: back →
        ((({} : Code).after front).respond (.add directive)).1 = .written offset →
        code.buffer = (({} : Code).after (front ++ [.add directive])).buffer →
        records.getLast?.map Record.offset = some offset := by
  intro code
  obtain ⟨instructions, hasks, hlays⟩ := lays_after edits
  have hcarries := carries_relayAll hlays.counted hasks code.alignment 0
  refine ⟨fun edit fault => respond_refused, _, hlays.records, ?_, hcarries, ?_⟩
  · rw [hcarries.length_eq, hasks.length_eq, List.length_map, hlays.count]
  · intro front directive back offset _ hwritten hbuffer
    obtain ⟨before, -, hbefore⟩ := lays_after front
    obtain ⟨records, last, hrecords, hoffset⟩ := hbefore.last_of_add (add_of_respond_written hwritten)
    rw [after_append] at hbuffer
    have hsame : code.records = .ok (records ++ [last]) := by
      rw [Code.records, hbuffer]
      exact hrecords
    rw [Except.ok.inj (hlays.records.symm.trans hsame)]
    simp [hoffset]

end Code

end RegisterMachine
