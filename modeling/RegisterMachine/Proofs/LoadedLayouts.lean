import RegisterMachine.Proofs.Layouts

/-!
# The layout of what was loaded

An image names in one byte the alignment that its buffer is laid out for, and neither the checksum
nor the checks look at that byte. Loading for another alignment lays the records out again; loading
for the one that is named leaves them where they stand. So the records of loaded code are on its
alignment whenever the image names another one, and otherwise only if they were so in the image.
Images that were saved of code built from nothing name the right alignment.
-/

namespace RegisterMachine

namespace Record

/-- The payload starts on the alignment; where there is none, the record has no filler. -/
def Sits (alignment : Nat) (record : Record) : Prop :=
  (alignment ≠ 0 → alignment ∣ record.payloadOffset) ∧ (alignment = 0 → record.padding = 0)

instance (alignment : Nat) (record : Record) : Decidable (record.Sits alignment) :=
  inferInstanceAs (Decidable (_ ∧ _))

private theorem sits_of_mem_relayAll {alignment offset : Nat} {records : List Record}
    {record : Record} (h : record ∈ relayAll alignment offset records) : record.Sits alignment := by
  obtain ⟨place, start, rfl⟩ := exists_relay_of_mem h
  refine ⟨fun ha => dvd_payloadOffset_relay ha start place, ?_⟩
  rintro rfl
  exact padding_relay_zero start place

end Record

namespace Code

variable {code next : Code} {alignment : Nat} {records : List Record}

private theorem cases_of_align (h : code.align alignment = .ok next) :
    code.alignment = alignment ∧ next = code ∨
      code.alignment ≠ alignment ∧ ∃ records, code.records = .ok records ∧
        next = { code with buffer := layAll alignment 0 records, alignment } := by
  have ha := isAlignment_of_align h
  simp only [align, ha, Bool.not_true, Bool.false_eq_true, ↓reduceIte] at h
  split at h
  · next he =>
    cases h
    exact .inl ⟨he.symm, rfl⟩
  · next he =>
    obtain ⟨records, hr, h⟩ := Outcome.bind_eq_ok.mp h
    cases h
    exact .inr ⟨Ne.symm he, records, hr, rfl⟩

/-- Code that names another alignment is laid out, and code that names this one is left alone. -/
theorem sits_align_iff (hr : code.records = .ok records) (h : code.align alignment = .ok next) :
    next.alignment = alignment ∧ ∃ others, next.records = .ok others ∧
      ((∀ record ∈ others, record.Sits alignment) ↔
        code.alignment ≠ alignment ∨ ∀ record ∈ records, record.Sits alignment) := by
  have ha := isAlignment_of_align h
  rcases cases_of_align h with ⟨he, rfl⟩ | ⟨he, found, hf, rfl⟩
  · refine ⟨he, records, hr, ?_⟩
    simp [he]
  · obtain ⟨hrow, -⟩ := Record.readAll_eq_ok_iff.mp hf
    obtain ⟨hlaid, hbytes⟩ := Record.row_relayAll ha 0 hrow.wellFormed
    refine ⟨rfl, Record.relayAll alignment 0 found, Record.readAll_eq_ok_iff.mpr ⟨hlaid, hbytes⟩, ?_⟩
    exact ⟨fun _ => .inl he, fun _ record hm => Record.sits_of_mem_relayAll hm⟩

end Code

private theorem Image.Spells.getElem?_six {reserved : UInt8} {alignment : Nat} {buffer : List UInt8}
    {entries : List Entry} {bytes : List UInt8} (h : Spells reserved alignment buffer entries bytes) :
    bytes[6]? = some (UInt8.ofNat alignment) := by
  rw [h.eq]
  rfl

namespace Code

variable {bytes : List UInt8} {code : Code} {alignment : Nat}

/-- Code that is loaded for an alignment has it, and its records are on it just when the image names
another alignment in its seventh byte or holds records that are on this one already. -/
theorem sits_loadAligned_iff (h : loadAligned bytes alignment = .ok code) :
    code.alignment = alignment ∧
    ∃ stored written records, load bytes = .ok stored ∧
      bytes[6]? = some (UInt8.ofNat stored.alignment) ∧
      stored.records = .ok written ∧ code.records = .ok records ∧
      ((∀ record ∈ records, record.Sits alignment) ↔
        stored.alignment ≠ alignment ∨ ∀ record ∈ written, record.Sits alignment) := by
  obtain ⟨stored, hl, ha⟩ := Outcome.bind_eq_ok.mp h
  obtain ⟨-, ⟨reserved, hspells⟩, ⟨written, hw, -⟩, -⟩ := Image.load_eq_ok_iff.mp hl
  obtain ⟨halignment, records, hr, hiff⟩ := sits_align_iff hw ha
  exact ⟨halignment, stored, written, records, hl, hspells.getElem?_six, hw, hr, hiff⟩

/-- One image of packed code, which names no alignment, and the same with an eight in that byte. -/
theorem sits_loadAligned_iff_named :
    let rest : List UInt8 := [0, 232, 4, 242, 146, 10, 0, 0, 0, 65, 0, 0, 0, 0, 0, 0, 0, 0, 0,
      0, 0, 0, 0]
    let packed : List UInt8 := [71, 86, 66, 67, 1, 0, 0] ++ rest
    let misnamed : List UInt8 := [71, 86, 66, 67, 1, 0, 8] ++ rest
    (∃ code records, loadAligned packed 8 = .ok code ∧ code.records = .ok records ∧
      ∀ record ∈ records, record.Sits 8) ∧
    ∃ code records, loadAligned misnamed 8 = .ok code ∧ code.records = .ok records ∧
      ¬ ∀ record ∈ records, record.Sits 8 := by
  intro rest packed misnamed
  let buffer : List UInt8 := [65, 0, 0, 0, 0, 0, 0, 0, 0, 0]
  let laid : Code :=
    { buffer := [65, 6, 0, 0, 0, 0, 0, 0, 0, 0, 0, 0, 0, 0, 0, 0], count := 1, alignment := 8 }
  have hpacked : load packed = .ok { buffer, count := 1, alignment := 0 } := by decide +kernel
  have hlaid : loadAligned packed 8 = .ok laid := by decide +kernel
  have hmisnamed : load misnamed = .ok { buffer, count := 1, alignment := 8 } := by decide +kernel
  have hleft : loadAligned misnamed 8 = .ok { buffer, count := 1, alignment := 8 } := by
    decide +kernel
  have hrecords : ({ buffer, count := 1, alignment := 8 } : Code).records =
      .ok [⟨0, .zero, [], List.replicate 8 0, ⟨[]⟩⟩] := by decide +kernel
  constructor
  · obtain ⟨-, stored, written, records, hl, -, -, hr, hiff⟩ := sits_loadAligned_iff hlaid
    cases hl.symm.trans hpacked
    exact ⟨laid, records, hlaid, hr, hiff.mpr (.inl (by decide))⟩
  · obtain ⟨-, stored, written, records, hl, -, hw, hr, hiff⟩ := sits_loadAligned_iff hleft
    cases hl.symm.trans hmisnamed
    cases hw.symm.trans hrecords
    exact ⟨_, records, hleft, hr, mt hiff.mp (by decide)⟩

/-! ### Images of code built from nothing -/

private theorem Lays.coherent {instructions : List Instruction} (h : Lays code instructions) :
    code.Coherent := by
  refine ⟨h.isAlignment, _, instructions, h.records, ?_, h.count.symm, h.opened⟩
  rw [Record.map_instruction_relayAll, List.map_map]
  exact List.map_congr_left fun instruction hi => (h.counted instruction hi).instruction_record

/-- What was built from nothing, saved and loaded for any alignment, is on that alignment. -/
theorem sits_of_loadAligned_save {edits : List Edit}
    (hs : (({} : Code).after edits).save = .ok bytes) (h : loadAligned bytes alignment = .ok code) :
    code.alignment = alignment ∧
      ∃ records, code.records = .ok records ∧ ∀ record ∈ records, record.Sits alignment := by
  obtain ⟨instructions, -, hlays⟩ := lays_after edits
  obtain ⟨loaded, hl, ha⟩ := Outcome.bind_eq_ok.mp h
  obtain ⟨linked, hf⟩ := hlays.coherent.finalize_of_load_save hs hl
  cases hl.symm.trans (hlays.coherent.load_of_save hf hs)
  obtain ⟨halignment, records, hr, hiff⟩ := sits_align_iff hlays.records ha
  refine ⟨halignment, records, hr, hiff.mpr ?_⟩
  by_cases he : (({} : Code).after edits).alignment = alignment
  · rw [he]
    exact .inr fun record hm => Record.sits_of_mem_relayAll hm
  · exact .inl he

end Code

end RegisterMachine
