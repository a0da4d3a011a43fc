import RegisterMachine.Proofs.Directives
import RegisterMachine.Proofs.Images

/-!
# Code as it is built

Code starts empty or as a loaded image, and grows by directives, entries and layouts. Through all of
this its bookkeeping agrees with its buffer: the count and the open blocks are those of the
instructions that the records decode to.
-/

namespace RegisterMachine

namespace Code

/-- Code that can be come by: empty or loaded, then changed by any number of requests. -/
inductive Built : Code → Prop
  | empty : Built {}
  | load {bytes : List UInt8} {code : Code} (h : Code.load bytes = .ok code) : Built code
  | add {code next : Code} {directive : Directive} {offset : Nat} (hb : Built code)
      (h : code.add directive = .ok (offset, next)) : Built next
  | addEntry {code : Code} (hb : Built code) (name : String) (instruction : Nat) :
      Built (code.addEntry name instruction)
  | align {code next : Code} {alignment : Nat} (hb : Built code)
      (h : code.align alignment = .ok next) : Built next

/-- The alignment is one, and the count and the open blocks are those of the instructions in the
buffer. -/
structure Coherent (code : Code) : Prop where
  isAlignment : isAlignment code.alignment = true
  decodes : ∃ (records : List Record) (instructions : List Instruction),
    code.records = .ok records ∧ records.map Record.instruction = instructions.map .ok ∧
      instructions.length = code.count ∧
      openAfterAll 0 (instructions.map Instruction.op) [] = .ok code.openBlocks

private theorem coherent_empty : Coherent {} where
  isAlignment := rfl
  decodes := ⟨[], [], Record.readAll_nil 0 0, rfl, rfl, rfl⟩

private theorem coherent_of_load {bytes : List UInt8} {code : Code} (h : load bytes = .ok code) :
    code.Coherent := by
  obtain ⟨ha, -, ⟨records, hr, hc⟩, linked, hf⟩ := Image.load_eq_ok_iff.mp h
  obtain ⟨hopen, others, ho, hl⟩ := finalize_eq_ok_iff.mp hf
  obtain rfl : records = others := Except.ok.inj (hr.symm.trans ho)
  obtain ⟨-, hm, hall⟩ := linkRecords_decodes hl
  refine ⟨ha, records, linked.instructions.toList, hr, hm, ?_, by rw [hall, hopen]⟩
  rw [Array.length_toList, size_instructions_of_linkRecords hl, hc]

private theorem Coherent.addEntry {code : Code} (h : code.Coherent) (name : String)
    (instruction : Nat) :
    (code.addEntry name instruction).Coherent :=
  ⟨h.isAlignment, h.decodes⟩

/-- An instruction that is emitted is the one that the new last record decodes to. -/
theorem records_emit {code : Code} (ha : isAlignment code.alignment = true) {records : List Record}
    (hr : code.records = .ok records) {instruction : Instruction} (hi : instruction.Counted) :
    (code.emit instruction).records =
      .ok (records ++ [instruction.record.relay code.alignment code.size]) := by
  obtain ⟨hrow, hbytes⟩ := Record.readAll_eq_ok_iff.mp hr
  have hw := hi.wellFormed_record.relay ha code.size
  refine Record.readAll_eq_ok_iff.mpr ⟨hrow.append ?_, ?_⟩
  · rw [← hbytes, Nat.zero_add]
    exact .cons hw (.nil _)
  · rw [List.flatMap_append, List.flatMap_singleton, Record.toBytes_relay, ← hbytes]
    rfl

private theorem Coherent.add {code next : Code} {directive : Directive} {offset : Nat}
    (hc : code.Coherent) (h : code.add directive = .ok (offset, next)) : next.Coherent := by
  obtain ⟨instruction, hi, h⟩ := Outcome.bind_eq_ok.mp h
  obtain ⟨openBlocks, ho, h⟩ := Outcome.bind_eq_ok.mp h
  cases h
  obtain ⟨records, instructions, hr, hm, hn, hopen⟩ := hc.decodes
  have hcounted := Directive.counted hi
  refine ⟨hc.isAlignment, _, instructions ++ [instruction], records_emit hc.isAlignment hr hcounted,
    ?_, ?_, ?_⟩
  · simp only [List.map_append, hm, List.map_cons, List.map_nil, Record.instruction_relay,
      hcounted.instruction_record]
  · simp [emit, hn]
  · rw [List.map_append, openAfterAll_append hopen, List.length_map, hn, Nat.zero_add]
    exact (openAfterAll_singleton _ _ _).trans ho

private theorem Coherent.align {code next : Code} {alignment : Nat} (hc : code.Coherent)
    (h : code.align alignment = .ok next) : next.Coherent := by
  have ha := isAlignment_of_align h
  obtain ⟨records, instructions, hr, hm, hn, hopen⟩ := hc.decodes
  obtain ⟨buffer, others, hal, ho, hi⟩ := align_of_records ha hr
  cases h.symm.trans hal
  exact ⟨ha, others, instructions, ho, hi.trans hm, hn, hopen⟩

/-- However code was built, its bookkeeping agrees with its buffer. -/
theorem Built.coherent {code : Code} (h : Built code) : code.Coherent := by
  induction h with
  | empty => exact coherent_empty
  | load h => exact coherent_of_load h
  | add hb h ih => exact ih.add h
  | addEntry hb name instruction ih => exact ih.addEntry name instruction
  | align hb h ih => exact ih.align h

/-! ### Saving what was built -/

theorem Coherent.load_of_save {code : Code} (hc : code.Coherent) {linked : Linked}
    (hf : code.finalize = .ok linked) {bytes : List UInt8} (hs : code.save = .ok bytes) :
    load bytes = .ok code := by
  obtain ⟨records, instructions, hr, hm, hn, -⟩ := hc.decodes
  have hl : code.count = records.length := by
    rw [← hn]
    simpa using (congrArg List.length hm).symm
  exact Image.load_eq_ok_iff.mpr
    ⟨hc.isAlignment, ⟨0, Image.save_eq_ok_iff.mp hs⟩, ⟨records, hr, hl⟩, linked, hf⟩

/-- Code whose image can be loaded passes the checks itself, since no block of it is open. -/
theorem Coherent.finalize_of_load_save {code loaded : Code} (hc : code.Coherent)
    {bytes : List UInt8} (hs : code.save = .ok bytes) (hl : load bytes = .ok loaded) :
    ∃ linked, code.finalize = .ok linked := by
  obtain ⟨ha, hspelled, -, linked, hf⟩ := Image.load_eq_ok_iff.mp hl
  have hparts := Image.takeParts_eq_ok_iff.mpr
    ⟨rfl, hc.isAlignment, 0, Image.save_eq_ok_iff.mp hs⟩
  have hloaded := Image.takeParts_eq_ok_iff.mpr ⟨rfl, ha, hspelled⟩
  obtain ⟨-, hbuffer, hentries⟩ : code.alignment = loaded.alignment ∧
      code.buffer = loaded.buffer ∧ code.entries = loaded.entries := by
    simpa using hparts.symm.trans hloaded
  obtain ⟨-, records, hr, hlink⟩ := finalize_eq_ok_iff.mp hf
  obtain ⟨-, hdecoded, hclosed⟩ := linkRecords_decodes hlink
  obtain ⟨others, instructions, ho, hm, -, hopen⟩ := hc.decodes
  obtain rfl : records = others := by
    rw [Code.records, ← hbuffer] at hr
    exact Except.ok.inj (hr.symm.trans ho)
  obtain rfl : instructions = linked.instructions.toList :=
    List.map_injective_iff.mpr (fun _ _ => Except.ok.inj) (hm.symm.trans hdecoded)
  have hnone : code.openBlocks = [] := Except.ok.inj (hopen.symm.trans hclosed)
  exact ⟨_, finalize_eq_ok_iff.mpr ⟨hnone, records, ho, linkRecords_congr hentries rfl hlink⟩⟩

/-- In code that passes the checks every entry fits its field once the buffer does. -/
theorem instruction_lt_of_finalize {code : Code} {linked : Linked} (hf : code.finalize = .ok linked)
    (hsize : code.size < UInt32.size) :
    ∀ entry ∈ code.entries, entry.instruction < UInt32.size := by
  obtain ⟨-, records, hr, hlink⟩ := finalize_eq_ok_iff.mp hf
  obtain ⟨-, -, -, hentries, -⟩ := linkRecords_eq_ok_iff.mp hlink
  obtain ⟨-, hbytes⟩ := Record.readAll_eq_ok_iff.mp hr
  have hlen := Record.two_mul_length_le records
  rw [← hbytes] at hlen
  intro entry he
  have hle := hentries entry he
  have hdef : code.size = code.buffer.length := rfl
  omega

/-- Code that was built and saved is loaded as it was when it passes the checks, and is refused when
it does not. Code that passes the checks can be saved unless a length does not fit its field. -/
theorem load_save_of_built {code : Code} (hb : Built code) :
    (∀ bytes, code.save = .ok bytes →
      (∀ linked, code.finalize = .ok linked → load bytes = .ok code) ∧
      (∀ fault, code.finalize = .error fault → ∃ refusal, load bytes = .error refusal)) ∧
    (∀ linked fault, code.finalize = .ok linked → code.save = .error fault →
      (UInt32.size ≤ code.size ∧
        fault = { cause := .truncatedByteCode, note := "BUFFER TOO LARGE" }) ∨
      (UInt32.size ≤ code.entries.length ∧
        fault = { cause := .malformedEntry, note := "TOO MANY ENTRIES" }) ∨
      (∃ entry ∈ code.entries, 65535 < (Image.nameBytes entry.name).length ∧
        fault = { cause := .malformedEntry, note := "NAME TOO LONG" })) := by
  have hc := hb.coherent
  refine ⟨fun bytes hs => ⟨fun linked hf => hc.load_of_save hf hs, ?_⟩, ?_⟩
  · intro fault hf
    cases hl : load bytes with
    | error refusal => exact ⟨refusal, rfl⟩
    | ok loaded =>
      obtain ⟨linked, hok⟩ := hc.finalize_of_load_save hs hl
      cases hf.symm.trans hok
  · intro linked fault hf hs
    rcases Image.save_eq_error hs with h | h | h | ⟨hsize, entry, hm, hindex⟩
    · exact .inl h
    · exact .inr (.inl h)
    · exact .inr (.inr h)
    · exact absurd (instruction_lt_of_finalize hf hsize entry hm) (Nat.not_lt.mpr hindex)

/-- A block that is begun can be saved but not loaded; once it is ended it can be loaded too. -/
theorem load_save_of_built_block :
    let opened : Code :=
      { buffer := [81, 0, 1, 0, 0, 0, 0, 0, 0, 0, 0, 0, 1, 0, 0, 0, 0, 0], count := 1,
        openBlocks := [0] }
    let closed : Code :=
      { buffer := opened.buffer ++ [82, 0], count := 2,
        entries := [{ name := "main", instruction := 0 }] }
    Built opened ∧ Built closed ∧
      (∃ bytes refusal, opened.save = .ok bytes ∧ load bytes = .error refusal) ∧
      ∃ bytes, closed.save = .ok bytes ∧ load bytes = .ok closed := by
  intro opened closed
  have hbegin : ({} : Code).add (.beginBlock { bank := .literal, register := 0 } (.work 1)) =
      .ok (0, opened) := by decide +kernel
  have hend : opened.add .endBlock = .ok (18, { closed with entries := [] }) := by decide +kernel
  have hopened : Built opened := .add .empty hbegin
  have hclosed : Built closed := .addEntry (.add hopened hend) "main" 0
  refine ⟨hopened, hclosed, ?_, ?_⟩
  · have hs : opened.save = .ok ([71, 86, 66, 67, 1, 0, 0, 0, 224, 23, 83, 121, 18, 0, 0, 0] ++
        opened.buffer ++ [0, 0, 0, 0]) := by decide +kernel
    obtain ⟨refusal, hl⟩ := ((load_save_of_built hopened).1 _ hs).2 _ rfl
    exact ⟨_, refusal, hs, hl⟩
  · have hs : closed.save = .ok ([71, 86, 66, 67, 1, 0, 0, 0, 81, 34, 249, 20, 20, 0, 0, 0] ++
        closed.buffer ++ [1, 0, 0, 0, 4, 0, 109, 97, 105, 110, 0, 0, 0, 0]) := by decide +kernel
    obtain ⟨linked, hf⟩ := Outcome.isOk_iff.mp (show closed.finalize.isOk = true by decide +kernel)
    exact ⟨_, hs, ((load_save_of_built hclosed).1 _ hs).1 _ hf⟩

end Code

end RegisterMachine
