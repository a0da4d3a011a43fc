import Mathlib.Data.List.Nodup
import RegisterMachine.Code.Listing
import RegisterMachine.Proofs.Legibility
import RegisterMachine.Proofs.Linking
import RegisterMachine.Proofs.Records

/-!
# What a listing tells

The pieces of a line can be told apart from left to right: two numbers behind blanks, a mnemonic
without blanks, and then the fields that the mnemonic calls for, each ended by a character that it
cannot go on with. Two lines with the same text belong to the same instruction at the same place.
-/

namespace RegisterMachine

open Text

/-! ### Operands -/

namespace Element

private theorem toList_text_fixed (index : UInt32) :
    (text (.fixed index)).toList = '[' :: ((toString index.toNat).toList ++ [']']) := by
  simp [text]

private theorem toList_text_indirect (register : UInt16) :
    (text (.indirect register)).toList =
      '[' :: 'R' :: ((toString register.toNat).toList ++ [']']) := by
  simp [text]

/-- An element other than the whole register is set in brackets. -/
theorem eq_whole_of_stops {element : Element} {rest other : List Char} (hr : Stops (· == '[') rest)
    (h : rest = element.text.toList ++ other) : element = .whole := by
  cases element with
  | whole => rfl
  | fixed index =>
    rw [h, toList_text_fixed] at hr
    cases hr
  | indirect register =>
    rw [h, toList_text_indirect] at hr
    cases hr

private theorem fixed_ne_indirect (index : UInt32) (register : UInt16) (rest other : List Char) :
    (text (.fixed index)).toList ++ rest ≠ (text (.indirect register)).toList ++ other := by
  intro h
  simp only [toList_text_fixed, toList_text_indirect, List.cons_append, List.append_assoc,
    List.cons.injEq, true_and] at h
  exact numeral_append_ne_cons rfl _ _ h

private theorem legible_text : Legible (· == '[') text := by
  intro a b rest other h hr ho
  cases a with
  | whole =>
    obtain rfl := eq_whole_of_stops hr h
    exact ⟨rfl, h⟩
  | fixed index =>
    cases b with
    | whole => cases eq_whole_of_stops ho h.symm
    | fixed place =>
      simp only [toList_text_fixed, List.cons_append, List.append_assoc, List.cons.injEq,
        true_and] at h
      obtain ⟨hn, hrest⟩ := legible_numeral h rfl rfl
      exact ⟨by rw [UInt32.toNat_inj.mp hn], (List.cons.inj hrest).2⟩
    | indirect register => exact absurd h (fixed_ne_indirect _ _ _ _)
  | indirect register =>
    cases b with
    | whole => cases eq_whole_of_stops ho h.symm
    | fixed index => exact absurd h.symm (fixed_ne_indirect _ _ _ _)
    | indirect place =>
      simp only [toList_text_indirect, List.cons_append, List.append_assoc, List.cons.injEq,
        true_and] at h
      obtain ⟨hn, hrest⟩ := legible_numeral h rfl rfl
      exact ⟨by rw [UInt16.toNat_inj.mp hn], (List.cons.inj hrest).2⟩

end Element

namespace Operand

/-- What the text of an operand can go on with. -/
def goesOn (c : Char) : Bool := c.isDigit || c == '['

private theorem toList_text (operand : Operand) :
    operand.text.toList = operand.bank.letter ::
      ((toString operand.register.toNat).toList ++ operand.element.text.toList) := by
  simp [text]

private theorem stops_of_goesOn {rest : List Char} (h : Stops goesOn rest) :
    Stops Char.isDigit rest ∧ Stops (· == '[') rest := by
  cases rest with
  | nil => exact ⟨trivial, trivial⟩
  | cons c rest => exact Bool.or_eq_false_iff.mp h

private theorem stops_element {element : Element} {rest : List Char} (h : Stops Char.isDigit rest) :
    Stops Char.isDigit (element.text.toList ++ rest) := by
  cases element with
  | whole => exact h
  | fixed index =>
    rw [Element.toList_text_fixed]
    rfl
  | indirect register =>
    rw [Element.toList_text_indirect]
    rfl

private theorem legible_text : Legible goesOn text := by
  rintro ⟨bank, register, element⟩ ⟨bank', register', element'⟩ rest other h hr ho
  obtain ⟨hdigit, hbracket⟩ := stops_of_goesOn hr
  obtain ⟨hdigit', hbracket'⟩ := stops_of_goesOn ho
  simp only [toList_text, List.cons_append, List.append_assoc, List.cons.injEq] at h
  obtain ⟨hletter, h⟩ := h
  obtain ⟨hn, h⟩ := legible_numeral h (stops_element hdigit) (stops_element hdigit')
  obtain ⟨rfl, hrest⟩ := Element.legible_text h hbracket hbracket'
  have hbank : bank = bank' := by
    have hsome := Bank.ofLetter?_letter bank
    rw [hletter, Bank.ofLetter?_letter] at hsome
    exact (Option.some.inj hsome).symm
  exact ⟨by rw [hbank, UInt16.toNat_inj.mp hn], hrest⟩

/-- Operands in a row of known length, with commas between them. -/
theorem legible_row {operands others : List Operand} (hlength : operands.length = others.length)
    {rest other : List Char}
    (h : (", ".intercalate (operands.map text)).toList ++ rest =
      (", ".intercalate (others.map text)).toList ++ other)
    (hr : Stops goesOn rest) (ho : Stops goesOn other) : operands = others := by
  simp only [String.toList_intercalate, List.map_map, Function.comp_def] at h
  induction operands generalizing others with
  | nil =>
    cases others with
    | nil => rfl
    | cons operand' others => cases hlength
  | cons operand operands ih =>
    cases others with
    | nil => cases hlength
    | cons operand' others =>
      have hlen : operands.length = others.length := Nat.succ.inj hlength
      -- The last operand is ended by what stands behind the row, every other one by a comma.
      cases operands with
      | nil =>
        obtain rfl : others = [] := List.length_eq_zero_iff.mp hlen.symm
        simp only [List.map_cons, List.map_nil, List.intercalate_singleton] at h
        obtain ⟨rfl, -⟩ := legible_text h hr ho
        rfl
      | cons second operands =>
        cases others with
        | nil => cases hlen
        | cons second' others =>
          simp only [List.map_cons, List.intercalate_cons_cons, List.append_assoc] at h
          obtain ⟨rfl, hrest⟩ := legible_text h rfl rfl
          rw [ih hlen (List.append_cancel_left hrest)]

end Operand

/-! ### Operations -/

namespace Op

/-- An operation is decoded only behind its own opcode. -/
theorem opcode_of_ofPayload {opcode : Opcode} {bytes : List UInt8} {op : Op}
    (h : ofPayload opcode bytes = .ok op) :
    op.opcode ⟨opcode.arity, Nat.lt_succ_of_le opcode.arity_le⟩ = opcode := by
  cases opcode with
  | exit | endBlock =>
    cases h
    rfl
  | _ =>
    obtain ⟨payload, -, rfl⟩ := Outcome.map_eq_ok.mp h
    rfl

private theorem transfer_of_text {transfer other : Transfer}
    (h : (copy transfer).text = (copy other).text) : transfer = other := by
  obtain ⟨source, target⟩ := transfer
  obtain ⟨source', target'⟩ := other
  simp only [text, ← String.toList_inj, String.toList_append, List.append_assoc] at h
  obtain ⟨hsource, htarget⟩ := Operand.legible_text.peel h rfl
  rw [hsource, Operand.legible_text.injective (String.toList_inj.mp htarget)]

private theorem loop_of_text {loop other : Loop}
    (h : (beginBlock loop).text = (beginBlock other).text) : loop = other := by
  obtain ⟨count, index⟩ := loop
  obtain ⟨count', index'⟩ := other
  simp only [text, ← String.toList_inj, String.toList_append, List.append_assoc,
    List.append_cancel_left_eq] at h
  obtain ⟨hcount, hindex⟩ := Operand.legible_text.peel h rfl
  rw [hcount, Operand.legible_text.injective (String.toList_inj.mp hindex)]

private theorem comparison_of_text {comparison other : Comparison}
    (h : (equals comparison).text = (equals other).text) : comparison = other := by
  obtain ⟨left, right, result⟩ := comparison
  obtain ⟨left', right', result'⟩ := other
  simp only [text, ← String.toList_inj, String.toList_append, List.append_assoc] at h
  obtain ⟨hleft, hbehind⟩ := Operand.legible_text.peel h rfl
  obtain ⟨hright, hresult⟩ := Operand.legible_text.peel hbehind rfl
  rw [hleft, hright, Operand.legible_text.injective (String.toList_inj.mp hresult)]

private theorem branch_of_text {direction : Direction} {branch other : Branch}
    (h : (jumpIf direction branch).text = (jumpIf direction other).text) : branch = other := by
  obtain ⟨target, polarity, condition⟩ := branch
  obtain ⟨target', polarity', condition'⟩ := other
  simp only [text, ← String.toList_inj, String.toList_append, List.append_assoc,
    List.append_cancel_left_eq] at h
  obtain ⟨htarget, hbehind⟩ := legible_numeral.peel h rfl
  obtain ⟨hcondition, hword⟩ := Operand.legible_text.peel hbehind rfl
  have hpolarity : polarity = polarity' := by
    cases polarity <;> cases polarity' <;> simp at hword ⊢
  rw [UInt32.toNat_inj.mp htarget, hpolarity, hcondition]

private theorem retyping_of_text {retyping other : Retyping}
    (h : (changeType retyping).text = (changeType other).text) : retyping = other := by
  obtain ⟨arg, typeTag, elementSize, elementCount, sliceCount⟩ := retyping
  obtain ⟨arg', typeTag', elementSize', elementCount', sliceCount'⟩ := other
  simp only [text, ← String.toList_inj, String.toList_append, List.append_assoc] at h
  obtain ⟨harg, hlayout⟩ := Operand.legible_text.peel h rfl
  obtain ⟨htag, hshape⟩ := legible_numeral.peel hlayout rfl
  obtain ⟨hsize, hcounts⟩ := legible_numeral.peel hshape rfl
  obtain ⟨hcount, hlast⟩ := legible_numeral.peel hcounts rfl
  have hslices := numeral_injective hlast
  rw [harg, UInt32.toNat_inj.mp htag, UInt32.toNat_inj.mp hsize, UInt32.toNat_inj.mp hcount,
    UInt32.toNat_inj.mp hslices]

/-- Under one mnemonic, the fields of an operation can be told from its text. -/
theorem text_injective {op other : Op} {arity : Fin (maxOperands + 1)}
    (hopcode : op.opcode arity = other.opcode arity) (h : op.text = other.text) : op = other := by
  cases op with
  | execute function =>
    cases other <;> cases hopcode
    simp only [text, ← String.toList_inj, String.toList_append, List.append_cancel_left_eq] at h
    rw [UInt32.toNat_inj.mp (numeral_injective h)]
  | zero arg | setFalse arg | setTrue arg | increment arg | decrement arg =>
    cases other <;> cases hopcode
    rw [Operand.legible_text.injective h]
  | copy transfer =>
    cases other <;> cases hopcode
    rw [transfer_of_text h]
  | equals comparison | notEquals comparison =>
    cases other <;> cases hopcode
    rw [comparison_of_text h]
  | jump direction target =>
    cases other <;> cases hopcode
    simp only [text, ← String.toList_inj, String.toList_append, List.append_cancel_left_eq] at h
    rw [UInt32.toNat_inj.mp (numeral_injective h)]
  | jumpIf direction branch =>
    cases other <;> cases hopcode
    rw [branch_of_text h]
  | changeType retyping =>
    cases other <;> cases hopcode
    rw [retyping_of_text h]
  | exit | endBlock =>
    cases other <;> cases hopcode
    rfl
  | beginBlock loop =>
    cases other <;> cases hopcode
    rw [loop_of_text h]

end Op

namespace Opcode

private theorem mem_fixed_or_execute (opcode : Opcode) :
    opcode ∈ fixed ∨ ∃ arity, opcode = .execute arity := by
  cases opcode with
  | execute arity => exact .inr ⟨arity, rfl⟩
  | jump direction => cases direction <;> exact .inl (by decide)
  | jumpIf direction => cases direction <;> exact .inl (by decide)
  | _ => exact .inl (by decide)

private theorem toList_text_execute (arity : Fin (maxOperands + 1)) :
    (text (.execute arity)).toList = "EXECUTE_".toList ++ (toString arity.val).toList := by
  rw [text, String.toList_append]

theorem text_injective : Function.Injective text := by
  intro opcode other h
  have hmnemonic : ∀ opcode ∈ fixed, ¬ "EXECUTE_".toList <+: opcode.text.toList := by decide
  rcases opcode.mem_fixed_or_execute with hf | ⟨arity, rfl⟩
  · rcases other.mem_fixed_or_execute with ho | ⟨arity, rfl⟩
    · have hnodup : (fixed.map text).Nodup := by decide
      exact List.inj_on_of_nodup_map hnodup hf ho h
    · refine absurd ?_ (hmnemonic opcode hf)
      rw [h, toList_text_execute]
      exact List.prefix_append _ _
  · rcases other.mem_fixed_or_execute with ho | ⟨arity', rfl⟩
    · refine absurd ?_ (hmnemonic other ho)
      rw [← h, toList_text_execute]
      exact List.prefix_append _ _
    · rw [← String.toList_inj, toList_text_execute, toList_text_execute,
        List.append_cancel_left_eq] at h
      rw [Fin.ext (numeral_injective h)]

private theorem no_blank_in_text (opcode : Opcode) : opcode.text.toList.all (· != ' ') = true := by
  rcases opcode.mem_fixed_or_execute with hf | ⟨arity, rfl⟩
  · have hall : fixed.all (fun opcode => opcode.text.toList.all (· != ' ')) = true := by decide
    exact List.all_eq_true.mp hall opcode hf
  · rw [toList_text_execute, List.all_append, Bool.and_eq_true]
    refine ⟨rfl, List.all_eq_true.mpr ?_⟩
    intro c hc
    rw [bne_iff_ne]
    rintro rfl
    cases isDigit_of_mem_numeral hc

/-- A mnemonic goes up to the next blank. -/
theorem legible_text : Legible (· != ' ') text := by
  intro opcode other rest more h hr hm
  obtain ⟨htext, hrest⟩ := append_inj_of_stops (List.all_eq_true.mp opcode.no_blank_in_text)
    (List.all_eq_true.mp other.no_blank_in_text) hr hm h
  exact ⟨text_injective (String.toList_inj.mp htext), hrest⟩

end Opcode

/-! ### Lines -/

namespace Instruction

def details (instruction : Instruction) : String :=
  match instruction.op with
  | .execute function =>
    " " ++ (Op.execute function).text ++
      "(" ++ ", ".intercalate (instruction.operands.map Operand.text) ++ ")"
  | .exit | .endBlock => ""
  | op => " " ++ op.text

private theorem details_of_record {record : Record} {instruction : Instruction}
    (h : record.instruction = .ok instruction) : Listing.details record = instruction.details := by
  obtain ⟨hop, hoperands, -⟩ := Record.instruction_eq_ok h
  rw [Listing.details, details, hop, hoperands]
  cases instruction.op <;> rfl

/-- A record decodes to an instruction with its own opcode, and only host calls have operands. -/
theorem opcode_of_record {record : Record} {instruction : Instruction}
    (h : record.instruction = .ok instruction) :
    instruction.opcode = record.opcode ∧ instruction.Counted := by
  obtain ⟨hop, -, hlength⟩ := Record.instruction_eq_ok h
  have harity : instruction.arity =
      ⟨record.opcode.arity, Nat.lt_succ_of_le record.opcode.arity_le⟩ := Fin.ext hlength
  have hopcode : instruction.opcode = record.opcode := by
    rw [Instruction.opcode, harity]
    exact Op.opcode_of_ofPayload hop
  exact ⟨hopcode, by rw [Counted, hopcode, hlength]⟩

/-- The details, where there are any, are set off by a blank. -/
theorem stops_details (instruction : Instruction) :
    Stops (· != ' ') instruction.details.toList := by
  unfold details
  cases instruction.op with
  | execute function =>
    simp only [String.toList_append, List.append_assoc]
    exact stops_of_breaks rfl _
  | exit | endBlock => exact stops_nil _
  | _ =>
    rw [String.toList_append]
    exact stops_of_breaks rfl _

private theorem op_of_details {first second : Instruction} {arity : Fin (maxOperands + 1)}
    (hopcode : first.op.opcode arity = second.op.opcode arity)
    (h : first.details = second.details) : first.op = second.op := by
  obtain ⟨op, operands, bounded⟩ := first
  obtain ⟨op', operands', bounded'⟩ := second
  cases op with
  | execute function =>
    cases op' <;> cases hopcode
    simp only [details, Op.text, ← String.toList_inj, String.toList_append, List.append_assoc,
      List.append_cancel_left_eq] at h
    obtain ⟨hfunction, -⟩ := legible_numeral.peel h rfl
    rw [UInt32.toNat_inj.mp hfunction]
  | exit | endBlock =>
    cases op' <;> cases hopcode
    rfl
  | _ =>
    apply Op.text_injective hopcode
    cases op' <;> cases hopcode
    simpa only [details, ← String.toList_inj, String.toList_append,
      List.append_cancel_left_eq] using h

private theorem operands_of_details {first second : Instruction} (hf : first.Counted)
    (hop : first.op = second.op) (hlength : first.operands.length = second.operands.length)
    (h : first.details = second.details) : first.operands = second.operands := by
  cases hfirst : first.op with
  | execute function =>
    have hsecond := hop.symm.trans hfirst
    simp only [details, hfirst, hsecond, ← String.toList_inj, String.toList_append,
      List.append_assoc, List.append_cancel_left_eq] at h
    exact Operand.legible_row hlength h rfl rfl
  | _ =>
    have hnone : first.operands.length = 0 := by
      rw [← hf, Instruction.opcode, hfirst]
      rfl
    rw [List.length_eq_zero_iff.mp hnone, List.length_eq_zero_iff.mp (hlength.symm.trans hnone)]

/-- Under one mnemonic, an instruction can be told from its details. -/
theorem eq_of_details {first second : Instruction} (hf : first.Counted) (hs : second.Counted)
    (hopcode : first.opcode = second.opcode) (h : first.details = second.details) :
    first = second := by
  have hlength : first.operands.length = second.operands.length := by
    rw [← hf, ← hs, hopcode]
  have harity : second.arity = first.arity := Fin.ext hlength.symm
  have hop : first.op = second.op := by
    rw [Instruction.opcode, Instruction.opcode, harity] at hopcode
    exact op_of_details hopcode h
  have hoperands := operands_of_details hf hop hlength h
  obtain ⟨op, operands, bounded⟩ := first
  obtain ⟨op', operands', bounded'⟩ := second
  cases hop
  cases hoperands
  rfl

end Instruction

namespace Listing

private theorem eq_of_lineText {index place : Nat} {record other : Record}
    {first second : Instruction} (hf : record.instruction = .ok first)
    (hs : other.instruction = .ok second) (h : lineText index record = lineText place other) :
    index = place ∧ record.offset = other.offset ∧ record.opcode = other.opcode ∧
      first = second := by
  obtain ⟨hopcode, hcounted⟩ := Instruction.opcode_of_record hf
  obtain ⟨hopcode', hcounted'⟩ := Instruction.opcode_of_record hs
  simp only [lineText, Instruction.details_of_record hf, Instruction.details_of_record hs,
    ← String.toList_inj, String.toList_append, List.append_assoc] at h
  obtain ⟨hindex, hbehind⟩ := (Column.legible_right 5).peel h rfl
  obtain ⟨hoffset, hname⟩ := (Column.legible_right 6).peel hbehind rfl
  obtain ⟨hrecord, hdetails⟩ :=
    Opcode.legible_text hname first.stops_details second.stops_details
  refine ⟨hindex, hoffset, hrecord, ?_⟩
  apply Instruction.eq_of_details hcounted hcounted'
  · rw [hopcode, hopcode', hrecord]
  · exact String.toList_inj.mp hdetails

/-- The listing of the code has this line for the instruction with this index, of which this is the
record and this what it decodes to. -/
structure Prints (code : Code) (linked : Linked) (index : Nat) (line : String) (record : Record)
    (instruction : Instruction) : Prop where
  line : ∃ listing names, ofCode code = .ok listing ∧ listing.line? index = some (line, names)
  record : linked.records[index]? = some record
  instruction : linked.instructions[index]? = some instruction

private theorem exists_prints {code : Code} {linked : Linked} (h : code.finalize = .ok linked)
    {index : Nat} (hi : index < linked.instructions.size) :
    ∃ record instruction, record.instruction = .ok instruction ∧
      Prints code linked index (lineText index record) record instruction := by
  obtain ⟨-, records, hr, hl⟩ := Code.finalize_eq_ok_iff.mp h
  obtain ⟨hrecords, hdecoded, -⟩ := Code.linkRecords_decodes hl
  have hsize := Code.size_instructions_of_linkRecords hl
  have hlt : index < records.length := hsize ▸ hi
  let listing : Listing := { entries := code.entries, records := records.toArray }
  have hlisting : ofCode code = .ok listing := by
    rw [ofCode, hr]
    rfl
  have hline : listing.line? index =
      some (lineText index records[index], listing.names index) := by
    simp [line?, listing, hlt]
  refine ⟨records[index], linked.instructions[index], ?_, ⟨listing, _, hlisting, hline⟩, ?_, ?_⟩
  · have hget := congrArg (·[index]?) hdecoded
    simpa [hlt, hi] using hget
  · rw [hrecords, List.getElem?_eq_getElem hlt]
  · exact Array.getElem?_eq_getElem hi

/-- In the listing of code that passed the checks every instruction has a line. Two lines with the
same text, of one listing or of two, belong to instructions with the same index, the same offset,
the same opcode, the same fields and the same operands. -/
theorem line_tells_instruction {code other : Code} {linked others : Linked}
    (h : code.finalize = .ok linked) (ho : other.finalize = .ok others) (index place : Nat)
    (hi : index < linked.instructions.size) (hp : place < others.instructions.size) :
    ∃ line text record item instruction found,
      Prints code linked index line record instruction ∧
      Prints other others place text item found ∧
      (line = text → index = place ∧ record.offset = item.offset ∧ record.opcode = item.opcode ∧
        instruction.op = found.op ∧ instruction.operands = found.operands) := by
  obtain ⟨record, instruction, hf, hprints⟩ := exists_prints h hi
  obtain ⟨item, found, hs, hprints'⟩ := exists_prints ho hp
  refine ⟨_, _, record, item, instruction, found, hprints, hprints', ?_⟩
  intro hline
  obtain ⟨hindex, hoffset, hopcode, rfl⟩ := eq_of_lineText hf hs hline
  exact ⟨hindex, hoffset, hopcode, rfl, rfl⟩

/-- The second element of a register, and the one whose index the second register holds. -/
theorem line_tells_instruction_element :
    let operand (element : Element) : Operand := { bank := .literal, register := 1, element }
    let code (element : Element) : Code :=
      { buffer := [65, 0] ++ pack (operand element), count := 1 }
    ∃ listing catalogue line text names labels,
      (ofCode (code (.fixed 2)) = .ok listing ∧ listing.line? 0 = some (line, names)) ∧
      (ofCode (code (.indirect 2)) = .ok catalogue ∧ catalogue.line? 0 = some (text, labels)) ∧
      line ≠ text := by
  intro operand code
  let linked (element : Element) : Linked :=
    { records := [⟨0, .zero, [], pack (operand element), ⟨[]⟩⟩],
      instructions := #[{ op := .zero (operand element) }], blocks := [] }
  have hfixed : (code (.fixed 2)).finalize = .ok (linked (.fixed 2)) := by decide +kernel
  have hindirect : (code (.indirect 2)).finalize = .ok (linked (.indirect 2)) := by decide +kernel
  obtain ⟨line, text, record, item, instruction, found, hprints, hprints', htell⟩ :=
    line_tells_instruction hfixed hindirect 0 0 (by decide) (by decide)
  obtain ⟨⟨listing, names, hlisting, hline⟩, -, hinstruction⟩ := hprints
  obtain ⟨⟨catalogue, labels, hcatalogue, htext⟩, -, hfound⟩ := hprints'
  refine ⟨listing, catalogue, line, text, names, labels, ⟨hlisting, hline⟩, ⟨hcatalogue, htext⟩, ?_⟩
  intro hsame
  obtain ⟨-, -, -, hop, -⟩ := htell hsame
  cases hinstruction
  cases hfound
  cases hop

end Listing

end RegisterMachine
