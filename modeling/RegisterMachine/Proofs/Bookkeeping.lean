import RegisterMachine.Proofs.Construction

/-!
# Open blocks and what the checks can refuse

A builder keeps a stack of the blocks that it has begun and not ended. `Op.LeavesOpen` says which
blocks these are without any stack, by how balanced stretches of operations follow each other. Since
the two agree for all code that can be built, the checks refuse such code for a block that is left
open, a jump out of the stream or an entry past its end, and for nothing else.
-/

namespace RegisterMachine

namespace Op

/-- Whether an operation begins or ends a block. -/
def isBracket : Op → Bool
  | .beginBlock _ | .endBlock => true
  | _ => false

/-- Operations that end every block they begin, and no other. -/
inductive Balanced : List Op → Prop
  | nil : Balanced []
  | plain {op : Op} {ops : List Op} (h : op.isBracket = false) (hr : Balanced ops) :
      Balanced (op :: ops)
  | block {loop : Loop} {body rest : List Op} (hb : Balanced body) (hr : Balanced rest) :
      Balanced (.beginBlock loop :: (body ++ .endBlock :: rest))

/-- Operations that end every block they begin but those at `starts`, which are given innermost
first, and no other: in front of, between and behind these beginnings all is balanced. -/
inductive LeavesOpen : List Op → List Nat → Prop
  | balanced {ops : List Op} (h : Balanced ops) : LeavesOpen ops []
  | begin {ops inner : List Op} {starts : List Nat} {loop : Loop} (h : LeavesOpen ops starts)
      (hb : Balanced inner) :
      LeavesOpen (ops ++ .beginBlock loop :: inner) (ops.length :: starts)

theorem Balanced.append {ops more : List Op} (h : Balanced ops) (hm : Balanced more) :
    Balanced (ops ++ more) := by
  induction h with
  | nil => exact hm
  | plain hop hr ih => exact .plain hop ih
  | @block loop body rest hb hr ihb ihr =>
    have hblock : Balanced (.beginBlock loop :: (body ++ .endBlock :: (rest ++ more))) :=
      .block hb ihr
    simpa using hblock

theorem LeavesOpen.append {ops more : List Op} {starts : List Nat} (h : LeavesOpen ops starts)
    (hm : Balanced more) : LeavesOpen (ops ++ more) starts := by
  cases h with
  | balanced hb => exact .balanced (hb.append hm)
  | @begin ops inner starts loop h hb =>
    have hbegin : LeavesOpen (ops ++ .beginBlock loop :: (inner ++ more)) (ops.length :: starts) :=
      .begin h (hb.append hm)
    simpa using hbegin

end Op

namespace Code

open Op

private theorem openAfter_of_plain {op : Op} (h : op.isBracket = false) (index : Nat)
    (opened : List Nat) :
    openAfter index op opened = .ok opened := by
  cases op with
  | beginBlock loop => cases h
  | endBlock => cases h
  | _ => rfl

private theorem openAfterAll_balanced {ops : List Op} (h : Balanced ops) (index : Nat)
    (opened : List Nat) : openAfterAll index ops opened = .ok opened := by
  induction h generalizing index opened with
  | nil => rfl
  | plain hop hr ih =>
    rw [openAfterAll, openAfter_of_plain hop]
    exact ih (index + 1) opened
  | @block loop body rest hb hr ihb ihr =>
    have hbody := ihb (index + 1) (index :: opened)
    change openAfterAll (index + 1) (body ++ .endBlock :: rest) (index :: opened) = .ok opened
    rw [openAfterAll_append hbody]
    exact ihr (index + 1 + body.length + 1) opened

theorem leavesOpen_concat {ops : List Op} {op : Op} {opened next : List Nat}
    (h : LeavesOpen ops opened) (ho : openAfter ops.length op opened = .ok next) :
    LeavesOpen (ops ++ [op]) next := by
  cases op with
  | beginBlock loop =>
    cases ho
    exact .begin h .nil
  | endBlock =>
    cases h with
    | balanced hb => cases ho
    | @begin ops inner starts loop h hb =>
      -- The block that ends here is balanced as a whole, so it joins the stretch in front of it.
      cases ho
      have hblock : Balanced (.beginBlock loop :: (inner ++ .endBlock :: [])) := .block hb .nil
      simpa using h.append hblock
  | _ =>
    cases ho
    exact h.append (.plain rfl .nil)

private theorem leavesOpen_append {front ops : List Op} {opened next : List Nat}
    (h : LeavesOpen front opened) (ho : openAfterAll front.length ops opened = .ok next) :
    LeavesOpen (front ++ ops) next := by
  induction ops generalizing front opened with
  | nil =>
    cases ho
    simpa using h
  | cons op ops ih =>
    obtain ⟨mid, hm, hr⟩ := Outcome.bind_eq_ok.mp ho
    have hfront := leavesOpen_concat h hm
    have hlength : front.length + 1 = (front ++ [op]).length := by simp
    rw [hlength] at hr
    simpa using ih hfront hr

/-- The stack that a pass over operations ends with holds just the blocks that they leave open. -/
theorem openAfterAll_eq_ok_iff {ops : List Op} {starts : List Nat} :
    openAfterAll 0 ops [] = .ok starts ↔ LeavesOpen ops starts := by
  constructor
  · intro h
    simpa using leavesOpen_append (.balanced .nil) h
  · intro h
    induction h with
    | balanced hb => exact openAfterAll_balanced hb 0 []
    | @begin ops inner starts loop h hb ih =>
      rw [openAfterAll_append ih, Nat.zero_add]
      exact openAfterAll_balanced hb (ops.length + 1) (ops.length :: starts)

end Code

/-! ### Refusals -/

namespace Linked.Scan

/-- A pass over records that decode, and that close no block which is not open, is refused only at a
jump that leaves the stream. -/
theorem foldlM_step_eq_error {count : Nat} {scan : Scan} {records : List Record}
    {instructions : List Instruction} {opened : List Nat}
    (hm : records.map Record.instruction = instructions.map .ok)
    (ho : Code.openAfterAll scan.instructions.size (instructions.map Instruction.op) scan.opened =
      .ok opened)
    {fault : Fault} (h : records.foldlM (step count) scan = .error fault) :
    ∃ index instruction, (scan.instructions.toList ++ instructions)[index]? = some instruction ∧
      jumpStays count index instruction.op = false ∧
      fault = { cause := .invalidJumpTarget, instruction := some index } := by
  induction records generalizing scan instructions with
  | nil => cases h
  | cons record records ih =>
    cases instructions with
    | nil => cases hm
    | cons instruction instructions =>
      obtain ⟨hi, hm⟩ := List.cons.inj hm
      obtain ⟨mid, hmid, hrest⟩ := Outcome.bind_eq_ok.mp ho
      cases hj : jumpStays count scan.instructions.size instruction.op with
      | false =>
        have hstep : scan.step count record =
            .error { cause := .invalidJumpTarget, instruction := some scan.instructions.size } := by
          simp only [step, hi, hj, Except.mapError, bind, Except.bind, Bool.not_false, ↓reduceIte]
        rw [List.foldlM_cons, hstep] at h
        cases h
        exact ⟨scan.instructions.size, instruction, by simp, hj, rfl⟩
      | true =>
        have hstep := step_eq_ok_iff.mpr ⟨instruction, mid, hi, hj, hmid, rfl⟩
        rw [List.foldlM_cons, hstep] at h
        rw [← Array.size_push instruction] at hrest
        obtain ⟨index, found, hget, hleaves, hfault⟩ := ih hm hrest h
        exact ⟨index, found, by simpa using hget, hleaves, hfault⟩

end Linked.Scan

namespace Code

open Op

/-- Once no block is open, code whose records decode is refused for a jump or for an entry. -/
theorem finalize_eq_error_of_closed {code : Code} {records : List Record}
    {instructions : List Instruction} (hr : code.records = .ok records)
    (hm : records.map Record.instruction = instructions.map .ok)
    (ho : openAfterAll 0 (instructions.map Instruction.op) [] = .ok [])
    (hopen : code.openBlocks = []) {fault : Fault} (h : code.finalize = .error fault) :
    (∃ index op, (instructions.map Instruction.op)[index]? = some op ∧
        Linked.jumpStays records.length index op = false ∧
        fault = { cause := .invalidJumpTarget, instruction := some index }) ∨
      ∃ entry ∈ code.entries, records.length < entry.instruction ∧
        fault = { cause := .malformedEntry, note := "ENTRY PAST END OF STREAM" } := by
  have hlink : code.linkRecords records = .error fault := by
    simp only [finalize, hopen, link, hr] at h
    exact h
  rcases Outcome.bind_eq_error.mp hlink with h | ⟨scan, hs, h⟩
  · have hscan : openAfterAll ({} : Linked.Scan).instructions.size
        (instructions.map Instruction.op) [] = .ok [] := ho
    obtain ⟨index, instruction, hget, hleaves, hfault⟩ :=
      Linked.Scan.foldlM_step_eq_error hm hscan h
    refine .inl ⟨index, instruction.op, ?_, hleaves, hfault⟩
    simp only [List.nil_append] at hget
    simp [hget]
  · -- The pass went through, so it found the same blocks open, that is none.
    obtain ⟨others, hothers, -, hscan⟩ := Linked.Scan.foldlM_step_decodes hs
    obtain rfl : instructions = others :=
      List.map_injective_iff.mpr (fun _ _ => Except.ok.inj) (hm.symm.trans hothers)
    have hnone : scan.opened = [] := Except.ok.inj (hscan.symm.trans ho)
    simp only [hnone] at h
    split at h
    · next hany =>
      cases h
      obtain ⟨entry, hmem, hlt⟩ := List.any_eq_true.mp hany
      exact .inr ⟨entry, hmem, of_decide_eq_true hlt, rfl⟩
    · cases h

theorem decoded_of_instructions {records : List Record} {instructions : List Instruction}
    (hm : records.map Record.instruction = instructions.map .ok) :
    records.map Record.op = (instructions.map Instruction.op).map .ok ∧
      ∀ record ∈ records, record.operands.toList.length = record.opcode.arity := by
  induction records generalizing instructions with
  | nil =>
    cases instructions with
    | nil => simp
    | cons instruction instructions => cases hm
  | cons record records ih =>
    cases instructions with
    | nil => cases hm
    | cons instruction instructions =>
      obtain ⟨hi, hm⟩ := List.cons.inj hm
      obtain ⟨hop, hoperands, hlength⟩ := Record.instruction_eq_ok hi
      obtain ⟨hops, hlengths⟩ := ih hm
      refine ⟨?_, List.forall_mem_cons.mpr ⟨?_, hlengths⟩⟩
      · simp only [List.map_cons, hop, hops]
      · rw [hoperands, hlength]

/-- However code was built, its records can be read and are as many as it counts, their payloads and
operands decode, its alignment is one, and the blocks that it holds to be open are those that the
operations leave open. The checks refuse it at the innermost of these; when there is none, they
refuse it only for a jump that leaves the stream or an entry past its end. -/
theorem bookkeeping_of_built {code : Code} (hb : Built code) :
    (code.alignment = 0 ∨ code.alignment.isPowerOfTwo ∧ code.alignment ≤ 128) ∧
    ∃ (records : List Record) (ops : List Op),
      code.records = .ok records ∧ records.length = code.count ∧
      records.map Record.op = ops.map .ok ∧
      (∀ record ∈ records, record.operands.toList.length = record.opcode.arity) ∧
      (∀ starts, LeavesOpen ops starts ↔ starts = code.openBlocks) ∧
      (∀ start outer, code.openBlocks = start :: outer → code.finalize =
        .error { cause := .unbalancedBlock, instruction := some start, note := "BEGIN WITHOUT END" }) ∧
      (code.openBlocks = [] → ∀ fault, code.finalize = .error fault →
        (∃ index op, ops[index]? = some op ∧ Linked.jumpStays code.count index op = false ∧
          fault = { cause := .invalidJumpTarget, instruction := some index }) ∨
        ∃ entry ∈ code.entries, code.count < entry.instruction ∧
          fault = { cause := .malformedEntry, note := "ENTRY PAST END OF STREAM" }) := by
  have hc := hb.coherent
  obtain ⟨records, instructions, hr, hm, hn, hopen⟩ := hc.decodes
  have hlength : records.length = code.count := by
    rw [← hn]
    simpa using congrArg List.length hm
  obtain ⟨hops, hoperands⟩ := decoded_of_instructions hm
  refine ⟨isAlignment_iff.mp hc.isAlignment, records, instructions.map Instruction.op, hr, hlength,
    hops, hoperands, ?_, ?_, ?_⟩
  · intro starts
    rw [← openAfterAll_eq_ok_iff, hopen, Except.ok.injEq, eq_comm]
  · intro start outer hstart
    simp only [finalize, hstart]
  · intro hnone fault hf
    rw [hnone] at hopen
    rw [← hlength]
    exact finalize_eq_error_of_closed hr hm hopen hnone hf

/-- A block that was loaded, and behind it one that stays open around one that does not. -/
theorem bookkeeping_of_built_reopened :
    let begins : List UInt8 := [81, 0, 1, 0, 0, 0, 0, 0, 0, 0, 0, 0, 1, 0, 0, 0, 0, 0]
    let loaded : Code :=
      { buffer := begins ++ [82, 0], count := 2, entries := [{ name := "main", instruction := 0 }] }
    let code : Code :=
      { loaded with
        buffer := loaded.buffer ++ begins ++ begins ++ [82, 0], count := 5, openBlocks := [2] }
    Built loaded ∧ Built code ∧
      (∃ ops, ∀ starts, LeavesOpen ops starts ↔ starts = [2]) ∧ code.finalize =
        .error { cause := .unbalancedBlock, instruction := some 2, note := "BEGIN WITHOUT END" } := by
  intro begins loaded code
  let first : Code :=
    { loaded with buffer := loaded.buffer ++ begins, count := 3, openBlocks := [2] }
  let second : Code :=
    { loaded with buffer := first.buffer ++ begins, count := 4, openBlocks := [3, 2] }
  let directive : Directive := .beginBlock { bank := .literal, register := 0 } (.work 1)
  have hload : load ([71, 86, 66, 67, 1, 0, 0, 0, 81, 34, 249, 20, 20, 0, 0, 0] ++ loaded.buffer ++
      [1, 0, 0, 0, 4, 0, 109, 97, 105, 110, 0, 0, 0, 0]) = .ok loaded := by decide +kernel
  have hfirst : loaded.add directive = .ok (20, first) := by decide +kernel
  have hsecond : first.add directive = .ok (38, second) := by decide +kernel
  have hend : second.add .endBlock = .ok (56, code) := by decide +kernel
  have hb : Built code := .add (.add (.add (.load hload) hfirst) hsecond) hend
  obtain ⟨-, records, ops, -, -, -, -, hopen, hrefused, -⟩ := bookkeeping_of_built hb
  exact ⟨.load hload, hb, ⟨ops, hopen⟩, hrefused 2 [] rfl⟩

end Code

end RegisterMachine
