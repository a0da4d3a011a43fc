import RegisterMachine.Proofs.Linking
import RegisterMachine.Proofs.Runs

/-!
# Code that passed the checks does not go wrong

The checks look at code once, before it runs. They are enough for every run: the cursor stays in the
stream, the frames belong to blocks, and whatever fault a run ends with lies in memory, in the
function table or in the nesting of blocks, never in the format of the code.
-/

namespace RegisterMachine

namespace Program

/-- The instruction with an index begins a block. -/
def Begins (program : Program) (start : Nat) : Prop :=
  ∃ instruction loop, program.instruction? start = some instruction ∧
    instruction.op = .beginBlock loop

variable {program : Program}

private theorem lt_size_of_instruction? {index : Nat} {instruction : Instruction}
    (h : program.instruction? index = some instruction) : index < program.size := by
  obtain ⟨hlt, -⟩ := Array.getElem?_eq_some_iff.mp h
  exact hlt

private theorem Begins.lt_size {start : Nat} (h : program.Begins start) : start < program.size := by
  obtain ⟨instruction, loop, hi, -⟩ := h
  exact lt_size_of_instruction? hi

/-- What the checks have made sure of in a program. -/
structure Sound (program : Program) : Prop where
  linked : program.linked.Sound
  records : program.code.records = .ok program.linked.records
  entries : ∀ name index, program.entry name = .ok index → index ≤ program.size

private theorem sound_of_ofCode {code : Code} (h : ofCode code = .ok program) : program.Sound := by
  obtain ⟨linked, hf, h⟩ := Outcome.bind_eq_ok.mp h
  cases h
  obtain ⟨-, records, hr, hl⟩ := Code.finalize_eq_ok_iff.mp hf
  obtain ⟨hrecords, -, -⟩ := Code.linkRecords_decodes hl
  have hsize := Code.size_instructions_of_linkRecords hl
  obtain ⟨-, -, -, hentries, -⟩ := Code.linkRecords_eq_ok_iff.mp hl
  refine ⟨Code.sound_of_linkRecords hl, by rw [hrecords]; exact hr, ?_⟩
  intro name index he
  unfold entry at he
  split at he
  · next found hfound =>
    cases he
    obtain ⟨entry, hmem, rfl⟩ := Option.map_eq_some_iff.mp hfound
    have hle := hentries entry (List.mem_of_find?_eq_some hmem)
    rw [size, hsize]
    exact hle
  · cases he

variable {index : Nat} {instruction : Instruction}

private theorem Sound.jump_le (hs : program.Sound)
    (hi : program.instruction? index = some instruction) {target : Nat}
    (ht : instruction.op.jumpTarget? index = some (some target)) :
    target ≤ program.size := by
  have hstays := hs.linked.jumps index instruction hi
  simp only [Linked.jumpStays, ht, decide_eq_true_eq] at hstays
  exact hstays

private theorem Sound.jump_ne_none (hs : program.Sound)
    (hi : program.instruction? index = some instruction) :
    instruction.op.jumpTarget? index ≠ some none := by
  intro hn
  have hstays := hs.linked.jumps index instruction hi
  simp [Linked.jumpStays, hn] at hstays

private theorem Sound.blockEnd? (hs : program.Sound)
    (hi : program.instruction? index = some instruction) {loop : Loop}
    (hop : instruction.op = .beginBlock loop) :
    ∃ stop, program.blockEnd? index = some stop ∧ stop < program.size :=
  hs.linked.blocks index instruction loop hi hop

end Program

namespace Machine

/-- The state of a machine that runs a sound program. -/
structure Safe (program : Program) (maxDepth : Nat) (machine : Machine) : Prop where
  program_eq : machine.program = program
  limit_eq : machine.frames.limit = maxDepth
  pc_le : machine.pc ≤ program.size
  depth_le : machine.depth ≤ maxDepth
  frames : ∀ frame ∈ machine.frames.toList,
    0 < frame.limit ∧ ∃ start, program.Begins start ∧ frame.bodyStart = start + 1

namespace Safe

variable {program : Program} {maxDepth : Nat} {machine next : Machine} {instruction : Instruction}

private theorem goTo (h : Safe program maxDepth machine) {memory : Registers}
    {trace : Array TraceLine} {pc : Nat} (hpc : pc ≤ program.size) :
    Safe program maxDepth { machine with memory, trace, pc } :=
  ⟨h.program_eq, h.limit_eq, hpc, h.depth_le, h.frames⟩

private theorem push (h : Safe program maxDepth machine) {frame : Frame}
    {frames : BoundedStack Frame} (hpush : machine.frames.push frame = .ok frames)
    (hl : 0 < frame.limit) {start : Nat} (hb : program.Begins start)
    (hs : frame.bodyStart = start + 1) {pc : Nat} (hpc : pc ≤ program.size) :
    Safe program maxDepth { machine with frames, pc } := by
  obtain ⟨hlt, rfl⟩ := BoundedStack.push_eq_ok_iff.mp hpush
  refine ⟨h.program_eq, h.limit_eq, hpc, ?_, ?_⟩
  · have hsize : (machine.frames.items.push frame).size = machine.frames.size + 1 :=
      Array.size_push frame
    have hlimit := h.limit_eq
    simp only [depth, BoundedStack.size] at *
    omega
  · intro other hmem
    simp only [BoundedStack.toList, Array.toList_push, List.mem_append, List.mem_singleton] at hmem
    rcases hmem with hmem | rfl
    · exact h.frames other hmem
    · exact ⟨hl, start, hb, hs⟩

private theorem pop (h : Safe program maxDepth machine) {frame : Frame}
    {frames : BoundedStack Frame} (ht : machine.frames.top? = some frame)
    (hpop : machine.frames.pop = .ok (frame, frames)) {memory : Registers} {pc : Nat}
    (hpc : pc ≤ program.size) :
    Safe program maxDepth { machine with memory, frames, pc } := by
  rw [BoundedStack.pop_of_top ht] at hpop
  cases hpop
  refine ⟨h.program_eq, h.limit_eq, hpc, ?_, ?_⟩
  · have hsize : machine.frames.items.pop.size = machine.frames.items.size - 1 := Array.size_pop
    have hle := h.depth_le
    simp only [depth, BoundedStack.size] at *
    omega
  · intro other hmem
    simp only [BoundedStack.toList, Array.toList_pop] at hmem
    exact h.frames other (List.dropLast_subset _ hmem)

/-- No move leads out of the stream or leaves a frame that belongs to no block. -/
theorem move (hs : program.Sound) (h : Safe program maxDepth machine)
    (hi : machine.program.instruction? machine.pc = some instruction)
    (hm : Move machine instruction.op next) : Safe program maxDepth next := by
  rw [h.program_eq] at hi
  have hlt : machine.pc + 1 ≤ program.size := Program.lt_size_of_instruction? hi
  generalize hop : instruction.op = op at hm
  cases hm with
  | advance hc memory trace => exact h.goTo hlt
  | pass direction branch => exact h.goTo hlt
  | jump ht =>
    rw [← hop] at ht
    exact h.goTo (hs.jump_le hi ht)
  | @skip loop limit stop hl hn hstop =>
    obtain ⟨found, hf, hle⟩ := hs.blockEnd? hi hop
    rw [h.program_eq, hf] at hstop
    cases hstop
    exact h.goTo hle
  | @enter loop limit frames hl hp hpush =>
    exact h.push hpush hp ⟨instruction, loop, hi, hop⟩ rfl hlt
  | @again frame index memory ht hread hwrite hl =>
    obtain ⟨-, start, hb, hstart⟩ := h.frames frame (BoundedStack.mem_of_top ht)
    have hle : frame.bodyStart ≤ program.size := by
      rw [hstart]
      exact hb.lt_size
    exact h.goTo hle
  | leave ht hread hwrite hl hpop => exact h.pop ht hpop hlt

private theorem kept (hs : program.Sound) : Kept (Safe program maxDepth) where
  move _ _ _ hi hm h := h.move hs hi hm
  halt _ _ _ h := ⟨h.program_eq, h.limit_eq, h.pc_le, h.depth_le, h.frames⟩
  interrupted _ _ h := ⟨h.program_eq, h.limit_eq, h.pc_le, h.depth_le, h.frames⟩
  clear _ _ h := ⟨h.program_eq, h.limit_eq, h.pc_le, Nat.zero_le _, nofun⟩

private theorem create (functions : FunctionTable) (memory : Registers) :
    Safe program maxDepth (Machine.create program functions memory maxDepth) where
  program_eq := rfl
  limit_eq := rfl
  pc_le := Nat.zero_le _
  depth_le := Nat.zero_le _
  frames := nofun

private theorem startAt (h : Safe program maxDepth machine) {index : Nat}
    (hle : index ≤ program.size) :
    Safe program maxDepth (machine.startAt index) :=
  ⟨h.program_eq, h.limit_eq, hle, Nat.zero_le _, nofun⟩

private theorem after (hs : program.Sound) (h : Safe program maxDepth machine)
    {operations : List Operation}
    (hindex : ∀ index, .startAt index ∈ operations → index ≤ program.size) :
    Safe program maxDepth (machine.after operations) := by
  apply (kept hs).after _ h
  intro machine operation hmem index h hi
  apply h.startAt
  cases operation with
  | start entry =>
    simp only [starts?, h.program_eq] at hi
    cases he : program.entry entry with
    | error fault => simp [he, Except.toOption] at hi
    | ok found =>
      simp only [he, Except.toOption, Option.some.injEq] at hi
      exact hi ▸ hs.entries entry found he
  | startAt start =>
    cases hi
    exact hindex index hmem
  | interrupt => cases hi
  | execute budget => cases hi

/-- What a safe machine can be refused for. -/
theorem refusal (hs : program.Sound) (h : Safe program maxDepth machine)
    (hi : machine.program.instruction? machine.pc = some instruction) {fault : Fault}
    (hr : Refusal machine instruction.op fault) :
    (fault.inInstruction machine.pc).instruction = some machine.pc ∧
      (fault.cause ∈ [.invalidFunction, .invalidRegister, .readOnlyMemory, .elementOutOfRange,
          .layoutTooLarge, .blockOverflow] ∨
        fault.cause = .unbalancedBlock ∧ instruction.op = .endBlock ∧
          machine.frames.toList = []) := by
  rw [h.program_eq] at hi
  generalize hop : instruction.op = op at hr
  cases hr with
  | memory hf =>
    have hplace : (fault.inInstruction machine.pc).instruction = some machine.pc := by
      simp [Fault.inInstruction, hf.instruction]
    have hcauses : ∀ cause ∈ [Fault.Cause.invalidRegister, .readOnlyMemory, .elementOutOfRange,
        .layoutTooLarge], cause ∈ [.invalidFunction, .invalidRegister, .readOnlyMemory,
        .elementOutOfRange, .layoutTooLarge, .blockOverflow] := by decide
    exact ⟨hplace, .inl (hcauses _ hf.cause)⟩
  | function hn => exact ⟨rfl, .inl List.mem_cons_self⟩
  | jump hn =>
    rw [← hop] at hn
    exact absurd hn (hs.jump_ne_none hi)
  | skip hn =>
    obtain ⟨stop, hstop, -⟩ := hs.blockEnd? hi hop
    rw [h.program_eq, hstop] at hn
    cases hn
  | enter hl => exact ⟨rfl, .inl (by simp)⟩
  | leave ht => exact ⟨rfl, .inr ⟨rfl, rfl, BoundedStack.toList_eq_nil_of_top ht⟩⟩

end Safe

/-- Whatever a host does with a machine that runs code which passed the checks, starting it only
inside the stream: every record decodes to its instruction, the cursor stays in the stream, the
frames are within the limit and belong to blocks, and a slice that faults blames the instruction in
front of which it leaves the machine, and never the format. -/
theorem safe_of_ofCode {code : Code} {program : Program} (hp : Program.ofCode code = .ok program)
    (functions : FunctionTable) (memory : Registers) (maxDepth : Nat) {operations : List Operation}
    (hstart : ∀ index, .startAt index ∈ operations → index ≤ program.size) :
    let machine := (create program functions memory maxDepth).after operations
    program.code.records = .ok program.linked.records ∧
    program.linked.records.map Record.instruction = program.linked.instructions.toList.map .ok ∧
    machine.pc ≤ program.size ∧
    machine.depth ≤ maxDepth ∧
    (∀ frame ∈ machine.frames.toList,
      0 < frame.limit ∧ ∃ start, program.Begins start ∧ frame.bodyStart = start + 1) ∧
    ∀ budget fault final, machine.execute budget = (.faulted fault, final) →
      ∃ spent before instruction, spent < budget ∧ machine.execute spent = (.running, before) ∧
        final = { before with phase := .faulted } ∧
        program.instruction? before.pc = some instruction ∧
        fault.instruction = some before.pc ∧
        (fault.cause ∈ [.invalidFunction, .invalidRegister, .readOnlyMemory, .elementOutOfRange,
            .layoutTooLarge, .blockOverflow] ∨
          fault.cause = .unbalancedBlock ∧ instruction.op = .endBlock ∧
            before.frames.toList = []) := by
  intro machine
  have hs := Program.sound_of_ofCode hp
  have hsafe : Safe program maxDepth machine := (Safe.create functions memory).after hs hstart
  refine ⟨hs.records, hs.linked.decoded, hsafe.pc_le, hsafe.depth_le, hsafe.frames, ?_⟩
  intro budget fault final hf
  obtain ⟨spent, before, cause, hlt, hrun, hstep, rfl, rfl⟩ := execute_eq_faulted hf
  have hbefore : Safe program maxDepth before := by
    have hk := (Safe.kept hs).execute spent hsafe
    rw [hrun] at hk
    exact hk
  obtain ⟨instruction, hi, hr⟩ := refusal_of_step hstep
  obtain ⟨hplace, hcause⟩ := hbefore.refusal hs hi hr
  rw [hbefore.program_eq] at hi
  exact ⟨spent, before, instruction, hlt, hrun, rfl, hi, hplace, hcause⟩

/-- A block that is started behind its beginning ends with a fault at its end. -/
theorem safe_of_ofCode_block :
    let code : Code :=
      { buffer := [81, 0, 1, 0, 0, 0, 0, 0, 0, 0, 0, 0, 1, 0, 0, 0, 0, 0, 82, 0], count := 2 }
    ∃ program fault final, Program.ofCode code = .ok program ∧
      ((create program {} {} 1).after [.startAt 1]).execute 5 = (.faulted fault, final) ∧
      fault.cause = .unbalancedBlock ∧ fault.instruction = some final.pc ∧
      final.frames.toList = [] := by
  intro code
  obtain ⟨program, hp⟩ :=
    Outcome.isOk_iff.mp (show (Program.ofCode code).isOk = true by decide +kernel)
  have hfacts : (Program.ofCode code).map (fun program =>
      (program.size, (((create program {} {} 1).after [.startAt 1]).execute 5).1)) =
        .ok (2, .faulted { cause := .unbalancedBlock, instruction := some 1 }) := by decide +kernel
  rw [hp] at hfacts
  have hsize : program.size = 2 := congrArg Prod.fst (Except.ok.inj hfacts)
  have hevent : (((create program {} {} 1).after [.startAt 1]).execute 5).1 =
      .faulted { cause := .unbalancedBlock, instruction := some 1 } :=
    congrArg Prod.snd (Except.ok.inj hfacts)
  have hstart : ∀ index, Operation.startAt index ∈ [Operation.startAt 1] →
      index ≤ program.size := by
    intro index hmem
    cases List.mem_singleton.mp hmem
    rw [hsize]
    decide
  have hrun : ((create program {} {} 1).after [.startAt 1]).execute 5 = (.faulted _, _) :=
    Prod.ext hevent rfl
  obtain ⟨-, -, -, -, -, hfaults⟩ := safe_of_ofCode hp {} {} 1 hstart
  obtain ⟨spent, before, instruction, -, -, hfinal, -, hplace, hcause⟩ := hfaults _ _ _ hrun
  refine ⟨program, _, _, hp, hrun, rfl, ?_, ?_⟩
  · rw [hfinal]
    exact hplace
  · rw [hfinal]
    rcases hcause with hcause | ⟨-, -, hframes⟩
    · exact absurd hcause (by decide)
    · exact hframes

end Machine

end RegisterMachine
