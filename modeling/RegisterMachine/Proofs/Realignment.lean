import RegisterMachine.Proofs.Construction
import RegisterMachine.Proofs.Runs

/-!
# Programs in other layouts

A machine looks at its program only through the instructions, the blocks and the entries. Laying the
code out for another alignment changes none of them, and neither does saving and loading it, so no
host can tell the programs apart.
-/

namespace RegisterMachine

namespace Program

/-- Programs with the same instructions, blocks and entries, wherever these stand in the buffer. -/
structure Alike (first second : Program) : Prop where
  instructions : second.linked.instructions = first.linked.instructions
  blocks : second.linked.blocks = first.linked.blocks
  entries : second.code.entries = first.code.entries

variable {first second : Program}

private theorem Alike.instruction? (h : Alike first second) (index : Nat) :
    second.instruction? index = first.instruction? index := by
  simp only [Program.instruction?, h.instructions]

private theorem Alike.blockEnd? (h : Alike first second) (start : Nat) :
    second.blockEnd? start = first.blockEnd? start := by
  simp only [Program.blockEnd?, h.blocks]

private theorem Alike.entry (h : Alike first second) (name : String) :
    second.entry name = first.entry name := by
  simp only [Program.entry, Code.findEntry?, h.entries]

/-- Code that passes the checks makes a program for every alignment, like the one that it makes as it
stands. -/
theorem ofCodeAligned_of_finalize {code : Code} {linked : Linked} (hf : code.finalize = .ok linked)
    {alignment : Nat} (ha : Code.isAlignment alignment = true) :
    ∃ aligned, ofCodeAligned code alignment = .ok aligned ∧ Alike { code, linked } aligned := by
  obtain ⟨hopen, records, hr, hl⟩ := Code.finalize_eq_ok_iff.mp hf
  obtain ⟨buffer, others, hal, ho, hi⟩ := Code.align_of_records ha hr
  let laid : Code := { code with buffer, alignment }
  have hlinked : laid.linkRecords others = .ok { linked with records := others } :=
    Code.linkRecords_congr rfl hi hl
  have hfinal : laid.finalize = .ok { linked with records := others } :=
    Code.finalize_eq_ok_iff.mpr ⟨hopen, others, ho, hlinked⟩
  refine ⟨{ code := laid, linked := { linked with records := others } }, ?_, ⟨rfl, rfl, rfl⟩⟩
  exact Outcome.bind_eq_ok.mpr ⟨laid, hal, Outcome.bind_eq_ok.mpr ⟨_, hfinal, rfl⟩⟩

end Program

namespace Machine

def withProgram (machine : Machine) (program : Program) : Machine := { machine with program }

@[simp] theorem phase_withProgram (machine : Machine) (program : Program) :
    (machine.withProgram program).phase = machine.phase := rfl

@[simp] theorem interrupted_withProgram (machine : Machine) (program : Program) :
    (machine.withProgram program).interrupted = machine.interrupted := rfl

def Step.withProgram (program : Program) : Step → Step
  | .next machine => .next (machine.withProgram program)
  | .exit => .exit
  | .hostError fault machine => .hostError fault (machine.withProgram program)

section Replacement

variable {machine : Machine} {other : Program}

private theorem advance_withProgram (stored : Except Fault Registers) :
    (machine.withProgram other).advance stored =
      (machine.advance stored).map (Step.withProgram other) := by
  cases stored <;> rfl

private theorem follow_withProgram (direction : Direction) (target : UInt32) :
    (machine.withProgram other).follow direction target =
      (machine.follow direction target).map (Step.withProgram other) := by
  unfold follow
  dsimp only [withProgram]
  split <;> rfl

private theorem call_withProgram (function : UInt32) (operands : List Operand) :
    (machine.withProgram other).call function operands =
      (machine.call function operands).map (Step.withProgram other) := by
  unfold call
  dsimp only [withProgram]
  split
  · rfl
  · split <;> rfl

private theorem enterBlock_withProgram (ha : Program.Alike machine.program other) (loop : Loop) :
    (machine.withProgram other).enterBlock loop =
      (machine.enterBlock loop).map (Step.withProgram other) := by
  unfold enterBlock
  dsimp only [withProgram]
  rw [Outcome.map_bind, ha.blockEnd?]
  apply bind_congr
  intro limit
  split
  · split <;> rfl
  · rw [Outcome.map_bind]
    rfl

private theorem leaveBlock_withProgram :
    (machine.withProgram other).leaveBlock = machine.leaveBlock.map (Step.withProgram other) := by
  unfold leaveBlock
  dsimp only [withProgram]
  split
  · rfl
  · next frame ht =>
    rw [Outcome.map_bind, BoundedStack.pop_of_top ht]
    apply bind_congr
    intro index
    rw [Outcome.map_bind]
    apply bind_congr
    intro memory
    split <;> rfl

/-- An instruction looks at its program only for the end of a block. -/
theorem perform_withProgram (ha : Program.Alike machine.program other) (instruction : Instruction) :
    (machine.withProgram other).perform instruction =
      (machine.perform instruction).map (Step.withProgram other) := by
  obtain ⟨op, operands, bounded⟩ := instruction
  cases op with
  | execute function => exact call_withProgram function operands
  | jump direction target => exact follow_withProgram direction target
  | jumpIf direction branch =>
    simp only [perform]
    rw [Outcome.map_bind]
    apply bind_congr
    intro value
    split
    · exact follow_withProgram direction branch.target
    · rfl
  | exit => rfl
  | beginBlock loop => exact enterBlock_withProgram ha loop
  | endBlock => exact leaveBlock_withProgram
  | _ => exact advance_withProgram _

private theorem step_withProgram (ha : Program.Alike machine.program other) :
    (machine.withProgram other).step = machine.step.map (Step.withProgram other) := by
  unfold step
  dsimp only [withProgram]
  rw [ha.instruction?]
  split
  · exact perform_withProgram ha _
  · rfl

/-- A slice runs alike on programs that are alike. -/
theorem cycle_withProgram (ha : Program.Alike machine.program other) (budget : Nat) :
    (machine.withProgram other).cycle budget =
      ((machine.cycle budget).1, (machine.cycle budget).2.withProgram other) := by
  induction budget generalizing machine with
  | zero => rfl
  | succ budget ih =>
    rw [cycle, cycle, step_withProgram ha]
    cases hs : machine.step with
    | error fault => rfl
    | ok result =>
      cases result with
      | exit => rfl
      | hostError fault next => rfl
      | next next =>
        obtain ⟨instruction, -, hm⟩ := move_of_step_next hs
        have hn : Program.Alike next.program other := by
          rw [hm.program_eq]
          exact ha
        exact ih hn

private theorem execute_withProgram (ha : Program.Alike machine.program other) (budget : Nat) :
    (machine.withProgram other).execute budget =
      ((machine.execute budget).1, (machine.execute budget).2.withProgram other) := by
  by_cases hi : machine.interrupted = true
  · simp only [execute, interrupted_withProgram, hi, ↓reduceIte]
    rfl
  · by_cases hr : machine.phase = .running
    · simp only [execute, interrupted_withProgram, phase_withProgram, hi, hr,
        Bool.false_eq_true, ↓reduceIte]
      exact cycle_withProgram ha budget
    · simp only [execute, interrupted_withProgram, phase_withProgram, hi, hr,
        Bool.false_eq_true, ↓reduceIte]

private theorem respond_withProgram (ha : Program.Alike machine.program other)
    (operation : Operation) :
    (machine.withProgram other).respond operation =
      ((machine.respond operation).1, (machine.respond operation).2.withProgram other) := by
  cases operation with
  | start entry =>
    have he : (machine.withProgram other).program.entry entry = machine.program.entry entry :=
      ha.entry entry
    simp only [respond, start, he]
    cases machine.program.entry entry <;> rfl
  | startAt index => rfl
  | interrupt =>
    by_cases hr : machine.phase = .running
    · simp only [respond, interrupt, phase_withProgram, hr, ↓reduceIte]
      rfl
    · simp only [respond, interrupt, phase_withProgram, hr, ↓reduceIte]
  | execute budget => simp only [respond, execute_withProgram ha]

/-- What a host sees of a machine depends on its program only through what programs that are alike
have in common. -/
theorem observe_withProgram (ha : Program.Alike machine.program other)
    (operations : List Operation) :
    (machine.withProgram other).observe operations = machine.observe operations := by
  induction operations generalizing machine with
  | nil => rfl
  | cons operation rest ih =>
    have hn : Program.Alike (machine.respond operation).2.program other := by
      rw [program_respond]
      exact ha
    simp only [observe, respond_withProgram ha]
    rw [ih hn]
    rfl

end Replacement

end Machine

namespace Program

/-- No host can tell machines that run the two programs apart. -/
def Indistinguishable (first second : Program) : Prop :=
  ∀ functions memory maxDepth operations,
    (Machine.create first functions memory maxDepth).observe operations =
      (Machine.create second functions memory maxDepth).observe operations

private theorem Alike.indistinguishable {first second : Program} (h : Alike first second) :
    Indistinguishable second first := by
  intro functions memory maxDepth operations
  have ha : Alike (Machine.create first functions memory maxDepth).program second := h
  exact Machine.observe_withProgram ha operations

/-- Code that was built and passes the checks makes a program in every alignment, and so does its
image when it is loaded for one; no host can tell them from the program that the code makes as it
stands. -/
theorem indistinguishable_realigned {code : Code} (hb : code.Built) {linked : Linked}
    (hf : code.finalize = .ok linked) {alignment : Nat}
    (ha : alignment = 0 ∨ alignment.isPowerOfTwo ∧ alignment ≤ 128) :
    ∃ plain, ofCode code = .ok plain ∧
      (∃ aligned, ofCodeAligned code alignment = .ok aligned ∧ Indistinguishable aligned plain) ∧
      ∀ bytes, code.save = .ok bytes →
        ∃ loaded reloaded, Code.loadAligned bytes alignment = .ok loaded ∧
          ofCode loaded = .ok reloaded ∧ Indistinguishable reloaded plain := by
  have hal : Code.isAlignment alignment = true := Code.isAlignment_iff.mpr ha
  obtain ⟨aligned, hof, halike⟩ := ofCodeAligned_of_finalize hf hal
  have hsame := halike.indistinguishable
  refine ⟨{ code, linked }, Outcome.bind_eq_ok.mpr ⟨linked, hf, rfl⟩, ⟨aligned, hof, hsame⟩, ?_⟩
  intro bytes hs
  have hload : Code.load bytes = .ok code := hb.coherent.load_of_save hf hs
  obtain ⟨laid, hlaid, hprogram⟩ := Outcome.bind_eq_ok.mp hof
  exact ⟨laid, aligned, Outcome.bind_eq_ok.mpr ⟨code, hload, hlaid⟩, hprogram, hsame⟩

/-- A loaded increment with filler that is not zero, laid out for eight bytes. -/
theorem indistinguishable_realigned_increment :
    let code : Code :=
      { buffer := [69, 2, 7, 7, 0, 0, 0, 0, 0, 0, 0, 0, 80, 0], count := 2,
        entries := [{ name := "main", instruction := 0 }] }
    let laid : Code :=
      { code with
        buffer := [69, 6, 0, 0, 0, 0, 0, 0, 0, 0, 0, 0, 0, 0, 0, 0, 80, 6, 0, 0, 0, 0, 0, 0]
        alignment := 8 }
    code.align 8 = .ok laid ∧
      ∃ plain aligned, ofCode code = .ok plain ∧ ofCodeAligned code 8 = .ok aligned ∧
        Indistinguishable aligned plain := by
  intro code laid
  have hload : Code.load ([71, 86, 66, 67, 1, 0, 0, 0, 72, 244, 229, 147, 14, 0, 0, 0] ++
      code.buffer ++ [1, 0, 0, 0, 4, 0, 109, 97, 105, 110, 0, 0, 0, 0]) = .ok code := by
    decide +kernel
  have height : 8 = 0 ∨ Nat.isPowerOfTwo 8 ∧ 8 ≤ 128 := .inr ⟨⟨3, rfl⟩, by decide⟩
  obtain ⟨linked, hf⟩ := Outcome.isOk_iff.mp (show code.finalize.isOk = true by decide +kernel)
  obtain ⟨plain, hplain, ⟨aligned, haligned, hsame⟩, -⟩ :=
    indistinguishable_realigned (.load hload) hf height
  exact ⟨by decide +kernel, plain, aligned, hplain, haligned, hsame⟩

end Program

end RegisterMachine
