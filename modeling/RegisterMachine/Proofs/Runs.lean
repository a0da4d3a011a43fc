import RegisterMachine.Proofs.Transitions

/-!
# What a run keeps

A property of machines that no move breaks, and no end of an invocation, holds through a slice of
any budget. A slice that ends with a fault ends in front of the instruction that was refused.
-/

namespace RegisterMachine.Machine

variable {machine : Machine}

theorem step_eq_perform {instruction : Instruction}
    (hi : machine.program.instruction? machine.pc = some instruction) :
    machine.step = machine.perform instruction := by
  rw [step, hi]

/-- Past the last instruction there is only the exit; any other has an effect of its operation. -/
theorem effect_of_step {result : Step} (h : machine.step = .ok result) :
    (machine.program.instruction? machine.pc = none ∧ result = .exit) ∨
      ∃ instruction, machine.program.instruction? machine.pc = some instruction ∧
        Effect machine instruction.op result := by
  unfold step at h
  split at h
  · next instruction hi => exact .inr ⟨instruction, hi, effect_of_perform h⟩
  · next hn =>
    cases h
    exact .inl ⟨hn, rfl⟩

theorem move_of_step_next {next : Machine} (h : machine.step = .ok (.next next)) :
    ∃ instruction, machine.program.instruction? machine.pc = some instruction ∧
      Move machine instruction.op next := by
  rcases effect_of_step h with ⟨-, he⟩ | ⟨instruction, hi, he⟩
  · cases he
  · exact ⟨instruction, hi, he.move_of_next⟩

theorem move_of_step_hostError {next : Machine} {fault : Fault}
    (h : machine.step = .ok (.hostError fault next)) :
    ∃ instruction, machine.program.instruction? machine.pc = some instruction ∧
      Move machine instruction.op next := by
  rcases effect_of_step h with ⟨-, he⟩ | ⟨instruction, hi, he⟩
  · cases he
  · exact ⟨instruction, hi, he.move_of_hostError⟩

theorem refusal_of_step {fault : Fault} (h : machine.step = .error fault) :
    ∃ instruction, machine.program.instruction? machine.pc = some instruction ∧
      Refusal machine instruction.op fault := by
  unfold step at h
  split at h
  · next instruction hi => exact ⟨instruction, hi, refusal_of_perform instruction fault h⟩
  · cases h

/-- A property of machines that nothing but the start of an invocation can break. -/
structure Kept (P : Machine → Prop) : Prop where
  move : ∀ machine next instruction, machine.program.instruction? machine.pc = some instruction →
    Move machine instruction.op next → P machine → P next
  halt : ∀ (machine : Machine) (phase : Phase), phase ≠ .running → P machine →
    P { machine with phase }
  interrupted : ∀ (machine : Machine) (interrupted : Bool), P machine →
    P { machine with interrupted }
  clear : ∀ machine : Machine, machine.phase ≠ .running → P machine →
    P { machine with frames := machine.frames.clear }

namespace Kept

variable {P : Machine → Prop}

private theorem cycle (hk : Kept P) (budget : Nat) (hm : P machine) :
    P (machine.cycle budget).2 := by
  induction budget generalizing machine with
  | zero => exact hm
  | succ budget ih =>
    rw [Machine.cycle]
    split
    · next next hs =>
      obtain ⟨instruction, hi, hmove⟩ := move_of_step_next hs
      exact ih (hk.move machine next instruction hi hmove hm)
    · exact hk.halt machine .exited nofun hm
    · next fault next hs =>
      obtain ⟨instruction, hi, hmove⟩ := move_of_step_hostError hs
      exact hk.move machine next instruction hi hmove hm
    · exact hk.halt machine .faulted nofun hm

theorem execute (hk : Kept P) (budget : Nat) (hm : P machine) : P (machine.execute budget).2 := by
  unfold Machine.execute
  split
  · have hidle : P { machine with interrupted := false, phase := .idle } :=
      hk.halt _ .idle nofun (hk.interrupted machine false hm)
    exact hk.clear { machine with interrupted := false, phase := .idle } nofun hidle
  · split
    · exact hk.cycle budget hm
    · exact hm

private theorem respond (hk : Kept P) {operation : Operation}
    (hstart : ∀ index, machine.starts? operation = some index → P (machine.startAt index))
    (hm : P machine) : P (machine.respond operation).2 := by
  cases operation with
  | start entry =>
    simp only [Machine.respond, start]
    cases he : machine.program.entry entry with
    | error fault => exact hm
    | ok index => exact hstart index (by simp [starts?, he, Except.toOption])
  | startAt index => exact hstart index rfl
  | interrupt =>
    simp only [Machine.respond, interrupt]
    split
    · exact hk.interrupted machine true hm
    · exact hm
  | execute budget => exact hk.execute budget hm

/-- A row of operations keeps such a property if the starts among them do. -/
theorem after (hk : Kept P) {operations : List Operation}
    (hstart : ∀ machine, ∀ operation ∈ operations, ∀ index, P machine →
      machine.starts? operation = some index → P (machine.startAt index))
    (hm : P machine) : P (machine.after operations) := by
  apply after_keeps _ hm
  intro machine operation hmem hm
  apply hk.respond _ hm
  intro index hi
  exact hstart machine operation hmem index hm hi

end Kept

/-- No operation changes the program. -/
theorem kept_program (program : Program) : Kept fun machine => machine.program = program where
  move _ _ _ _ hm hp := hm.program_eq.trans hp
  halt _ _ _ hp := hp
  interrupted _ _ hp := hp
  clear _ _ hp := hp

theorem program_respond (machine : Machine) (operation : Operation) :
    (machine.respond operation).2.program = machine.program :=
  (kept_program machine.program).respond (fun _ _ => rfl) rfl

/-- A slice that faults has run without event up to an instruction that is refused, and leaves the
machine in front of it. -/
theorem cycle_eq_faulted {budget : Nat} {fault : Fault} {final : Machine}
    (h : machine.cycle budget = (.faulted fault, final)) :
    ∃ spent before cause, spent < budget ∧ machine.cycle spent = (.running, before) ∧
      before.step = .error cause ∧ fault = cause.inInstruction before.pc ∧
      final = { before with phase := .faulted } := by
  induction budget generalizing machine with
  | zero => cases h
  | succ budget ih =>
    rw [cycle] at h
    split at h
    · next next hs =>
      obtain ⟨spent, before, cause, hlt, hc, hstep, hf, hfinal⟩ := ih h
      refine ⟨spent + 1, before, cause, Nat.succ_lt_succ hlt, ?_, hstep, hf, hfinal⟩
      rw [cycle, hs]
      exact hc
    · cases h
    · cases h
    · next cause hs =>
      cases h
      exact ⟨0, machine, cause, Nat.succ_pos budget, rfl, hs, rfl, rfl⟩

theorem execute_eq_faulted {budget : Nat} {fault : Fault} {final : Machine}
    (h : machine.execute budget = (.faulted fault, final)) :
    ∃ spent before cause, spent < budget ∧ machine.execute spent = (.running, before) ∧
      before.step = .error cause ∧ fault = cause.inInstruction before.pc ∧
      final = { before with phase := .faulted } := by
  unfold execute at h ⊢
  split at h
  · cases h
  · next hi =>
    split at h
    · next hr =>
      obtain ⟨spent, before, cause, hlt, hc, hrest⟩ := cycle_eq_faulted h
      refine ⟨spent, before, cause, hlt, ?_, hrest⟩
      rw [if_neg hi, if_pos hr]
      exact hc
    · cases h

private theorem phase_of_cycle_running {budget : Nat} {next : Machine}
    (h : machine.cycle budget = (.running, next)) : next.phase = machine.phase := by
  induction budget generalizing machine with
  | zero =>
    cases h
    rfl
  | succ budget ih =>
    rw [cycle] at h
    split at h
    · next mid hs =>
      obtain ⟨instruction, -, hm⟩ := move_of_step_next hs
      exact (ih h).trans hm.phase_eq
    · cases h
    · cases h
    · cases h

theorem phase_of_execute_running {budget : Nat} {next : Machine}
    (h : machine.execute budget = (.running, next)) : next.phase = .running := by
  unfold execute at h
  split at h
  · cases h
  · split at h
    · next hr => exact (phase_of_cycle_running h).trans hr
    · cases h

end RegisterMachine.Machine
