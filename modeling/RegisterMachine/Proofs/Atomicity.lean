import RegisterMachine.Proofs.InPlace
import RegisterMachine.Proofs.Slices

/-!
# Faults change nothing

A machine that works in place stands, when an instruction is refused, where it stood in front of it,
with the same memory and the same frames. A host function that fails may have changed memory, as it
pleases; the built-in ones store only when nothing can fail any more, so they have not.
-/

namespace RegisterMachine

namespace Routine

variable {α β : Type}

theorem run_bind (routine : Routine α) (next : α → Routine β) (memory : Registers) :
    (routine >>= next).run memory =
      match (routine.run memory).result with
      | .ok a =>
        let rest := (next a).run (routine.run memory).memory
        { rest with trace := (routine.run memory).trace ++ rest.trace }
      | .error fault =>
        { result := .error fault, memory := (routine.run memory).memory,
          trace := (routine.run memory).trace } := by
  change (routine.bind next).run memory = _
  induction routine generalizing memory with
  | done result => cases result <;> rfl
  | ask request answer ih => exact ih _ _
  | log line rest ih =>
    simp only [bind, run, ih]
    cases (rest.run memory).result <;> rfl

/-- A routine that only looks at memory. -/
def Looks (routine : Routine α) : Prop := ∀ memory, (routine.run memory).memory = memory

/-- A routine that has changed nothing when it fails. -/
def Atomic (routine : Routine α) : Prop :=
  ∀ memory fault, (routine.run memory).result = .error fault → (routine.run memory).memory = memory

theorem Looks.bind_atomic {routine : Routine α} {next : α → Routine β} (hr : routine.Looks)
    (hn : ∀ a, (next a).Atomic) : (routine >>= next).Atomic := by
  intro memory fault
  have hm := hr memory
  rw [run_bind]
  cases (routine.run memory).result with
  | ok a => exact fun h => (hn a _ fault h).trans hm
  | error fault => exact fun _ => hm

private theorem looks_readInt (operand : Operand) : (readInt operand).Looks := fun _ => rfl

private theorem atomic_request (request : Request) : (Routine.request request).Atomic :=
  fun _ _ h => Registers.serve_refused h

end Routine

namespace Builtin

private theorem looks_operand (operands : List Operand) (position : Nat) :
    (operand operands position).Looks := by
  intro memory
  unfold operand
  split <;> rfl

/-- Closed under what built-in functions do: look for operands, read them, leave lines in the trace,
and store at most once, last. -/
structure Closed (R : Routine Unit → Prop) : Prop where
  done : R (pure ())
  writeInt : ∀ target value, R (Routine.writeInt target value)
  writeBool : ∀ target value, R (Routine.writeBool target value)
  log : ∀ line next, R next → R (.log line next)
  operand : ∀ operands position next, (∀ found, R (next found)) →
    R (operand operands position >>= next)
  readInt : ∀ operand next, (∀ value, R (next value)) → R (Routine.readInt operand >>= next)

namespace Closed

variable {R : Routine Unit → Prop}

private theorem withPair (h : Closed R) (operands : List Operand)
    {body : Int64 → Int64 → Operand → Routine Unit}
    (hbody : ∀ left right target, R (body left right target)) : R (withPair operands body) := by
  apply h.operand
  intro first
  apply h.readInt
  intro left
  apply h.operand
  intro second
  apply h.readInt
  intro right
  apply h.operand
  exact hbody left right

private theorem traceFrom (h : Closed R) (position : Nat) (operands : List Operand) :
    R (traceFrom position operands) := by
  induction operands generalizing position with
  | nil => exact h.done
  | cons operand rest ih =>
    apply h.readInt
    intro value
    exact h.log _ _ (ih (position + 1))

/-- What such a property is, every built-in function has. -/
theorem body (h : Closed R) {function : HostFunction} (hf : function ∈ table.functions)
    (operands : List Operand) : R (function.body operands) := by
  have harithmetic : ∀ f, R (arithmetic f operands) :=
    fun f => h.withPair operands fun left right target => h.writeInt target (f left right)
  simp only [table, List.mem_toArray, List.mem_cons, List.not_mem_nil, or_false] at hf
  rcases hf with rfl | rfl | rfl | rfl | rfl | rfl | rfl
  · exact harithmetic _
  · exact harithmetic _
  · exact harithmetic _
  · exact harithmetic _
  · exact harithmetic _
  · exact h.withPair operands fun left right target => h.writeBool target (left < right)
  · exact h.traceFrom 0 operands

end Closed

private theorem closed_atomic : Closed Routine.Atomic where
  done _ _ h := nomatch h
  writeInt target value := Routine.atomic_request (.writeInt target value)
  writeBool target value := Routine.atomic_request (.writeBool target value)
  log _ _ h := h
  operand operands position _ h := (looks_operand operands position).bind_atomic h
  readInt operand _ h := (Routine.looks_readInt operand).bind_atomic h

end Builtin

theorem FunctionTable.mem_of_get? {table : FunctionTable} {index : Nat} {function : HostFunction}
    (h : table.get? index = some function) : function ∈ table.functions :=
  Array.mem_of_getElem? h

namespace Machine

variable {machine : Machine}

private theorem Move.functions_eq {next : Machine} {op : Op} (h : Move machine op next) :
    next.functions = machine.functions := by
  cases h <;> rfl

/-- No operation changes the function table. -/
theorem kept_functions (functions : FunctionTable) :
    Kept fun machine => machine.functions = functions where
  move _ _ _ _ hm hf := hm.functions_eq.trans hf
  halt _ _ _ hf := hf
  interrupted _ _ hf := hf
  clear _ _ hf := hf

/-- Only a call can fail in its host function, and it moves the machine on. -/
theorem call_of_step_hostError {fault : Fault} {next : Machine}
    (h : machine.step = .ok (.hostError fault next)) :
    ∃ instruction function host cause,
      machine.program.instruction? machine.pc = some instruction ∧
      instruction.op = .execute function ∧ machine.functions.get? function.toNat = some host ∧
      let outcome := (host.body instruction.operands).run machine.memory
      outcome.result = .error cause ∧ fault = cause.inInstruction machine.pc ∧
      next = { machine with
        memory := outcome.memory, trace := machine.trace ++ outcome.trace, pc := machine.pc + 1 } := by
  rcases effect_of_step h with ⟨-, hexit⟩ | ⟨⟨op, operands, bounded⟩, hi, he⟩
  · cases hexit
  · cases he with
    | @hostError function _ _ hm =>
      have hcall : machine.call function operands = .ok (.hostError fault next) := by
        rw [step, hi] at h
        exact h
      unfold call at hcall
      split at hcall
      · cases hcall
      · next host hf =>
        dsimp only at hcall
        split at hcall
        · cases hcall
        · next cause hr =>
          cases hcall
          exact ⟨_, function, host, cause, hi, rfl, hf, hr, rfl, rfl⟩

/-- A machine that works in place comes out of every slice as it is said to. When the slice ends with
a fault, the instruction that was refused has changed nothing: memory, frames and cursor are what
they were in front of it. When it ends with a failed host function, the cursor has moved past that
call, the frames are what they were, and so is memory if the function is a built-in one. -/
theorem executeInPlace_atomic (machine : Machine) (budget : Nat) :
    machine.executeInPlace budget = machine.execute budget ∧
    (∀ fault final, machine.executeInPlace budget = (.faulted fault, final) →
      ∃ spent before cause, spent < budget ∧ machine.executeInPlace spent = (.running, before) ∧
        stepInPlace.run before = .error cause before ∧ fault = cause.inInstruction before.pc ∧
        final.memory = before.memory ∧ final.frames = before.frames ∧ final.pc = before.pc) ∧
    ∀ fault final, machine.executeInPlace budget = (.hostError fault, final) →
      ∃ spent before instruction function host, spent < budget ∧
        machine.executeInPlace spent = (.running, before) ∧
        machine.program.instruction? before.pc = some instruction ∧
        instruction.op = .execute function ∧ machine.functions.get? function.toNat = some host ∧
        final.frames = before.frames ∧ final.pc = before.pc + 1 ∧ final.phase = .running ∧
        ∀ builtin ∈ Builtin.table.functions, host.body = builtin.body →
          final.memory = before.memory := by
  refine ⟨machine.executeInPlace_eq budget, ?_, ?_⟩
  · intro fault final h
    rw [executeInPlace_eq] at h
    obtain ⟨spent, before, cause, hlt, hrun, hstep, rfl, rfl⟩ := execute_eq_faulted h
    refine ⟨spent, before, cause, hlt, ?_, ?_, rfl, rfl, rfl, rfl⟩
    · rw [executeInPlace_eq]
      exact hrun
    · rw [run_stepInPlace, hstep]
      rfl
  · intro fault final h
    rw [executeInPlace_eq] at h
    obtain ⟨spent, before, hlt, hrun, hready, hstep⟩ := execute_eq_hostError h
    obtain ⟨instruction, function, host, cause, hi, hop, hf, hr, rfl, rfl⟩ :=
      call_of_step_hostError hstep
    have hprogram := (kept_program machine.program).execute spent rfl
    have hfunctions := (kept_functions machine.functions).execute spent rfl
    rw [hrun] at hprogram hfunctions
    rw [hprogram] at hi
    rw [hfunctions] at hf
    refine ⟨spent, before, instruction, function, host, hlt, ?_, hi, hop, hf, rfl, rfl,
      hready.phase, ?_⟩
    · rw [executeInPlace_eq]
      exact hrun
    · intro builtin hb hbody
      rw [hbody] at hr ⊢
      exact Builtin.closed_atomic.body hb instruction.operands before.memory cause hr

/-- A sum that lacks its operands fails and is passed. A round that is counted in a literal is
refused when the count has been read, and the block is still open. -/
theorem executeInPlace_atomic_literal :
    let code : Code :=
      { buffer := [0, 0, 0, 0, 0, 0, 81, 0, 1, 0, 0, 0, 0, 0, 0, 0, 1, 0, 1, 0, 0, 0, 0, 0, 82, 0],
        count := 3 }
    let memory : Registers :=
      { literal := #[{ layout := .integer, bytes := [1, 0, 0, 0, 0, 0, 0, 0] },
          { layout := .integer, bytes := [0, 0, 0, 0, 0, 0, 0, 0] }] }
    ∃ program, Program.ofCode code = .ok program ∧
      let machine := create program Builtin.table memory 4
      (∃ spent before fault final, (machine.startAt 0).executeInPlace spent = (.running, before) ∧
        (machine.startAt 0).executeInPlace 5 = (.hostError fault, final) ∧
        final.memory = before.memory ∧ final.frames = before.frames ∧
        final.pc = before.pc + 1 ∧ final.phase = .running) ∧
      ∃ spent before fault final, (machine.startAt 1).executeInPlace spent = (.running, before) ∧
        (machine.startAt 1).executeInPlace 5 = (.faulted fault, final) ∧
        fault.cause = .readOnlyMemory ∧ final.depth = 1 ∧
        final.memory = before.memory ∧ final.frames = before.frames ∧ final.pc = before.pc := by
  intro code memory
  obtain ⟨program, hp⟩ :=
    Outcome.isOk_iff.mp (show (Program.ofCode code).isOk = true by decide +kernel)
  have hfacts : (Program.ofCode code).map (fun program =>
      let machine := create program Builtin.table memory 4
      ((machine.startAt 0).executeInPlace 5 |>.1, (machine.startAt 1).executeInPlace 5 |>.1,
        (machine.startAt 1).executeInPlace 5 |>.2.depth)) =
        .ok (.hostError { cause := .hostFailure, instruction := some 0, note := "MISSING OPERAND" },
          .faulted { cause := .readOnlyMemory, instruction := some 2 }, 1) := by decide +kernel
  rw [hp] at hfacts
  have hfailed := congrArg Prod.fst (Except.ok.inj hfacts)
  have hrefused := congrArg (fun facts => facts.2.1) (Except.ok.inj hfacts)
  have hdepth := congrArg (fun facts => facts.2.2) (Except.ok.inj hfacts)
  refine ⟨program, hp, ?_, ?_⟩
  · have hrun : ((create program Builtin.table memory 4).startAt 0).executeInPlace 5 =
        (.hostError _, _) := Prod.ext hfailed rfl
    obtain ⟨spent, before, _, _, host, -, hbefore, -, -, hget, hframes, hpc, hphase, hmemory⟩ :=
      (executeInPlace_atomic _ 5).2.2 _ _ hrun
    have hhost := FunctionTable.mem_of_get? hget
    exact ⟨spent, before, _, _, hbefore, hrun, hmemory host hhost rfl, hframes, hpc, hphase⟩
  · have hrun : ((create program Builtin.table memory 4).startAt 1).executeInPlace 5 =
        (.faulted _, _) := Prod.ext hrefused rfl
    obtain ⟨spent, before, cause, -, hbefore, -, -, hmemory, hframes, hpc⟩ :=
      (executeInPlace_atomic _ 5).2.1 _ _ hrun
    exact ⟨spent, before, _, _, hbefore, hrun, rfl, hdepth, hmemory, hframes, hpc⟩

end Machine

end RegisterMachine
