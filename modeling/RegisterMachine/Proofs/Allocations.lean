import RegisterMachine.Proofs.Atomicity
import RegisterMachine.Proofs.Edits

/-!
# Running code changes neither literals nor allocations

All that a machine does to memory it does by requests, be it on behalf of an instruction or of a host
function. So what every request keeps, every host sees kept, whatever it does with the machine. No
request changes a literal, adds or drops a register, or gives one more or fewer bytes.
-/

namespace RegisterMachine

namespace Machine

variable {P : Registers → Prop} {Q : Fault → Prop}

/-! ### What requests keep, instructions keep -/

/-- Work came to memory with a property, be it carried out or refused, and a fault that it was
refused for has a property of its own. -/
def Leaves (P : Registers → Prop) (Q : Fault → Prop) {α : Type} :
    EStateM.Result Fault Machine α → Prop
  | .ok _ reached => P reached.memory
  | .error fault reached => P reached.memory ∧ Q fault

/-- Work that finds memory with the one property leaves it so. -/
def Keeps (P : Registers → Prop) (Q : Fault → Prop) {α : Type} (work : EStateM Fault Machine α) :
    Prop :=
  ∀ machine : Machine, P machine.memory → Leaves P Q (work.run machine)

/-- Only a change of type asks memory for one. -/
def MayAsk (op : Op) (request : Request) : Prop :=
  ∀ operand layout, request = .changeType operand layout →
    op = .changeType { arg := operand, layout }

/-- Requests keep `P`, and where `P` holds those that `op` may make are refused for `Q` only. -/
structure Minds (P : Registers → Prop) (Q : Fault → Prop) (op : Op) : Prop where
  keeps : ∀ memory request, P memory → P (memory.serve request).2
  faults : ∀ memory request, P memory → MayAsk op request →
    Outcome.Faults Q (memory.serve request).1
  own : ∀ fault : Fault, fault.cause ∈ [.invalidFunction, .invalidJumpTarget, .unbalancedBlock,
    .blockOverflow, .internalError] → Q fault

namespace Keeps

variable {α β : Type} {work : EStateM Fault Machine α} {op : Op}

theorem bind {next : α → EStateM Fault Machine β} (hw : Keeps P Q work)
    (hn : ∀ a, Keeps P Q (next a)) : Keeps P Q (work >>= next) := by
  intro machine hm
  have h := hw machine hm
  rw [EStateM.run_bind]
  cases hr : work.run machine with
  | ok a reached =>
    rw [hr] at h
    exact hn a reached h
  | error fault reached =>
    rw [hr] at h
    exact h

/-- Work that looks at the machine as it finds it. -/
theorem get_bind {next : Machine → EStateM Fault Machine β} (hn : ∀ machine, Keeps P Q (next machine)) :
    Keeps P Q (get >>= next) :=
  fun machine hm => hn machine machine hm

private theorem raise {fault : Fault} (h : Q fault) :
    Keeps P Q (throw fault : EStateM Fault Machine α) :=
  fun _ hm => ⟨hm, h⟩

private theorem ask (h : Minds P Q op) {request : Request}
    (hr : MayAsk op request := by rintro _ _ ⟨⟩ <;> rfl) : Keeps P Q (ask request) := by
  intro machine hm
  have hkeeps := h.keeps machine.memory request hm
  have hfaults := h.faults machine.memory request hm hr
  rw [run_ask]
  rcases hserve : machine.memory.serve request with ⟨fault | reply, memory⟩
  · rw [hserve] at hkeeps hfaults
    exact ⟨hkeeps, hfaults fault rfl⟩
  · rw [hserve] at hkeeps
    exact hkeeps

private theorem moveTo (pc : Nat) : Keeps P Q (moveTo pc) := fun _ hm => hm

private theorem jumpTo (h : Minds P Q op) (direction : Direction) (target : UInt32) :
    Keeps P Q (jumpTo direction target) := by
  apply get_bind
  intro machine
  cases direction.resolve machine.pc target with
  | some place => exact moveTo place
  | none => exact raise (h.own _ (by simp))

private theorem pushFrame (h : Minds P Q op) (frame : Frame) : Keeps P Q (pushFrame frame) := by
  intro machine hm
  rw [run_pushFrame, BoundedStack.push]
  by_cases hl : machine.frames.limit ≤ machine.frames.size
  · rw [if_pos hl]
    exact ⟨hm, h.own _ (by simp)⟩
  · rw [if_neg hl]
    exact hm

private theorem popFrame (h : Minds P Q op) : Keeps P Q popFrame := by
  intro machine hm
  cases ht : machine.frames.top? with
  | some frame =>
    rw [run_popFrame ht]
    exact hm
  | none =>
    have hpop : machine.frames.pop = .error { cause := .internalError, note := "UNDERFLOW" } := by
      rw [BoundedStack.pop, ht]
    simp only [EStateM.run, Machine.popFrame, hpop]
    exact ⟨hm, h.own _ (by simp)⟩

private theorem callInPlace (h : Minds P Q op) (function : UInt32) (operands : List Operand) :
    Keeps P Q (callInPlace function operands) := by
  apply get_bind
  intro machine
  cases machine.functions.get? function.toNat with
  | none => exact raise (h.own _ (by simp))
  | some host =>
    -- What a host function fails with is no refusal; only what it did to memory counts here.
    have hcarry : Keeps P Q (InPlace.attempt (carryOut (host.body operands))) := by
      intro machine hm
      have hkept := Routine.run_keeps h.keeps (host.body operands) hm
      rw [InPlace.run_attempt, run_carryOut]
      dsimp only
      cases ((host.body operands).run machine.memory).result with
      | ok _ => exact hkept
      | error fault => exact hkept
    apply hcarry.bind
    rintro (fault | _)
    · exact fun _ hm => hm
    · exact moveTo _

private theorem enterInPlace (h : Minds P Q op) (loop : Loop) : Keeps P Q (enterInPlace loop) := by
  apply get_bind
  intro machine
  apply (ask h).bind
  intro limit
  split
  · cases machine.program.blockEnd? machine.pc with
    | some stop => exact moveTo _
    | none => exact raise (h.own _ (by simp))
  · exact (pushFrame h _).bind fun _ => moveTo _

private theorem leaveInPlace (h : Minds P Q op) : Keeps P Q leaveInPlace := by
  apply get_bind
  intro machine
  cases machine.frames.top? with
  | none => exact raise (h.own _ (by simp))
  | some frame =>
    apply (ask h).bind
    intro index
    apply (ask h).bind
    intro _
    split
    · exact moveTo _
    · exact (popFrame h).bind fun _ => moveTo _

/-- What requests keep, instructions keep. -/
theorem performInPlace {instruction : Instruction} (h : Minds P Q instruction.op) :
    Keeps P Q (performInPlace instruction) := by
  apply get_bind
  intro machine
  obtain ⟨op, operands, bounded⟩ := instruction
  cases op with
  | execute function => exact callInPlace h function operands
  | zero arg => exact (ask h).bind fun _ => moveTo _
  | setFalse arg => exact (ask h).bind fun _ => moveTo _
  | setTrue arg => exact (ask h).bind fun _ => moveTo _
  | copy transfer => exact (ask h).bind fun _ => moveTo _
  | increment arg => exact (ask h).bind fun _ => (ask h).bind fun _ => moveTo _
  | decrement arg => exact (ask h).bind fun _ => (ask h).bind fun _ => moveTo _
  | equals comparison => exact (ask h).bind fun _ => (ask h).bind fun _ => moveTo _
  | notEquals comparison => exact (ask h).bind fun _ => (ask h).bind fun _ => moveTo _
  | jump direction target => exact jumpTo h direction target
  | jumpIf direction branch =>
    apply (ask h).bind
    intro value
    split
    · exact jumpTo h direction branch.target
    · exact moveTo _
  | changeType retyping => exact (ask h).bind fun _ => moveTo _
  | exit => exact fun _ hm => hm
  | beginBlock loop => exact enterInPlace h loop
  | endBlock => exact leaveInPlace h

end Keeps

/-! ### What requests keep, runs keep -/

section Runs

variable {machine : Machine}

private theorem Keeps.stepInPlace
    (h : ∀ instruction, machine.program.instruction? machine.pc = some instruction →
      Minds P Q instruction.op) (hm : P machine.memory) : Leaves P Q (stepInPlace.run machine) := by
  rw [Machine.stepInPlace, InPlace.run_get_bind]
  cases hi : machine.program.instruction? machine.pc with
  | none => exact hm
  | some instruction => exact Keeps.performInPlace (h instruction hi) machine hm

/-- Where instructions mind both, a transition is refused for `Q` only. -/
theorem faults_step (h : ∀ instruction, machine.program.instruction? machine.pc = some instruction →
      Minds P Q instruction.op) (hm : P machine.memory) : Outcome.Faults Q machine.step := by
  intro fault hs
  have hkept := Keeps.stepInPlace h hm
  rw [run_stepInPlace, hs] at hkept
  exact hkept.2

variable (hP : ∀ memory request, P memory → P (memory.serve request).2)

include hP

private theorem memory_step {result : Step} (hs : machine.step = .ok result)
    (hm : P machine.memory) :
    P (result.turn machine).2.memory := by
  have hminds : ∀ op, Minds P (fun _ => True) op :=
    fun _ => ⟨hP, fun _ _ _ _ _ _ => trivial, fun _ _ => trivial⟩
  have hkept := Keeps.stepInPlace (fun instruction _ => hminds instruction.op) hm
  rw [run_stepInPlace, hs] at hkept
  exact hkept

private theorem memory_cycle (budget : Nat) (hm : P machine.memory) :
    P (machine.cycle budget).2.memory := by
  induction budget generalizing machine with
  | zero => exact hm
  | succ budget ih =>
    rw [cycle]
    split
    · next next hs => exact ih (memory_step hP hs hm)
    · exact hm
    · next fault next hs => exact memory_step hP hs hm
    · exact hm

private theorem memory_execute (budget : Nat) (hm : P machine.memory) :
    P (machine.execute budget).2.memory := by
  unfold execute
  split
  · exact hm
  · split
    · exact memory_cycle hP budget hm
    · exact hm

private theorem memory_respond (operation : Operation) (hm : P machine.memory) :
    P (machine.respond operation).2.memory := by
  cases operation with
  | start entry =>
    simp only [respond, start]
    cases machine.program.entry entry with
    | error fault => exact hm
    | ok index => exact hm
  | startAt index => exact hm
  | interrupt =>
    simp only [respond, interrupt]
    split <;> exact hm
  | execute budget => exact memory_execute hP budget hm

end Runs

/-! ### What a host can bring about -/

/-- The machines that a host can get to by operations and by runs to the end. -/
inductive Reachable (origin : Machine) : Machine → Prop
  | refl : Reachable origin origin
  | respond {machine : Machine} (h : Reachable origin machine) (operation : Operation) :
      Reachable origin (machine.respond operation).2
  | run {machine final : Machine} {slices : Nat} {entry : String} {result : Except Fault Unit}
      (h : Reachable origin machine) (hr : machine.run slices entry = some (result, final)) :
      Reachable origin final

private theorem drive_eq_some {machine final : Machine} {budget slices : Nat} {event : Event}
    (h : machine.drive budget slices = some (event, final)) :
    ∃ budgets, machine.afterSlices budgets = final := by
  induction slices generalizing machine with
  | zero => cases h
  | succ slices ih =>
    rcases he : machine.execute budget with ⟨found, next⟩
    rw [drive, he] at h
    by_cases hr : found = .running
    · subst hr
      obtain ⟨budgets, hb⟩ := ih h
      exact ⟨budget :: budgets, by rw [afterSlices_cons, he, hb]⟩
    · refine ⟨[budget], ?_⟩
      rw [afterSlices_cons, he]
      cases found with
      | running => exact absurd rfl hr
      | _ =>
        cases h
        rfl

/-- A run to the end does nothing that a host could not do by starting an invocation and handing out
slices. -/
theorem run_eq_some {machine final : Machine} {slices : Nat} {entry : String}
    {result : Except Fault Unit} (h : machine.run slices entry = some (result, final)) :
    ∃ operations, machine.after operations = final := by
  unfold run at h
  split at h
  · cases h
    exact ⟨[], rfl⟩
  · next started hs =>
    obtain ⟨⟨event, reached⟩, hd, heq⟩ := Option.map_eq_some_iff.mp h
    cases heq
    obtain ⟨budgets, hb⟩ := drive_eq_some hd
    refine ⟨.start entry :: budgets.map .execute, ?_⟩
    have hrespond : (machine.respond (.start entry)).2 = started := by simp only [respond, hs]
    rw [after, List.foldl_cons, hrespond]
    exact hb

private theorem Reachable.exists_after {origin machine : Machine} (h : Reachable origin machine) :
    ∃ operations, origin.after operations = machine := by
  induction h with
  | refl => exact ⟨[], rfl⟩
  | respond _ operation ih =>
    obtain ⟨operations, rfl⟩ := ih
    exact ⟨operations ++ [operation], List.foldl_append ..⟩
  | run _ hr ih =>
    obtain ⟨operations, rfl⟩ := ih
    obtain ⟨more, rfl⟩ := run_eq_some hr
    exact ⟨operations ++ more, List.foldl_append ..⟩

private theorem Reachable.kept {R : Machine → Prop} (hk : Kept R)
    (hstart : ∀ machine index, R machine → R (machine.startAt index)) {origin machine : Machine}
    (h : Reachable origin machine) (ho : R origin) : R machine := by
  obtain ⟨operations, rfl⟩ := h.exists_after
  exact hk.after (fun machine _ _ index hm _ => hstart machine index hm) ho

theorem Reachable.program_eq {origin machine : Machine} (h : Reachable origin machine) :
    machine.program = origin.program :=
  h.kept (kept_program origin.program) (fun _ _ hp => hp) rfl

theorem Reachable.functions_eq {origin machine : Machine} (h : Reachable origin machine) :
    machine.functions = origin.functions :=
  h.kept (kept_functions origin.functions) (fun _ _ hf => hf) rfl

theorem Reachable.of_execute {origin machine next : Machine} {budget : Nat} {event : Event}
    (h : Reachable origin machine) (hrun : machine.execute budget = (event, next)) :
    Reachable origin next := by
  have hreached := h.respond (.execute budget)
  rwa [Machine.respond, hrun] at hreached

/-- What every request keeps, a host sees kept. -/
theorem Reachable.memory (hP : ∀ memory request, P memory → P (memory.serve request).2)
    {origin machine : Machine} (h : Reachable origin machine) (ho : P origin.memory) :
    P machine.memory := by
  obtain ⟨operations, rfl⟩ := h.exists_after
  exact after_keeps (P := fun machine => P machine.memory)
    (fun _ operation _ hm => memory_respond hP operation hm) ho

end Machine

/-! ### Literals and allocations -/

namespace Registers

/-- The same literals, and as many bytes for every register. -/
structure SameStorage (memory next : Registers) : Prop where
  literal : next.literal = memory.literal
  capacities : ∀ bank, (next.bank bank).map Register.capacity =
    (memory.bank bank).map Register.capacity

namespace SameStorage

variable {memory next other : Registers}

theorem refl (memory : Registers) : SameStorage memory memory := ⟨rfl, fun _ => rfl⟩

theorem trans (h : SameStorage memory next) (hn : SameStorage next other) :
    SameStorage memory other :=
  ⟨hn.literal.trans h.literal, fun bank => (hn.capacities bank).trans (h.capacities bank)⟩

private theorem size_eq (h : SameStorage memory next) (bank : Bank) :
    (next.bank bank).size = (memory.bank bank).size := by
  have hsize := congrArg Array.size (h.capacities bank)
  rwa [Array.size_map, Array.size_map] at hsize

theorem capacity_eq (h : SameStorage memory next) (bank : Bank) (index : Nat) :
    (next.bank bank)[index]?.map Register.capacity =
      (memory.bank bank)[index]?.map Register.capacity := by
  rw [← Array.getElem?_map, ← Array.getElem?_map, h.capacities bank]

end SameStorage

private theorem Change.sameStorage {memory next : Registers} (h : Change memory next) :
    SameStorage memory next := by
  cases h with
  | none => exact .refl memory
  | @update operand register f hw hr hc hl =>
    refine ⟨?_, fun bank => ?_⟩
    · obtain ⟨named, number, element⟩ := operand
      cases named with
      | literal => exact absurd rfl hw
      | work => rfl
      | external => rfl
    · apply Array.ext_getElem?
      intro index
      rw [Array.getElem?_map, Array.getElem?_map, lookup_update]
      split
      · next hs =>
        obtain ⟨rfl, rfl⟩ := hs
        rw [register_eq_ok_iff.mp hr, Option.map_some, Option.map_some, hc, Option.map_some]
      · rfl

theorem SameStorage.serve {memory next : Registers} (h : SameStorage memory next)
    (request : Request) : SameStorage memory (next.serve request).2 :=
  h.trans (change_serve next request).sameStorage

end Registers

/-- Whatever a host does with a machine, and whatever its program and its host functions ask of memory:
the literals stay what they were, no register comes or goes, and none gets more bytes or fewer. -/
theorem Machine.Reachable.storage_fixed {origin machine : Machine} (h : Reachable origin machine) :
    machine.memory.literal = origin.memory.literal ∧
    ∀ bank, (machine.memory.bank bank).size = (origin.memory.bank bank).size ∧
      ∀ index : Nat, (machine.memory.bank bank)[index]?.map Register.capacity =
        (origin.memory.bank bank)[index]?.map Register.capacity := by
  have hs : Registers.SameStorage origin.memory machine.memory :=
    h.memory (fun _ request hm => hm.serve request) (.refl origin.memory)
  exact ⟨hs.literal, fun bank => ⟨hs.size_eq bank, hs.capacity_eq bank⟩⟩

/-- A run that copies a literal and takes the copy apart into bytes, then fails on the literal itself. -/
theorem Machine.Reachable.storage_fixed_refused :
    let literal : Operand := { bank := .literal, register := 0 }
    let code := ({} : Code).after
      [.add (.copy literal (.work 0)),
        .add (.changeType (.work 0) { elementSize := 1, elementCount := 8 } 8),
        .add (.increment literal), .addEntry "main" 0]
    let memory : Registers :=
      { work := #[{ layout := .integer, bytes := List.replicate 8 0 }],
        literal := #[{ layout := .integer, bytes := [7, 0, 0, 0, 0, 0, 0, 0] }] }
    ∃ program, Program.ofCode code = .ok program ∧ ∃ fault final,
      (create program Builtin.table memory).run 1 "main" = some (.error fault, final) ∧
      final.memory.work ≠ memory.work ∧ final.memory.literal = memory.literal ∧
      final.memory.work.size = 1 ∧
      final.memory.work[0]?.map Register.capacity = some 8 := by
  intro literal code memory
  obtain ⟨program, hp⟩ :=
    Outcome.isOk_iff.mp (show (Program.ofCode code).isOk = true by decide +kernel)
  have hfacts : (Program.ofCode code).map (fun program =>
      ((create program Builtin.table memory).run 1 "main").map fun (result, final) =>
        (result.isOk, decide (final.memory.work = memory.work))) = .ok (some (false, false)) := by
    decide +kernel
  rw [hp] at hfacts
  obtain ⟨⟨result, final⟩, hrun, heq⟩ := Option.map_eq_some_iff.mp (Except.ok.inj hfacts)
  obtain ⟨hfailed, hchanged⟩ := Prod.mk.inj heq
  cases result with
  | ok _ => cases hfailed
  | error fault =>
    have hreach : Reachable (create program Builtin.table memory) final := .run .refl hrun
    have hfixed := storage_fixed hreach
    exact ⟨program, hp, fault, final, hrun, of_decide_eq_false hchanged, hfixed.1,
      (hfixed.2 .work).1, (hfixed.2 .work).2 0⟩

end RegisterMachine
