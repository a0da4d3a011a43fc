import RegisterMachine.Proofs.Operations
import RegisterMachine.Proofs.Outcomes

/-!
# What one transition can do

An instruction that is carried out moves the machine in one of seven ways, and one that is refused
is refused for one of six reasons. Everything that is said of runs is derived from these two lists.
-/

namespace RegisterMachine

/-! ### Stacks -/

namespace BoundedStack

variable {α : Type} {stack next : BoundedStack α} {item top : α}

theorem push_eq_ok_iff :
    stack.push item = .ok next ↔
      stack.size < stack.limit ∧ next = { stack with items := stack.items.push item } := by
  unfold push
  split
  · next h => simp [Nat.not_lt.mpr h]
  · next h => simp [Nat.not_le.mp h, eq_comm]

theorem pop_of_top (h : stack.top? = some top) :
    stack.pop = .ok (top, { stack with items := stack.items.pop }) := by
  rw [pop, h]

theorem mem_of_top (h : stack.top? = some top) : top ∈ stack.toList := by
  have hm : top ∈ stack.items := Array.mem_of_back? h
  exact Array.mem_toList_iff.mpr hm

theorem toList_eq_nil_of_top (h : stack.top? = none) : stack.toList = [] := by
  have hm : stack.items = #[] := Array.back?_eq_none_iff.mp h
  simp [toList, hm]

end BoundedStack

/-! ### Refusals by memory -/

/-- Memory refuses for four causes, and does not know of instructions. -/
structure Fault.OfMemory (fault : Fault) : Prop where
  cause : fault.cause ∈
    [Cause.invalidRegister, .readOnlyMemory, .elementOutOfRange, .layoutTooLarge]
  instruction : fault.instruction = none

namespace Registers

open Outcome

/-- Faults that memory answers with have a property, where those of the whole of a register have. -/
structure RefusesFor (Q : Fault → Prop) (memory : Registers) : Prop where
  own : ∀ cause ∈ [Fault.Cause.invalidRegister, .readOnlyMemory, .elementOutOfRange], Q { cause }
  whole : ∀ operand register, memory.register operand = .ok register → Faults Q register.wholeSpan

private theorem refusesFor_ofMemory (memory : Registers) : memory.RefusesFor Fault.OfMemory where
  own cause hc := ⟨by revert cause; decide, rfl⟩
  whole operand register _ := by
    unfold Register.wholeSpan
    split
    · exact faults_ok _
    · exact faults_error ⟨by decide, rfl⟩

namespace RefusesFor

variable {Q : Fault → Prop} {memory : Registers} (h : memory.RefusesFor Q)

include h

theorem register (operand : Operand) : Faults Q (memory.register operand) := by
  unfold Registers.register
  split
  · exact faults_ok _
  · exact faults_error (h.own _ (by decide))

private theorem elementSpan (register : Register) (index : Int) :
    Faults Q (register.elementSpan index) := by
  unfold Register.elementSpan
  dsimp only
  split
  · exact faults_ok _
  · exact faults_error (h.own _ (by decide))

private theorem checkWritable (operand : Operand) : Faults Q (checkWritable operand) := by
  unfold Registers.checkWritable
  split
  · exact faults_error (h.own _ (by decide))
  · exact faults_ok _

private theorem firstInt (register : Register) : Faults Q (firstInt register) :=
  (h.elementSpan register 0).bind fun _ => faults_ok _

private theorem index (element : Element) : Faults Q (memory.index element) := by
  cases element with
  | whole => exact faults_ok _
  | fixed index => exact faults_ok _
  | indirect register =>
    apply (h.register (Operand.work register)).bind
    intro register
    exact (h.firstInt register).bind fun _ => faults_ok _

private theorem element (operand : Operand) : Faults Q (memory.element operand) := by
  apply (h.register operand).bind
  intro register
  exact (h.index operand.element).bind (h.elementSpan register)

private theorem region (operand : Operand) : Faults Q (memory.region operand) := by
  unfold Registers.region
  split
  · exact (h.register operand).bind_of_ok (h.whole operand)
  · exact h.element operand

private theorem elementBytes (operand : Operand) : Faults Q (memory.elementBytes operand) := by
  apply (h.element operand).bind
  intro span
  exact (h.register operand).bind fun _ => faults_ok _

private theorem regionBytes (operand : Operand) : Faults Q (memory.regionBytes operand) := by
  apply (h.region operand).bind
  intro span
  exact (h.register operand).bind fun _ => faults_ok _

theorem readInt (operand : Operand) : Faults Q (memory.readInt operand) :=
  (h.elementBytes operand).bind fun _ => faults_ok _

theorem readBool (operand : Operand) : Faults Q (memory.readBool operand) :=
  (h.elementBytes operand).bind fun _ => faults_ok _

theorem equals (left right : Operand) : Faults Q (memory.equals left right) := by
  apply (h.regionBytes left).bind
  intro bytes
  exact (h.regionBytes right).bind fun _ => faults_ok _

theorem writeInt (operand : Operand) (value : Int64) : Faults Q (memory.writeInt operand value) := by
  apply (h.element operand).bind
  intro span
  exact (h.checkWritable operand).bind fun _ => faults_ok _

theorem writeBool (operand : Operand) (value : Bool) :
    Faults Q (memory.writeBool operand value) := by
  apply (h.element operand).bind
  intro span
  exact (h.checkWritable operand).bind fun _ => faults_ok _

theorem zero (operand : Operand) : Faults Q (memory.zero operand) := by
  apply (h.region operand).bind
  intro span
  exact (h.checkWritable operand).bind fun _ => faults_ok _

theorem copy (source target : Operand) : Faults Q (memory.copy source target) := by
  apply (h.regionBytes source).bind
  intro bytes
  apply (h.region target).bind
  intro span
  exact (h.checkWritable target).bind fun _ => faults_ok _

theorem changeType (operand : Operand) (layout : Layout)
    (hl : ∀ register, memory.register operand = .ok register →
      layout.fitsIn register.capacity = true ∨ Q { cause := .layoutTooLarge }) :
    Faults Q (memory.changeType operand layout) := by
  apply (h.checkWritable operand).bind
  intro _
  apply (h.register operand).bind_of_ok
  intro register hr
  split
  · exact faults_ok _
  · next hf => exact faults_error ((hl register hr).resolve_left hf)

end RefusesFor

end Registers

/-! ### Moves -/

/-- Whether an operation decides itself what comes next. -/
def Op.isControl : Op → Bool
  | .jump _ _ | .jumpIf _ _ | .exit | .beginBlock _ | .endBlock => true
  | _ => false

namespace Machine

/-- How an operation moves a machine. -/
inductive Move (machine : Machine) : Op → Machine → Prop
  | advance {op : Op} (h : op.isControl = false) (memory : Registers) (trace : Array TraceLine) :
      Move machine op { machine with memory, trace, pc := machine.pc + 1 }
  | pass (direction : Direction) (branch : Branch) :
      Move machine (.jumpIf direction branch) { machine with pc := machine.pc + 1 }
  | jump {op : Op} {target : Nat} (h : op.jumpTarget? machine.pc = some (some target)) :
      Move machine op { machine with pc := target }
  | skip {loop : Loop} {limit : Int64} {stop : Nat}
      (hl : machine.memory.readInt loop.count = .ok limit) (hn : limit ≤ 0)
      (hs : machine.program.blockEnd? machine.pc = some stop) :
      Move machine (.beginBlock loop) { machine with pc := stop + 1 }
  | enter {loop : Loop} {limit : Int64} {frames : BoundedStack Frame}
      (hl : machine.memory.readInt loop.count = .ok limit) (hp : 0 < limit)
      (hf : machine.frames.push { bodyStart := machine.pc + 1, limit, index := loop.index } =
        .ok frames) :
      Move machine (.beginBlock loop) { machine with frames, pc := machine.pc + 1 }
  | again {frame : Frame} {index : Int64} {memory : Registers}
      (ht : machine.frames.top? = some frame)
      (hi : machine.memory.readInt frame.index = .ok index)
      (hm : machine.memory.writeInt frame.index (index + 1) = .ok memory)
      (hl : index + 1 < frame.limit) :
      Move machine .endBlock { machine with memory, pc := frame.bodyStart }
  | leave {frame : Frame} {index : Int64} {memory : Registers} {frames : BoundedStack Frame}
      (ht : machine.frames.top? = some frame)
      (hi : machine.memory.readInt frame.index = .ok index)
      (hm : machine.memory.writeInt frame.index (index + 1) = .ok memory)
      (hl : ¬ index + 1 < frame.limit) (hf : machine.frames.pop = .ok (frame, frames)) :
      Move machine .endBlock { machine with memory, frames, pc := machine.pc + 1 }

theorem Move.program_eq {machine next : Machine} {op : Op} (h : Move machine op next) :
    next.program = machine.program := by
  cases h <;> rfl

theorem Move.phase_eq {machine next : Machine} {op : Op} (h : Move machine op next) :
    next.phase = machine.phase := by
  cases h <;> rfl

/-- What carrying an operation out can come to. -/
inductive Effect (machine : Machine) : Op → Step → Prop
  | next {op : Op} {next : Machine} (h : Move machine op next) : Effect machine op (.next next)
  | exit : Effect machine .exit .exit
  | hostError {function : UInt32} {fault : Fault} {next : Machine}
      (h : Move machine (.execute function) next) :
      Effect machine (.execute function) (.hostError fault next)

theorem Effect.move_of_next {machine next : Machine} {op : Op}
    (h : Effect machine op (.next next)) : Move machine op next := by
  cases h with
  | next h => exact h

theorem Effect.move_of_hostError {machine next : Machine} {op : Op} {fault : Fault}
    (h : Effect machine op (.hostError fault next)) : Move machine op next := by
  cases h with
  | hostError h => exact h

section Effects

variable {machine : Machine} {step : Step}

private theorem effect_of_advance {op : Op} {stored : Except Fault Registers}
    (hc : op.isControl = false) (h : machine.advance stored = .ok step) :
    Effect machine op step := by
  obtain ⟨memory, -, rfl⟩ := Outcome.map_eq_ok.mp h
  exact .next (.advance hc memory machine.trace)

private theorem effect_of_call {function : UInt32} {operands : List Operand}
    (h : machine.call function operands = .ok step) : Effect machine (.execute function) step := by
  unfold call at h
  split at h
  · cases h
  · next host _ =>
    let outcome := (host.body operands).run machine.memory
    have hm : Move machine (.execute function)
        { machine with
          memory := outcome.memory
          trace := machine.trace ++ outcome.trace
          pc := machine.pc + 1 } :=
      .advance rfl outcome.memory (machine.trace ++ outcome.trace)
    dsimp only at h
    split at h
    · cases h
      exact .next hm
    · cases h
      exact .hostError hm

private theorem effect_of_follow {op : Op} {direction : Direction} {target : UInt32}
    (hj : op.jump? = some (direction, target))
    (h : machine.follow direction target = .ok step) : Effect machine op step := by
  unfold follow at h
  split at h
  · next place hp =>
    cases h
    have ht : op.jumpTarget? machine.pc = some (some place) := by
      simp [Op.jumpTarget?, hj, hp]
    exact .next (.jump ht)
  · cases h

private theorem effect_of_enterBlock {loop : Loop} (h : machine.enterBlock loop = .ok step) :
    Effect machine (.beginBlock loop) step := by
  obtain ⟨limit, hl, h⟩ := Outcome.bind_eq_ok.mp h
  split at h
  · next hn =>
    split at h
    · next stop hs =>
      cases h
      exact .next (.skip hl hn hs)
    · cases h
  · next hn =>
    obtain ⟨frames, hf, h⟩ := Outcome.bind_eq_ok.mp h
    cases h
    exact .next (.enter hl (Int64.not_le.mp hn) hf)

private theorem effect_of_leaveBlock (h : machine.leaveBlock = .ok step) :
    Effect machine .endBlock step := by
  unfold leaveBlock at h
  split at h
  · cases h
  · next frame ht =>
    obtain ⟨index, hi, h⟩ := Outcome.bind_eq_ok.mp h
    obtain ⟨memory, hm, h⟩ := Outcome.bind_eq_ok.mp h
    rw [BoundedStack.pop_of_top ht] at h
    split at h
    · next hl =>
      cases h
      exact .next (.again ht hi hm hl)
    · next hl =>
      cases h
      exact .next (.leave ht hi hm hl (BoundedStack.pop_of_top ht))

/-- An instruction that is carried out has one of the effects of its operation. -/
theorem effect_of_perform {instruction : Instruction} (h : machine.perform instruction = .ok step) :
    Effect machine instruction.op step := by
  obtain ⟨op, operands, bounded⟩ := instruction
  cases op with
  | execute function => exact effect_of_call h
  | jump direction target => exact effect_of_follow rfl h
  | jumpIf direction branch =>
    obtain ⟨value, -, h⟩ := Outcome.bind_eq_ok.mp h
    split at h
    · exact effect_of_follow rfl h
    · cases h
      exact .next (.pass direction branch)
  | exit =>
    cases h
    exact .exit
  | beginBlock loop => exact effect_of_enterBlock h
  | endBlock => exact effect_of_leaveBlock h
  | _ => exact effect_of_advance rfl h

end Effects

/-! ### Refusals -/

/-- Why a machine cannot carry an operation out. -/
inductive Refusal (machine : Machine) : Op → Fault → Prop
  | memory {op : Op} {fault : Fault} (h : fault.OfMemory) : Refusal machine op fault
  | function {function : UInt32} (h : machine.functions.get? function.toNat = none) :
      Refusal machine (.execute function)
        { cause := .invalidFunction, instruction := some machine.pc }
  | jump {op : Op} (h : op.jumpTarget? machine.pc = some none) :
      Refusal machine op { cause := .invalidJumpTarget, instruction := some machine.pc }
  | skip {loop : Loop} (h : machine.program.blockEnd? machine.pc = none) :
      Refusal machine (.beginBlock loop)
        { cause := .unbalancedBlock, instruction := some machine.pc }
  | enter {loop : Loop} (h : machine.frames.limit ≤ machine.depth) :
      Refusal machine (.beginBlock loop)
        { cause := .blockOverflow, note := machine.frames.warning }
  | leave (h : machine.frames.top? = none) :
      Refusal machine .endBlock { cause := .unbalancedBlock, instruction := some machine.pc }

section Refusals

open Outcome

variable {machine : Machine}

private theorem refusal_of_memory {α : Type} {x : Except Fault α} (hx : Faults Fault.OfMemory x)
    (op : Op) :
    Faults (Refusal machine op) x :=
  fun fault h => .memory (hx fault h)

private theorem refusal_of_advance {op : Op} {stored : Except Fault Registers}
    (hs : Faults Fault.OfMemory stored) : Faults (Refusal machine op) (machine.advance stored) := by
  intro fault h
  cases stored with
  | ok memory => cases h
  | error cause =>
    cases h
    exact .memory (hs _ rfl)

private theorem refusal_of_call (function : UInt32) (operands : List Operand) :
    Faults (Refusal machine (.execute function)) (machine.call function operands) := by
  unfold call
  split
  · next hf => exact faults_error (.function hf)
  · dsimp only
    split
    · exact faults_ok _
    · exact faults_ok _

private theorem refusal_of_follow {op : Op} {direction : Direction} {target : UInt32}
    (hj : op.jump? = some (direction, target)) :
    Faults (Refusal machine op) (machine.follow direction target) := by
  unfold follow
  split
  · exact faults_ok _
  · next hn =>
    have ht : op.jumpTarget? machine.pc = some none := by
      simp [Op.jumpTarget?, hj, hn]
    exact faults_error (.jump ht)

private theorem refusal_of_push (loop : Loop) (frame : Frame) :
    Faults (Refusal machine (.beginBlock loop)) (machine.frames.push frame) := by
  unfold BoundedStack.push
  split
  · next hl => exact faults_error (.enter hl)
  · exact faults_ok _

private theorem refusal_of_enterBlock (loop : Loop) :
    Faults (Refusal machine (.beginBlock loop)) (machine.enterBlock loop) := by
  apply (refusal_of_memory (machine.memory.refusesFor_ofMemory.readInt loop.count) _).bind
  intro limit
  split
  · split
    · exact faults_ok _
    · next hn => exact faults_error (.skip hn)
  · exact (refusal_of_push loop _).bind fun _ => faults_ok _

private theorem refusal_of_leaveBlock : Faults (Refusal machine .endBlock) machine.leaveBlock := by
  unfold leaveBlock
  split
  · next hn => exact faults_error (.leave hn)
  · next frame ht =>
    apply (refusal_of_memory (machine.memory.refusesFor_ofMemory.readInt frame.index) _).bind
    intro index
    apply (refusal_of_memory (machine.memory.refusesFor_ofMemory.writeInt frame.index _) _).bind
    intro memory
    rw [BoundedStack.pop_of_top ht]
    split
    · exact faults_ok _
    · exact faults_ok _

private theorem addTo_faults (memory : Registers) (operand : Operand) (change : Int64) :
    Faults Fault.OfMemory (addTo memory operand change) := by
  apply (memory.refusesFor_ofMemory.readInt operand).bind
  intro value
  exact memory.refusesFor_ofMemory.writeInt operand (value + change)

/-- An instruction that is refused is refused for one of the reasons of its operation. -/
theorem refusal_of_perform (instruction : Instruction) :
    Faults (Refusal machine instruction.op) (machine.perform instruction) := by
  have hm := machine.memory.refusesFor_ofMemory
  obtain ⟨op, operands, bounded⟩ := instruction
  cases op with
  | execute function => exact refusal_of_call function operands
  | zero arg => exact refusal_of_advance (hm.zero arg)
  | setFalse arg => exact refusal_of_advance (hm.writeBool arg false)
  | setTrue arg => exact refusal_of_advance (hm.writeBool arg true)
  | copy transfer => exact refusal_of_advance (hm.copy _ _)
  | increment arg => exact refusal_of_advance (addTo_faults machine.memory arg 1)
  | decrement arg => exact refusal_of_advance (addTo_faults machine.memory arg (-1))
  | equals comparison =>
    apply refusal_of_advance
    apply (hm.equals comparison.left comparison.right).bind
    exact hm.writeBool comparison.result
  | notEquals comparison =>
    apply refusal_of_advance
    apply (hm.equals comparison.left comparison.right).bind
    intro same
    exact hm.writeBool comparison.result !same
  | jump direction target => exact refusal_of_follow rfl
  | jumpIf direction branch =>
    apply (refusal_of_memory (hm.readBool branch.condition) _).bind
    intro value
    split
    · exact refusal_of_follow rfl
    · exact faults_ok _
  | changeType retyping =>
    have hl : Fault.OfMemory { cause := .layoutTooLarge } := ⟨by decide, rfl⟩
    exact refusal_of_advance (hm.changeType _ _ fun _ _ => .inr hl)
  | exit => exact faults_ok _
  | beginBlock loop => exact refusal_of_enterBlock loop
  | endBlock => exact refusal_of_leaveBlock

end Refusals

end Machine

end RegisterMachine
