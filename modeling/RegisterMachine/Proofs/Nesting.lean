import Mathlib.Data.List.Forall2
import RegisterMachine.Proofs.Pairing
import RegisterMachine.Proofs.Runs

/-!
# Frames and the blocks around the cursor

Where no jump crosses the border of a block, the frames of a running machine are those of the blocks
around its cursor, however the cursor got there. So an instruction that ends a block finds the frame
of that block on top, and never none at all.
-/

namespace RegisterMachine

namespace BoundedStack

private theorem reverse_toList_of_top {α : Type} {stack : BoundedStack α} {top : α}
    (h : stack.top? = some top) :
    stack.toList.reverse = top :: stack.items.pop.toList.reverse := by
  have hlast : stack.items.toList.getLast? = some top := by
    rw [Array.getLast?_toList]
    exact h
  have hsplit := List.dropLast_append_getLast? top hlast
  rw [toList, Array.toList_pop]
  conv_lhs => rw [← hsplit]
  simp

end BoundedStack

namespace Program

/-- A frame repeats a block when it goes back behind the block's first instruction and counts the
rounds where that says. -/
def Repeats (program : Program) (frame : Machine.Frame) (block : Nat × Nat) : Prop :=
  frame.bodyStart = block.1 + 1 ∧
    ∃ instruction loop, program.instruction? block.1 = some instruction ∧
      instruction.op = .beginBlock loop ∧ frame.index = loop.index

/-- Every jump leads to an instruction that has the same blocks around it. -/
def JumpsWithinBlocks (program : Program) : Prop :=
  ∀ index instruction target, program.instruction? index = some instruction →
    instruction.op.jumpTarget? index = some (some target) →
    program.chain target = program.chain index

instance (program : Program) : Decidable program.JumpsWithinBlocks :=
  decidable_of_iff
    (∀ index < program.size, ∀ instruction ∈ program.instruction? index,
      ∀ target ∈ (instruction.op.jumpTarget? index).join,
        program.chain target = program.chain index) <| by
    constructor
    · intro h index instruction target hi ht
      obtain ⟨hlt, -⟩ := Array.getElem?_eq_some_iff.mp hi
      exact h index hlt instruction hi target (Option.join_eq_some_iff.mpr ht)
    · intro h index _ instruction hi target ht
      exact h index instruction target hi (Option.join_eq_some_iff.mp ht)

end Program

namespace Machine

open Linked

/-- The frames are those of the blocks around the cursor, innermost first. -/
def Mirrors (machine : Machine) : Prop :=
  List.Forall₂ machine.program.Repeats machine.frames.toList.reverse
    (around machine.program.linked.blocks machine.pc)

section Moves

variable {machine next : Machine} {instruction : Instruction}

private theorem Mirrors.goTo (h : Mirrors machine) {memory : Registers} {trace : Array TraceLine}
    {pc : Nat}
    (hpc : around machine.program.linked.blocks pc = around machine.program.linked.blocks machine.pc) :
    Mirrors { machine with memory, trace, pc } := by
  unfold Mirrors
  dsimp only
  rw [hpc]
  exact h

private theorem op?_of_instruction?
    (hi : machine.program.instruction? machine.pc = some instruction) :
    op? machine.program.linked.instructions machine.pc = some instruction.op :=
  Option.map_eq_some_iff.mpr ⟨instruction, hi, rfl⟩

/-- In front of the end of a block, the frame on top is the one of that block. -/
theorem Mirrors.top (h : Mirrors machine) (hp : machine.program.BlocksPaired)
    (hi : machine.program.instruction? machine.pc = some instruction)
    (hop : instruction.op = .endBlock) :
    ∃ start frame, (start, machine.pc) ∈ machine.program.linked.blocks ∧
      machine.frames.top? = some frame ∧ machine.program.Repeats frame (start, machine.pc) ∧
      List.Forall₂ machine.program.Repeats machine.frames.items.pop.toList.reverse
        (around machine.program.linked.blocks start) := by
  have hend := op?_of_instruction? hi
  rw [hop] at hend
  obtain ⟨start, hm⟩ := hp.ends machine.pc hend
  have haround := around_end hp.ordered hm (hp.brackets _ hm).lt
  unfold Mirrors at h
  rw [haround] at h
  cases ht : machine.frames.top? with
  | none =>
    rw [BoundedStack.toList_eq_nil_of_top ht] at h
    cases h
  | some frame =>
    rw [BoundedStack.reverse_toList_of_top ht] at h
    cases h with
    | cons hframe hrest => exact ⟨start, frame, hm, rfl, hframe, hrest⟩

private theorem Mirrors.move (h : Mirrors machine) (hp : machine.program.BlocksPaired)
    (hj : machine.program.JumpsWithinBlocks)
    (hi : machine.program.instruction? machine.pc = some instruction)
    (hm : Move machine instruction.op next) : Mirrors next := by
  have hat := op?_of_instruction? hi
  generalize hop : instruction.op = op at hm
  rw [hop] at hat
  cases hm with
  | @advance op hc memory trace =>
    apply h.goTo
    apply hp.around_succ
    · rintro loop hloop
      rw [hat] at hloop
      cases hloop
      cases hc
    · intro hend
      rw [hat] at hend
      cases hend
      cases hc
  | pass direction branch =>
    apply h.goTo
    apply hp.around_succ <;> simp [hat]
  | @jump op target ht =>
    rw [← hop] at ht
    exact h.goTo (List.reverse_injective (hj machine.pc instruction target hi ht))
  | @skip loop limit stop hl hn hs =>
    have hmem : (machine.pc, stop) ∈ machine.program.linked.blocks := mem_of_lookup hs
    exact h.goTo (around_behind hp.ordered hmem (hp.brackets _ hmem).lt)
  | @enter loop limit frames hl hpos hpush =>
    obtain ⟨-, rfl⟩ := BoundedStack.push_eq_ok_iff.mp hpush
    obtain ⟨stop, hmem⟩ := hp.begins machine.pc loop hat
    unfold Mirrors
    dsimp only [BoundedStack.toList]
    rw [around_begin hp.ordered hmem (hp.brackets _ hmem).lt, Array.toList_push,
      List.reverse_append]
    exact .cons ⟨rfl, instruction, loop, hi, hop, rfl⟩ h
  | @again frame index memory ht hread hwrite hl =>
    obtain ⟨start, top, hmem, htop, ⟨hbody, -⟩, -⟩ := h.top hp hi hop
    cases ht.symm.trans htop
    have hlt := (hp.brackets _ hmem).lt
    apply h.goTo
    rw [hbody, around_begin hp.ordered hmem hlt, around_end hp.ordered hmem hlt]
  | @leave frame index memory frames ht hread hwrite hl hpop =>
    obtain ⟨start, top, hmem, htop, -, hrest⟩ := h.top hp hi hop
    rw [BoundedStack.pop_of_top ht] at hpop
    cases hpop
    unfold Mirrors
    dsimp only [BoundedStack.toList]
    rw [around_behind hp.ordered hmem (hp.brackets _ hmem).lt]
    exact hrest

end Moves

/-! ### Runs -/

/-- A machine for the program whose frames, while it runs, are those of the blocks around its
cursor. -/
structure InBlocks (program : Program) (machine : Machine) : Prop where
  program_eq : machine.program = program
  mirrors : machine.phase = .running → Mirrors machine

namespace InBlocks

variable {program : Program} {machine : Machine}

private theorem kept (hp : program.BlocksPaired) (hj : program.JumpsWithinBlocks) :
    Kept (InBlocks program) where
  move machine next instruction hi hm h := by
    obtain ⟨rfl, hmirrors⟩ := h
    refine ⟨hm.program_eq, ?_⟩
    intro hrunning
    rw [hm.phase_eq] at hrunning
    exact (hmirrors hrunning).move hp hj hi hm
  halt machine phase hne h := ⟨h.program_eq, fun hrunning => absurd hrunning hne⟩
  interrupted machine interrupted h := ⟨h.program_eq, h.mirrors⟩
  clear machine hne h := ⟨h.program_eq, fun hrunning => absurd hrunning hne⟩

private theorem startAt (h : InBlocks program machine) {index : Nat}
    (hc : program.chain index = []) :
    InBlocks program (machine.startAt index) := by
  refine ⟨h.program_eq, ?_⟩
  intro _
  have hnone : around machine.program.linked.blocks index = [] := by
    rw [h.program_eq]
    exact List.reverse_eq_nil_iff.mp hc
  unfold Mirrors
  dsimp only [Machine.startAt, BoundedStack.clear, BoundedStack.toList]
  rw [hnone]
  exact .nil

private theorem starts?_eq {machine other : Machine} (h : machine.program = other.program)
    (operation : Operation) : machine.starts? operation = other.starts? operation := by
  cases operation <;> simp only [starts?, h]

private theorem after (hp : program.BlocksPaired) (hj : program.JumpsWithinBlocks)
    (h : InBlocks program machine) {operations : List Operation}
    (hstart : ∀ operation ∈ operations, ∀ index, machine.starts? operation = some index →
      program.chain index = []) : InBlocks program (machine.after operations) := by
  apply (kept hp hj).after _ h
  intro other operation hmem index ho hi
  have hsame : other.program = machine.program := ho.program_eq.trans h.program_eq.symm
  rw [starts?_eq hsame] at hi
  exact ho.startAt (hstart operation hmem index hi)

end InBlocks

private theorem Mirrors.cause_ne_unbalancedBlock {machine : Machine} {instruction : Instruction}
    (h : Mirrors machine) (hp : machine.program.BlocksPaired)
    (hi : machine.program.instruction? machine.pc = some instruction) {fault : Fault}
    (hr : Refusal machine instruction.op fault) : fault.cause ≠ .unbalancedBlock := by
  have hat := op?_of_instruction? hi
  generalize hop : instruction.op = op at hr
  rw [hop] at hat
  cases hr with
  | memory hf =>
    intro hcause
    have hmem := hf.cause
    rw [hcause] at hmem
    exact absurd hmem (by decide)
  | function hn => exact nofun
  | jump hn => exact nofun
  | @skip loop hn =>
    obtain ⟨stop, hm⟩ := hp.begins machine.pc loop hat
    cases hn.symm.trans (hp.lookup_eq_some_iff.mpr hm)
  | enter hl => exact nofun
  | leave hn =>
    obtain ⟨start, frame, -, ht, -⟩ := h.top hp hi hop
    cases hn.symm.trans ht

private theorem InBlocks.cause_ne_unbalancedBlock {program : Program} {machine final : Machine}
    {budget : Nat} {fault : Fault} (h : InBlocks program machine) (hp : program.BlocksPaired)
    (hj : program.JumpsWithinBlocks) (hf : machine.execute budget = (.faulted fault, final)) :
    fault.cause ≠ .unbalancedBlock := by
  obtain ⟨spent, before, cause, -, hrun, hstep, rfl, -⟩ := execute_eq_faulted hf
  have hbefore : InBlocks program before := by
    have hk := (kept hp hj).execute spent h
    rw [hrun] at hk
    exact hk
  obtain ⟨instruction, hi, hr⟩ := refusal_of_step hstep
  rw [← hbefore.program_eq] at hp
  rw [Fault.inInstruction_cause]
  exact (hbefore.mirrors (phase_of_execute_running hrun)).cause_ne_unbalancedBlock hp hi hr

/-- A machine runs a program in which no jump crosses the border of a block, and is only started
where no block is around. Whenever it is running, its frames are those of the blocks around the
cursor, the outermost first: each goes back behind the beginning of its block and counts where that
says. So an instruction that ends a block works on the frame of that block, and no slice is
refused for a block that is not open. -/
theorem frames_mirror_chain {code : Code} {program : Program}
    (hcode : Program.ofCode code = .ok program) (hjumps : program.JumpsWithinBlocks)
    (functions : FunctionTable) (memory : Registers) (maxDepth : Nat) {operations : List Operation}
    (hstart : ∀ operation ∈ operations, ∀ index,
      (create program functions memory maxDepth).starts? operation = some index →
      program.chain index = []) :
    let machine := (create program functions memory maxDepth).after operations
    (∀ index, (program.chain index).Pairwise
        (fun outer inner => outer.1 < inner.1 ∧ inner.2 < outer.2) ∧
      ∀ start stop, (start, stop) ∈ program.chain index ↔
        program.blockEnd? start = some stop ∧ start < index ∧ index ≤ stop) ∧
    (machine.phase = .running →
      List.Forall₂ program.Repeats machine.frames.toList (program.chain machine.pc) ∧
      machine.depth = (program.chain machine.pc).length ∧
      ∀ instruction, program.instruction? machine.pc = some instruction →
        instruction.op = .endBlock →
        ∃ start frame, program.blockEnd? start = some machine.pc ∧
          machine.frames.top? = some frame ∧ program.Repeats frame (start, machine.pc)) ∧
    ∀ budget fault final, machine.execute budget = (.faulted fault, final) →
      fault.cause ≠ .unbalancedBlock := by
  intro machine
  have hp := Program.blocksPaired_of_ofCode hcode
  have hcreated : InBlocks program (create program functions memory maxDepth) := ⟨rfl, nofun⟩
  have hin : InBlocks program machine := hcreated.after hp hjumps hstart
  refine ⟨fun index => ⟨hp.pairwise_chain index, fun _ _ => hp.mem_chain_iff⟩, ?_, ?_⟩
  · intro hrunning
    have hm := hin.mirrors hrunning
    have hall : List.Forall₂ program.Repeats machine.frames.toList (program.chain machine.pc) := by
      rw [← List.forall₂_reverse_iff, Program.chain, List.reverse_reverse, ← hin.program_eq]
      exact hm
    refine ⟨hall, ?_, ?_⟩
    · rw [← hall.length_eq]
      exact (Array.length_toList).symm
    · intro instruction hi hop
      rw [← hin.program_eq] at hi hp ⊢
      obtain ⟨start, frame, hmem, htop, hframe, -⟩ := hm.top hp hi hop
      exact ⟨start, frame, hp.lookup_eq_some_iff.mpr hmem, htop, hframe⟩
  · intro budget fault final hf
    exact hin.cause_ne_unbalancedBlock hp hjumps hf

/-- Two blocks of two rounds each, with a jump from the body of the inner one to its end, in front of
which the machine stands. -/
theorem frames_mirror_chain_inner :
    let code : Code :=
      { buffer := [81, 0, 1, 0, 0, 0, 0, 0, 0, 0, 0, 0, 0, 0, 0, 0, 0, 0,
          81, 0, 1, 0, 0, 0, 0, 0, 0, 0, 0, 0, 1, 0, 0, 0, 0, 0,
          74, 0, 1, 0, 0, 0, 82, 0, 82, 0], count := 5 }
    let counter : Register := { layout := .integer, bytes := List.replicate 8 0 }
    let memory : Registers :=
      { work := #[counter, counter], literal := #[counter.splice 0 [2]] }
    ∃ program, Program.ofCode code = .ok program ∧ program.JumpsWithinBlocks ∧
      let machine := (create program {} memory 2).after [.startAt 0, .execute 3]
      machine.phase = .running ∧ machine.depth = 2 ∧
        List.Forall₂ program.Repeats machine.frames.toList [(0, 4), (1, 3)] ∧
        ∃ start frame, program.blockEnd? start = some machine.pc ∧
          machine.frames.top? = some frame ∧ frame.bodyStart = start + 1 := by
  intro code counter memory
  obtain ⟨program, hp⟩ :=
    Outcome.isOk_iff.mp (show (Program.ofCode code).isOk = true by decide +kernel)
  have hfacts : (Program.ofCode code).map (fun program =>
      let machine := (create program {} memory 2).after [.startAt 0, .execute 3]
      decide (program.JumpsWithinBlocks ∧ program.chain 0 = [] ∧ machine.phase = .running ∧
        program.instruction? machine.pc = some { op := .endBlock } ∧
        program.chain machine.pc = [(0, 4), (1, 3)])) = .ok true := by decide +kernel
  rw [hp] at hfacts
  simp only [Except.map, Except.ok.injEq, decide_eq_true_eq] at hfacts
  obtain ⟨hjumps, hzero, hrunning, hend, hchain⟩ := hfacts
  have hstart : ∀ operation ∈ [Operation.startAt 0, .execute 3], ∀ index,
      (create program {} memory 2).starts? operation = some index → program.chain index = [] := by
    intro operation hmem index hi
    simp only [List.mem_cons, List.not_mem_nil, or_false] at hmem
    rcases hmem with rfl | rfl
    · cases hi
      exact hzero
    · cases hi
  obtain ⟨-, hframes, -⟩ := frames_mirror_chain hp hjumps {} memory 2 hstart
  obtain ⟨hall, hdepth, hends⟩ := hframes hrunning
  obtain ⟨start, frame, hblock, htop, hframe⟩ := hends _ hend rfl
  rw [hchain] at hall hdepth
  exact ⟨program, hp, hjumps, hrunning, hdepth, hall, start, frame, hblock, htop, hframe.1⟩

end Machine

end RegisterMachine
