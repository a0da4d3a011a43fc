import RegisterMachine.Proofs.Nesting
import RegisterMachine.Proofs.Slices
import RegisterMachine.Proofs.Windows

/-!
# How often a block is repeated

The state of a loop is spread out: its limit stands in a frame, its index in memory, and the rest is
where the cursor is. The body between the two ends of a block can be anything, other blocks included,
as long as it comes to the end of the block each time it is entered, with the frames and the index as
it found them. Then the number of its rounds is that from the index up to the limit, at least one, or
none at all where the limit is not positive. The limit is read when the block begins, and the body may
overwrite it.
-/

namespace RegisterMachine

private theorem Integer.toInt_succ {value : Int64} (h : value < Int64.maxValue) :
    (value + 1).toInt = value.toInt + 1 := by
  have hlow := Int64.le_toInt value
  have hhigh := Int64.lt_iff_toInt_lt.mp h
  rw [Int64.toInt_maxValue] at hhigh
  rw [Int64.toInt_add, show (1 : Int64).toInt = 1 from rfl]
  exact Int.bmod_eq_of_le (by omega) (by omega)

namespace Machine

/-! ### Counted runs -/

/-- How often the instruction at an index is carried out with these frames, over so many
instructions. -/
def visits (stop : Nat) (frames : BoundedStack Frame) : Nat → Machine → Nat
  | 0, _ => 0
  | budget + 1, machine =>
    (if machine.pc = stop ∧ machine.frames = frames then 1 else 0) +
      match machine.step with
      | .ok (.next next) => visits stop frames budget next
      | _ => 0

/-- Running on leads from one state to another without any event, and carries the instruction at an
index out so often with these frames on the way. -/
def Travels (stop : Nat) (frames : BoundedStack Frame) (count : Nat) (machine next : Machine) : Prop :=
  ∃ budget, machine.execute budget = (.running, next) ∧ machine.visits stop frames budget = count

variable {machine next : Machine} {stop : Nat} {frames : BoundedStack Frame}

private theorem ready_of_execute_running {budget : Nat}
    (h : machine.execute budget = (.running, next)) :
    machine.Ready := by
  unfold execute at h
  split at h
  · cases h
  · next hi =>
    split at h
    · next hp => exact ⟨eq_false_of_ne_true hi, hp⟩
    · cases h

private theorem visits_add {first : Nat} (h : machine.cycle first = (.running, next))
    (second : Nat) :
    machine.visits stop frames (first + second) =
      machine.visits stop frames first + next.visits stop frames second := by
  induction first generalizing machine with
  | zero =>
    cases h
    rw [Nat.zero_add, visits, Nat.zero_add]
  | succ first ih =>
    rw [cycle] at h
    rw [Nat.succ_add, visits, visits]
    split at h
    · next mid hs =>
      simp only [hs]
      rw [ih h, Nat.add_assoc]
    · cases h
    · cases h
    · cases h

namespace Travels

private theorem ready {count : Nat} (h : Travels stop frames count machine next) : next.Ready := by
  obtain ⟨budget, hrun, -⟩ := h
  have hready := ready_of_execute_running hrun
  rw [hready.execute_eq] at hrun
  exact hready.of_cycle_running hrun

private theorem program_eq {count : Nat} (h : Travels stop frames count machine next) :
    next.program = machine.program := by
  obtain ⟨budget, hrun, -⟩ := h
  have hkept := (kept_program machine.program).execute budget rfl
  rwa [hrun] at hkept

theorem of_step (h : machine.Ready) (hs : machine.step = .ok (.next next)) {count : Nat}
    (hc : (if machine.pc = stop ∧ machine.frames = frames then 1 else 0) = count) :
    Travels stop frames count machine next := by
  refine ⟨1, ?_, ?_⟩
  · rw [h.execute_eq, cycle, hs]
    rfl
  · simp only [visits, hs, Nat.add_zero, hc]

theorem trans {final : Machine} {first second : Nat} (h : Travels stop frames first machine next)
    (hn : Travels stop frames second next final) :
    Travels stop frames (first + second) machine final := by
  obtain ⟨budget, hrun, rfl⟩ := h
  obtain ⟨more, hmore, rfl⟩ := hn
  refine ⟨budget + more, ?_, ?_⟩
  · rw [execute_add, hrun, resume, hmore]
  · rw [(ready_of_execute_running hrun).execute_eq] at hrun
    exact visits_add hrun more

end Travels

/-! ### Loops -/

/-- The body of a block comes to the end of the block, with the frames that it was entered with and for
the first time with them. -/
structure Passes (stop : Nat) (entered reached : Machine) : Prop where
  travels : Travels stop entered.frames 0 entered reached
  pc : reached.pc = stop
  frames : reached.frames = entered.frames

/-- A run that has come to its first visit is not continued by one that still has none. -/
theorem eq_of_visits_eq_zero {reached other : Machine} {budget more : Nat}
    (hr : machine.execute budget = (.running, reached))
    (ho : machine.execute (budget + more) = (.running, other))
    (hv : machine.visits stop frames (budget + more) = 0) (hpc : reached.pc = stop)
    (hf : reached.frames = frames) : reached = other := by
  rw [execute_add, hr, resume] at ho
  rw [(ready_of_execute_running hr).execute_eq] at hr
  rw [visits_add hr] at hv
  cases more with
  | zero =>
    rw [(ready_of_execute_running ho).execute_eq] at ho
    cases ho
    rfl
  | succ more =>
    rw [visits, if_pos ⟨hpc, hf⟩] at hv
    omega

theorem Passes.unique {entered reached other : Machine} (hr : Passes stop entered reached)
    (ho : Passes stop entered other) : reached = other := by
  obtain ⟨⟨budget, hrun, hvisits⟩, hpc, hframes⟩ := hr
  obtain ⟨⟨longer, hrun', hvisits'⟩, hpc', hframes'⟩ := ho
  rcases Nat.le_total budget longer with hle | hle
  · obtain ⟨more, rfl⟩ := Nat.exists_eq_add_of_le hle
    exact eq_of_visits_eq_zero hrun hrun' hvisits' hpc hframes
  · obtain ⟨more, rfl⟩ := Nat.exists_eq_add_of_le hle
    exact (eq_of_visits_eq_zero hrun' hrun hvisits hpc' hframes').symm

/-- A machine in front of a block enters the body in this state: when the block begins, or when its
end sends the machine back after a round. -/
inductive Enters (machine : Machine) (stop : Nat) : Machine → Prop
  | begin {entered : Machine} (hs : machine.step = .ok (.next entered))
      (hpc : entered.pc = machine.pc + 1) : Enters machine stop entered
  | again {entered reached next : Machine} (he : Enters machine stop entered)
      (hp : Passes stop entered reached) (hs : reached.step = .ok (.next next))
      (hpc : next.pc = machine.pc + 1) : Enters machine stop next

/-- Each time the body of a block is entered, it comes to the end of the block, and the index is then
found where it was and with the value that it had. -/
def BodyKeeps (machine : Machine) (index : Operand) (stop : Nat) : Prop :=
  ∀ entered, machine.Enters stop entered → ∃ reached, Passes stop entered reached ∧
    reached.memory.element index = entered.memory.element index ∧
    reached.memory.readInt index = entered.memory.readInt index

/-- What holds whenever the body is entered need only be found when the block begins and kept by one
round. -/
theorem bodyKeeps_of_invariant {index : Operand} (Inv : Machine → Prop)
    (hbegin : ∀ entered, machine.step = .ok (.next entered) → Inv entered)
    (hround : ∀ entered, Inv entered → ∃ reached, Passes stop entered reached ∧
      reached.memory.element index = entered.memory.element index ∧
      reached.memory.readInt index = entered.memory.readInt index ∧
      ∀ next, reached.step = .ok (.next next) → next.pc = machine.pc + 1 → Inv next) :
    machine.BodyKeeps index stop := by
  have hall : ∀ entered, machine.Enters stop entered → Inv entered := by
    intro entered he
    induction he with
    | begin hs _ => exact hbegin _ hs
    | again _ hp hs hpc ih =>
      obtain ⟨reached, hpass, -, -, hnext⟩ := hround _ ih
      cases hpass.unique hp
      exact hnext _ hs hpc
  intro entered he
  obtain ⟨reached, hpass, helement, hvalue, -⟩ := hround entered (hall entered he)
  exact ⟨reached, hpass, helement, hvalue⟩

/-- A machine is about to begin a block that it has room for, with this limit and this index. The index
has a place of its own that a whole integer can be written to, and can be counted up. -/
structure AtBlock (machine : Machine) (loop : Loop) (stop : Nat) (limit index : Int64) : Prop where
  ready : machine.Ready
  begins : ∃ instruction, machine.program.instruction? machine.pc = some instruction ∧
    instruction.op = .beginBlock loop
  ends : machine.program.blockEnd? machine.pc = some stop
  room : machine.depth < machine.frames.limit
  limit_eq : machine.memory.readInt loop.count = .ok limit
  index_eq : machine.memory.readInt loop.index = .ok index
  direct : ∀ number, loop.index.element ≠ .indirect number
  writable : loop.index.bank ≠ .literal
  wide : ∃ register, machine.memory.register loop.index = .ok register ∧
    8 ≤ register.layout.elementSize.toNat
  index_lt : index < Int64.maxValue

/-- The frames inside a block that a machine begins with this limit. -/
def framesInside (machine : Machine) (loop : Loop) (limit : Int64) : BoundedStack Frame :=
  { machine.frames with
    items := machine.frames.items.push { bodyStart := machine.pc + 1, limit, index := loop.index } }

private theorem top?_framesInside (machine : Machine) (loop : Loop) (limit : Int64) :
    (machine.framesInside loop limit).top? =
      some { bodyStart := machine.pc + 1, limit, index := loop.index } :=
  Array.back?_push

private theorem pop_framesInside (machine : Machine) (loop : Loop) (limit : Int64) :
    (machine.framesInside loop limit).pop =
      .ok ({ bodyStart := machine.pc + 1, limit, index := loop.index }, machine.frames) := by
  rw [BoundedStack.pop_of_top (machine.top?_framesInside loop limit)]
  simp only [framesInside, Array.pop_push]

namespace AtBlock

variable {loop : Loop} {limit index : Int64}

private theorem step_eq_enterBlock (h : machine.AtBlock loop stop limit index) :
    machine.step = machine.enterBlock loop := by
  obtain ⟨⟨op, operands, bounded⟩, hi, rfl⟩ := h.begins
  exact step_eq_perform hi

private theorem step_of_pos (h : machine.AtBlock loop stop limit index) (hpos : 0 < limit) :
    machine.step = .ok (.next { machine with
      frames := machine.framesInside loop limit, pc := machine.pc + 1 }) := by
  have hpush : machine.frames.push { bodyStart := machine.pc + 1, limit, index := loop.index } =
      .ok (machine.framesInside loop limit) :=
    BoundedStack.push_eq_ok_iff.mpr ⟨h.room, rfl⟩
  rw [h.step_eq_enterBlock, enterBlock, h.limit_eq]
  simp only [bind, Except.bind, if_neg (Int64.not_le.mpr hpos), hpush, pure, Except.pure]

private theorem step_of_nonpos (h : machine.AtBlock loop stop limit index) (hn : limit ≤ 0) :
    machine.step = .ok (.next { machine with pc := stop + 1 }) := by
  rw [h.step_eq_enterBlock, enterBlock, h.limit_eq]
  simp only [bind, Except.bind, if_pos hn, h.ends, pure, Except.pure, goTo]

private theorem brackets (h : machine.AtBlock loop stop limit index)
    (hp : machine.program.BlocksPaired) :
    Linked.Brackets machine.program.linked.instructions (machine.pc, stop) :=
  hp.brackets _ (mem_of_lookup h.ends)

private theorem not_indexedBy (h : machine.AtBlock loop stop limit index) :
    ¬ loop.index.IndexedBy loop.index := by
  unfold Operand.IndexedBy
  split
  · next number hi => exact absurd hi (h.direct number)
  · exact not_false

/-- The index has a place with bytes enough for an integer. -/
theorem exists_element (h : machine.AtBlock loop stop limit index) :
    ∃ span, machine.memory.element loop.index = .ok span ∧ Integer.width ≤ span.size := by
  obtain ⟨register, hr, hwide⟩ := h.wide
  obtain ⟨bytes, hb, -⟩ := Outcome.bind_eq_ok.mp h.index_eq
  obtain ⟨span, hs, -⟩ := Outcome.bind_eq_ok.mp hb
  refine ⟨span, hs, ?_⟩
  rw [Registers.size_of_element hr hs]
  exact hwide

end AtBlock

/-- The invariant of the loop: the body is entered with the frames of the block, and the index has
this value in its place. -/
structure Underway (machine : Machine) (loop : Loop) (stop : Nat) (limit : Int64) (span : Span)
    (index : Int64) (entered : Machine) : Prop where
  enters : machine.Enters stop entered
  ready : entered.Ready
  program : entered.program = machine.program
  frames : entered.frames = machine.framesInside loop limit
  element : entered.memory.element loop.index = .ok span
  index_eq : entered.memory.readInt loop.index = .ok index

private theorem leaveBlock_eq {frame : Frame} {index : Int64} {stored : Registers}
    (ht : machine.frames.top? = some frame) (hi : machine.memory.readInt frame.index = .ok index)
    (hm : machine.memory.writeInt frame.index (index + 1) = .ok stored)
    (hf : machine.frames.pop = .ok (frame, frames)) :
    machine.leaveBlock = .ok (.next
      (if index + 1 < frame.limit then { machine with memory := stored, pc := frame.bodyStart }
      else { machine with memory := stored, frames, pc := machine.pc + 1 })) := by
  simp only [leaveBlock, ht, hi, hm, hf, bind, Except.bind, pure, Except.pure]
  split <;> rfl

section Rounds

variable {loop : Loop} {limit first index : Int64} {span : Span} {entered : Machine}

/-- The end of the block counts the index up, and then sends the machine back or lets it go. -/
theorem AtBlock.step_of_reached (h : machine.AtBlock loop stop limit first)
    (hp : machine.program.BlocksPaired) (reached : Machine)
    (hprogram : reached.program = machine.program) (hpc : reached.pc = stop)
    (hframes : reached.frames = machine.framesInside loop limit)
    (hindex : reached.memory.readInt loop.index = .ok index) {stored : Registers}
    (hstored : reached.memory.writeInt loop.index (index + 1) = .ok stored) :
    reached.step = .ok (.next
      (if index + 1 < limit then { reached with memory := stored, pc := machine.pc + 1 }
      else { reached with memory := stored, frames := machine.frames, pc := stop + 1 })) := by
  obtain ⟨⟨op, operands, bounded⟩, hi, rfl⟩ := Option.map_eq_some_iff.mp (h.brackets hp).ends
  have hat : reached.program.instruction? reached.pc =
      some { op := .endBlock, operands, bounded } := by
    rw [hprogram, hpc]
    exact hi
  have htop := machine.top?_framesInside loop limit
  have hpop := machine.pop_framesInside loop limit
  rw [← hframes] at htop hpop
  have hleave := leaveBlock_eq htop hindex hstored hpop
  rw [step_eq_perform hat, ← hpc]
  exact hleave

/-- One round: the body comes to the end of the block, and that sends the machine back with the index
counted up or lets it go. -/
theorem Underway.round (h : machine.AtBlock loop stop limit first)
    (hp : machine.program.BlocksPaired) (hbody : machine.BodyKeeps loop.index stop)
    (hsize : Integer.width ≤ span.size)
    (hu : machine.Underway loop stop limit span index entered) :
    ∃ next, Travels stop (machine.framesInside loop limit) 1 entered next ∧
      next.memory.readInt loop.index = .ok (index + 1) ∧
      if index + 1 < limit then machine.Underway loop stop limit span (index + 1) next
      else next.pc = stop + 1 ∧ next.frames = machine.frames := by
  obtain ⟨reached, hpass, helement, hvalue⟩ := hbody entered hu.enters
  have hprogram : reached.program = machine.program := hpass.travels.program_eq.trans hu.program
  have hframes : reached.frames = machine.framesInside loop limit := hpass.frames.trans hu.frames
  obtain ⟨stored, hstored, hplace, hread⟩ :=
    Registers.readInt_writeInt (helement.trans hu.element) h.writable h.not_indexedBy hsize (index + 1)
  have hstep := h.step_of_reached hp reached hprogram hpass.pc hframes (hvalue.trans hu.index_eq)
    hstored
  have hpassed : Travels stop (machine.framesInside loop limit) 0 entered reached := by
    have ht := hpass.travels
    rwa [hu.frames] at ht
  have hcounted {next : Machine} (hs : reached.step = .ok (.next next)) :
      Travels stop (machine.framesInside loop limit) 1 entered next :=
    hpassed.trans (.of_step hpassed.ready hs (if_pos ⟨hpass.pc, hframes⟩))
  by_cases hl : index + 1 < limit
  · rw [if_pos hl] at hstep
    have ht := hcounted hstep
    refine ⟨_, ht, hread, ?_⟩
    rw [if_pos hl]
    exact ⟨.again hu.enters hpass hstep rfl, ht.ready, hprogram, hframes, hplace, hread⟩
  · rw [if_neg hl] at hstep
    refine ⟨_, hcounted hstep, hread, ?_⟩
    rw [if_neg hl]
    exact ⟨rfl, rfl⟩

/-- All rounds from an index on: as many as it takes to bring it to the limit, but at least one. -/
theorem Underway.rounds (h : machine.AtBlock loop stop limit first)
    (hp : machine.program.BlocksPaired) (hbody : machine.BodyKeeps loop.index stop)
    (hsize : Integer.width ≤ span.size)
    (hu : machine.Underway loop stop limit span index entered) (hlt : index < Int64.maxValue) :
    ∃ count final last, Travels stop (machine.framesInside loop limit) count entered final ∧
      final.pc = stop + 1 ∧ final.frames = machine.frames ∧
      final.memory.readInt loop.index = .ok last ∧
      last.toInt = max limit.toInt (index.toInt + 1) ∧ last.toInt = index.toInt + count := by
  -- The induction is on how far the index is below the limit: a round that is not the last brings it
  -- nearer by one.
  induction hn : (limit.toInt - index.toInt).toNat using Nat.strongRecOn
    generalizing index entered with
  | ind left ih =>
    obtain ⟨next, ht, hread, hnext⟩ := hu.round h hp hbody hsize
    have hsucc := Integer.toInt_succ hlt
    have hless : index + 1 < limit ↔ index.toInt + 1 < limit.toInt := by
      rw [Int64.lt_iff_toInt_lt, hsucc]
    by_cases hl : index + 1 < limit
    · have hbelow := hless.mp hl
      rw [if_pos hl] at hnext
      obtain ⟨count, final, last, htravels, hpc, hframes, hlast, hvalue, hcount⟩ :=
        ih _ (by omega) hnext (Int64.lt_of_lt_of_le hl (Int64.le_maxValue limit)) rfl
      exact ⟨1 + count, final, last, ht.trans htravels, hpc, hframes, hlast, by omega, by omega⟩
    · rw [if_neg hl] at hnext
      obtain ⟨hpc, hframes⟩ := hnext
      have habove := mt hless.mpr hl
      exact ⟨1, next, index + 1, ht, hpc, hframes, hread, by omega, by omega⟩

/-- A block whose body keeps the loop is repeated from the index up to the limit, once if the index is
there already, and not at all if the limit is not positive. The machine is then behind the block with
the frames that it had in front of it. What the limit was read from does not matter any more. -/
theorem block_rounds {code : Code} (hcode : Program.ofCode code = .ok machine.program)
    (h : machine.AtBlock loop stop limit first) (hbody : machine.BodyKeeps loop.index stop) :
    ∃ count final, Travels stop (machine.framesInside loop limit) count machine final ∧
      final.pc = stop + 1 ∧ final.frames = machine.frames ∧
      (0 < limit → first < limit →
        (count : Int) = limit.toInt - first.toInt ∧
        final.memory.readInt loop.index = .ok limit) ∧
      (0 < limit → limit ≤ first →
        count = 1 ∧ ∃ last, final.memory.readInt loop.index = .ok last ∧
          last.toInt = first.toInt + 1) ∧
      (limit ≤ 0 → count = 0 ∧ final.memory = machine.memory) := by
  have hp := Program.blocksPaired_of_ofCode hcode
  have hbrackets := (h.brackets hp).lt
  have hoff : ¬ (machine.pc = stop ∧ machine.frames = machine.framesInside loop limit) :=
    fun hat => absurd hat.1 (Nat.ne_of_lt hbrackets)
  by_cases hpos : 0 < limit
  · have hstep := h.step_of_pos hpos
    have hbegun : Travels stop (machine.framesInside loop limit) 0 machine _ :=
      .of_step h.ready hstep (if_neg hoff)
    obtain ⟨span, helement, hsize⟩ := h.exists_element
    have hu : machine.Underway loop stop limit span first _ :=
      ⟨.begin hstep rfl, hbegun.ready, rfl, rfl, helement, h.index_eq⟩
    obtain ⟨count, final, last, ht, hpc, hframes, hlast, hvalue, hcount⟩ :=
      hu.rounds h hp hbody hsize h.index_lt
    refine ⟨0 + count, final, hbegun.trans ht, hpc, hframes, ?_, ?_, ?_⟩
    · intro _ hlt
      have hbelow := Int64.lt_iff_toInt_lt.mp hlt
      have hlimit : last = limit := Int64.toInt_inj.mp (by omega)
      rw [hlimit] at hlast hcount
      exact ⟨by omega, hlast⟩
    · intro _ hle
      have habove := Int64.le_iff_toInt_le.mp hle
      exact ⟨by omega, last, hlast, by omega⟩
    · exact fun hn => absurd hpos (Int64.not_lt.mpr hn)
  · have hn := Int64.not_lt.mp hpos
    refine ⟨0, _, .of_step h.ready (h.step_of_nonpos hn) (if_neg hoff), rfl, rfl, ?_, ?_, ?_⟩
    · exact fun hp => absurd hp hpos
    · exact fun hp => absurd hp hpos
    · exact fun _ => ⟨rfl, rfl⟩

/-- Two rounds of a block whose body clears the register that the limit was read from. -/
theorem block_rounds_limit_cleared :
    let code : Code :=
      { buffer := [81, 0, 0, 0, 1, 0, 0, 0, 0, 0, 0, 0, 0, 0, 0, 0, 0, 0,
          65, 0, 0, 0, 1, 0, 0, 0, 0, 0, 82, 0], count := 3 }
    let counter (low : UInt8) : Register := { layout := .integer, bytes := low :: List.replicate 7 0 }
    let memory (index limit : UInt8) : Registers := { work := #[counter index, counter limit] }
    let loop : Loop := { count := .work 1, index := .work 0 }
    ∃ program, Program.ofCode code = .ok program ∧
      let machine := (create program {} (memory 0 2) 1).startAt 0
      ∃ final, Travels 2 (machine.framesInside loop 2) 2 machine final ∧ final.pc = 3 ∧
        final.frames = machine.frames ∧ final.memory.readInt (.work 0) = .ok 2 := by
  intro code counter memory loop
  obtain ⟨program, hp⟩ :=
    Outcome.isOk_iff.mp (show (Program.ofCode code).isOk = true by decide +kernel)
  have hfacts : (Program.ofCode code).map (fun program =>
      decide (program.instruction? 0 = some { op := .beginBlock loop } ∧
        program.instruction? 1 = some { op := .zero (.work 1) } ∧
        program.blockEnd? 0 = some 2)) = .ok true := by decide +kernel
  rw [hp] at hfacts
  simp only [Except.map, Except.ok.injEq, decide_eq_true_eq] at hfacts
  obtain ⟨hbegins, hclears, hends⟩ := hfacts
  refine ⟨program, hp, ?_⟩
  intro machine
  have hat : machine.AtBlock loop 2 2 0 :=
    { ready := .startAt _ 0
      begins := ⟨_, hbegins, rfl⟩
      ends := hends
      room := Nat.zero_lt_one
      limit_eq := show (memory 0 2).readInt (.work 1) = .ok 2 by decide
      index_eq := show (memory 0 2).readInt (.work 0) = .ok 0 by decide
      direct := fun _ hindirect => by cases hindirect
      writable := by decide
      wide := ⟨counter 0, rfl, by decide⟩
      index_lt := by decide }
  let inside (memory : Registers) (pc : Nat) : Machine :=
    { machine with memory, frames := machine.framesInside loop 2, pc }
  have hpass (index limit : UInt8)
      (hz : (memory index limit).zero (.work 1) = .ok (memory index 0)) :
      Passes 2 (inside (memory index limit) 1) (inside (memory index 0) 2) := by
    have hstep : (inside (memory index limit) 1).step =
        .ok (.next (inside (memory index 0) 2)) := by
      rw [step_eq_perform hclears]
      change advance _ ((memory index limit).zero (.work 1)) = _
      rw [hz]
      rfl
    have hoff : (1 : Nat) ≠ 2 := by decide
    exact ⟨.of_step ⟨rfl, rfl⟩ hstep (if_neg fun hat => hoff hat.1), rfl, rfl⟩
  have hpaired := Program.blocksPaired_of_ofCode hp
  have hback : (inside (memory 0 0) 2).step = .ok (.next (inside (memory 1 0) 1)) :=
    hat.step_of_reached hpaired (inside (memory 0 0) 2) rfl rfl rfl
      (show (memory 0 0).readInt (.work 0) = .ok 0 by decide)
      (show (memory 0 0).writeInt (.work 0) 1 = .ok (memory 1 0) by decide)
  have hleave : (inside (memory 1 0) 2).step =
      .ok (.next { inside (memory 2 0) 3 with frames := machine.frames }) :=
    hat.step_of_reached hpaired (inside (memory 1 0) 2) rfl rfl rfl
      (show (memory 1 0).readInt (.work 0) = .ok 1 by decide)
      (show (memory 1 0).writeInt (.work 0) 2 = .ok (memory 2 0) by decide)
  have hbody : machine.BodyKeeps loop.index 2 := by
    apply bodyKeeps_of_invariant fun entered =>
      entered = inside (memory 0 2) 1 ∨ entered = inside (memory 1 0) 1
    · intro entered hs
      cases (hat.step_of_pos (by decide)).symm.trans hs
      exact .inl rfl
    · rintro _ (rfl | rfl)
      · refine ⟨_, hpass 0 2 (by decide), rfl, rfl, ?_⟩
        intro next hs _
        cases hback.symm.trans hs
        exact .inr rfl
      · refine ⟨_, hpass 1 0 (by decide), rfl, rfl, ?_⟩
        intro next hs hpc
        cases hleave.symm.trans hs
        cases hpc
  obtain ⟨count, final, ht, hpc, hframes, hcount, -⟩ := block_rounds hp hat hbody
  obtain ⟨hrounds, hindex⟩ := hcount (by decide) (by decide)
  cases (show count = 2 from Int.ofNat.inj hrounds)
  exact ⟨final, ht, hpc, hframes, hindex⟩

end Rounds

end Machine

end RegisterMachine
