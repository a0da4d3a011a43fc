import RegisterMachine.Proofs.Runs
import RegisterMachine.Proofs.Stores

/-!
# Working in place

`Machine.step` says what an instruction comes to and leaves alone the machine that refuses it. A
machine that works in place changes its memory, its frames and its cursor one after the other, and
what it changed before a refusal stays changed. Here requests, instructions and slices are spelled
out in that way, check by check and change by change, and shown to come to the same: nothing is
changed before the last check that can fail.
-/

namespace RegisterMachine

open InPlace

/-! ### Requests -/

namespace Registers

/-- Overwrite what an operand resolves to, once its bank is known to be writable. -/
def overwrite (operand : Operand) (resolve : Registers → Except Fault Span)
    (content : Span → List UInt8) : EStateM Fault Registers Unit := do
  let span ← inspect resolve
  inspect fun _ => checkWritable operand
  modify fun memory => memory.store operand span.start (content span)

/-- Copy a range of one register into another. The target is taken out of its bank while the source
is read, and put back whether the source is found or not. -/
def copyBetween (source target : Operand) (span : Span) (start : Nat) :
    EStateM Fault Registers Unit := do
  let taken ← inspect fun memory => memory.register target
  modify fun memory => memory.update target fun _ => { layout := {}, bytes := [] }
  let found := (← get).register source
  modify fun memory => memory.update target fun _ =>
    match found with
    | .ok register => taken.splice start (register.slice span)
    | .error _ => taken
  inspect fun _ => found.map fun _ => ()

def copyInPlace (source target : Operand) : EStateM Fault Registers Unit := do
  let origin ← inspect fun memory => memory.region source
  let goal ← inspect fun memory => memory.region target
  inspect fun _ => checkWritable target
  let span := { origin with size := min origin.size goal.size }
  if SameRegister source target then
    modify fun memory => memory.update target fun register =>
      register.splice goal.start (register.slice span)
  else copyBetween source target span goal.start

def changeTypeInPlace (operand : Operand) (layout : Layout) : EStateM Fault Registers Unit := do
  inspect fun _ => checkWritable operand
  let register ← inspect fun memory => memory.register operand
  if layout.fitsIn register.capacity then
    modify fun memory => memory.update operand ({ · with layout })
  else throw { cause := .layoutTooLarge }

def serveInPlace : (request : Request) → EStateM Fault Registers request.Reply
  | .layout operand => inspect fun memory => memory.layout operand
  | .capacity operand => inspect fun memory => memory.capacity operand
  | .readBool operand => inspect fun memory => memory.readBool operand
  | .writeBool operand value =>
    overwrite operand (fun memory => memory.element operand) fun span =>
      Truth.toBytes span.size value
  | .readInt operand => inspect fun memory => memory.readInt operand
  | .writeInt operand value =>
    overwrite operand (fun memory => memory.element operand) fun span =>
      Integer.toBytes span.size value
  | .zero operand =>
    overwrite operand (fun memory => memory.region operand) fun span => List.replicate span.size 0
  | .copy source target => copyInPlace source target
  | .equals left right => inspect fun memory => memory.equals left right
  | .changeType operand layout => changeTypeInPlace operand layout

/-- A reply and the memory it left, as work on memory comes to them. -/
def replied {α : Type} : Except Fault α × Registers → EStateM.Result Fault Registers α
  | (.ok reply, memory) => .ok reply memory
  | (.error fault, memory) => .error fault memory

variable {memory : Registers}

theorem replied_commit (stored : Except Fault Registers) :
    replied (memory.commit stored) = settle memory (stored.map fun next => ((), next)) := by
  cases stored <;> rfl

private theorem run_inspect_eq_replied {α : Type} (view : Registers → Except Fault α) :
    (inspect view).run memory = replied (view memory, memory) := by
  cases hv : view memory with
  | ok a => exact run_inspect_ok hv
  | error fault => exact run_inspect_error hv

private theorem run_overwrite (operand : Operand) (resolve : Registers → Except Fault Span)
    (content : Span → List UInt8) :
    (overwrite operand resolve content).run memory = replied (memory.commit (do
      let span ← resolve memory
      checkWritable operand
      return memory.store operand span.start (content span))) := by
  rw [replied_commit, Outcome.map_bind]
  apply run_inspect_bind
  intro span _
  rw [Outcome.map_bind]
  apply run_inspect_bind
  intro _ _
  rfl

theorem slice_take (register : Register) (span : Span) (size : Nat) :
    (register.slice span).take size =
      register.slice { span with size := min span.size size } := by
  simp [Register.slice, List.take_take, Nat.min_comm]

theorem register_of_sameRegister {source target : Operand} (h : SameRegister source target) :
    memory.register source = memory.register target := by
  unfold Registers.register
  rw [h.1, h.2]

/-- Taking the target out does not disturb the source. -/
theorem run_copyBetween {source target : Operand} {read taken : Register}
    (hne : ¬ SameRegister source target) (hread : memory.register source = .ok read)
    (htaken : memory.register target = .ok taken) (span : Span) (start : Nat) :
    (copyBetween source target span start).run memory =
      .ok () (memory.store target start (read.slice span)) := by
  have hfound : (memory.update target fun _ => { layout := {}, bytes := [] }).register source =
      .ok read := (register_update_of_ne hne _).trans hread
  have hstored : memory.update target (fun _ => taken.splice start (read.slice span)) =
      memory.store target start (read.slice span) := update_congr htaken rfl
  have htake : (inspect fun memory => memory.register target).run memory = .ok taken memory :=
    run_inspect_ok htaken
  simp only [copyBetween, EStateM.run_bind, htake, EStateM.run_modify, EStateM.run_get, hfound,
    update_update, Function.comp_def, hstored]
  rfl

theorem run_copyInPlace (source target : Operand) :
    (copyInPlace source target).run memory = replied (memory.commit (memory.copy source target)) := by
  rw [replied_commit]
  simp only [Registers.copy, regionBytes, Outcome.map_bind, bind_assoc]
  apply run_inspect_bind
  intro origin horigin
  obtain ⟨read, hread, -⟩ := region_eq_ok horigin
  rw [hread]
  apply run_inspect_bind
  intro goal hgoal
  obtain ⟨taken, htaken, -⟩ := region_eq_ok hgoal
  apply run_inspect_bind
  intro _ _
  change _ = EStateM.Result.ok () (memory.store target goal.start ((read.slice origin).take goal.size))
  rw [slice_take]
  split
  · next hsame =>
    -- One register: it is read and overwritten where it stands.
    obtain rfl : taken = read :=
      Except.ok.inj (htaken.symm.trans ((register_of_sameRegister hsame).symm.trans hread))
    rw [EStateM.run_modify]
    exact congrArg (EStateM.Result.ok ()) (update_congr htaken rfl)
  · next hne => exact run_copyBetween hne hread htaken _ _

private theorem run_changeTypeInPlace (operand : Operand) (layout : Layout) :
    (changeTypeInPlace operand layout).run memory =
      replied (memory.commit (memory.changeType operand layout)) := by
  rw [replied_commit]
  simp only [Registers.changeType, Outcome.map_bind]
  apply run_inspect_bind
  intro _ _
  apply run_inspect_bind
  intro register _
  split <;> rfl

/-- A request that is served in place comes to what it comes to. -/
theorem run_serveInPlace (request : Request) :
    (serveInPlace request).run memory = replied (memory.serve request) := by
  cases request with
  | writeBool operand value => exact run_overwrite operand _ _
  | writeInt operand value => exact run_overwrite operand _ _
  | zero operand => exact run_overwrite operand _ _
  | copy source target => exact run_copyInPlace source target
  | changeType operand layout => exact run_changeTypeInPlace operand layout
  | _ => exact run_inspect_eq_replied _

end Registers

/-! ### Instructions -/

namespace Machine

/-- How a machine that works in place comes out of an instruction. -/
inductive Turn
  | next
  | exit
  /-- A host function failed, and the machine has moved past the call. -/
  | hostError (fault : Fault)

/-- The machine with the memory that a reply left. -/
def adopt {α : Type} (machine : Machine) :
    Except Fault α × Registers → EStateM.Result Fault Machine α
  | (.ok reply, memory) => .ok reply { machine with memory }
  | (.error fault, memory) => .error fault { machine with memory }

def ask (request : Request) : EStateM Fault Machine request.Reply := fun machine =>
  match (Registers.serveInPlace request).run machine.memory with
  | .ok reply memory => .ok reply { machine with memory }
  | .error fault memory => .error fault { machine with memory }

/-- Carry out a routine request by request; it hears of the requests that are refused. -/
def carryOut {α : Type} : Routine α → EStateM Fault Machine α
  | .done result => inspect fun _ => result
  | .ask request next => do
    let reply ← attempt (ask request)
    carryOut (next reply)
  | .log line next => do
    modify fun machine => { machine with trace := machine.trace.push line }
    carryOut next

def moveTo (pc : Nat) : EStateM Fault Machine Turn := do
  modify fun machine => { machine with pc }
  return .next

def jumpTo (direction : Direction) (target : UInt32) : EStateM Fault Machine Turn := do
  let machine ← get
  match direction.resolve machine.pc target with
  | some place => moveTo place
  | none => throw { cause := .invalidJumpTarget, instruction := some machine.pc }

def pushFrame (frame : Frame) : EStateM Fault Machine Unit := fun machine =>
  match machine.frames.push frame with
  | .ok frames => .ok () { machine with frames }
  | .error fault => .error fault machine

def popFrame : EStateM Fault Machine Unit := fun machine =>
  match machine.frames.pop with
  | .ok (_, frames) => .ok () { machine with frames }
  | .error fault => .error fault machine

def callInPlace (function : UInt32) (operands : List Operand) : EStateM Fault Machine Turn := do
  let machine ← get
  match machine.functions.get? function.toNat with
  | none => throw { cause := .invalidFunction, instruction := some machine.pc }
  | some host =>
    match ← attempt (carryOut (host.body operands)) with
    | .ok () => moveTo (machine.pc + 1)
    | .error fault =>
      modify fun machine => { machine with pc := machine.pc + 1 }
      return .hostError (fault.inInstruction machine.pc)

def enterInPlace (loop : Loop) : EStateM Fault Machine Turn := do
  let machine ← get
  let limit : Int64 ← ask (.readInt loop.count)
  if limit ≤ 0 then
    match machine.program.blockEnd? machine.pc with
    | some stop => moveTo (stop + 1)
    | none => throw { cause := .unbalancedBlock, instruction := some machine.pc }
  else
    pushFrame { bodyStart := machine.pc + 1, limit, index := loop.index }
    moveTo (machine.pc + 1)

/-- The round is counted in memory before the block is left, and the frame is taken off last. -/
def leaveInPlace : EStateM Fault Machine Turn := do
  let machine ← get
  match machine.frames.top? with
  | none => throw { cause := .unbalancedBlock, instruction := some machine.pc }
  | some frame =>
    let index : Int64 ← ask (.readInt frame.index)
    ask (.writeInt frame.index (index + 1))
    if index + 1 < frame.limit then moveTo frame.bodyStart
    else
      popFrame
      moveTo (machine.pc + 1)

/-- The outcome of a transition, with the machine that it leaves. -/
def Step.turn (machine : Machine) : Step → Turn × Machine
  | .next reached => (.next, reached)
  | .exit => (.exit, machine)
  | .hostError fault reached => (.hostError fault, reached)

def performInPlace (instruction : Instruction) : EStateM Fault Machine Turn := do
  let next := (← get).pc + 1
  match instruction.op with
  | .execute function => callInPlace function instruction.operands
  | .zero arg =>
    ask (.zero arg)
    moveTo next
  | .setFalse arg =>
    ask (.writeBool arg false)
    moveTo next
  | .setTrue arg =>
    ask (.writeBool arg true)
    moveTo next
  | .copy transfer =>
    ask (.copy transfer.source transfer.target)
    moveTo next
  | .increment arg =>
    let value : Int64 ← ask (.readInt arg)
    ask (.writeInt arg (value + 1))
    moveTo next
  | .decrement arg =>
    let value : Int64 ← ask (.readInt arg)
    ask (.writeInt arg (value - 1))
    moveTo next
  | .equals comparison =>
    let same : Bool ← ask (.equals comparison.left comparison.right)
    ask (.writeBool comparison.result same)
    moveTo next
  | .notEquals comparison =>
    let same : Bool ← ask (.equals comparison.left comparison.right)
    ask (.writeBool comparison.result !same)
    moveTo next
  | .jump direction target => jumpTo direction target
  | .jumpIf direction branch =>
    let value : Bool ← ask (.readBool branch.condition)
    if value = branch.polarity then jumpTo direction branch.target else moveTo next
  | .changeType retyping =>
    ask (.changeType retyping.arg retyping.layout)
    moveTo next
  | .exit => return .exit
  | .beginBlock loop => enterInPlace loop
  | .endBlock => leaveInPlace

theorem run_ask (machine : Machine) (request : Request) :
    (ask request).run machine = machine.adopt (machine.memory.serve request) := by
  have h : (ask request).run machine =
      match (Registers.serveInPlace request).run machine.memory with
      | .ok reply memory => .ok reply { machine with memory }
      | .error fault memory => .error fault { machine with memory } := rfl
  rw [h, Registers.run_serveInPlace]
  rcases machine.memory.serve request with ⟨fault | reply, memory⟩ <;> rfl

variable {machine : Machine}

/-- A request that only reads is a look at the machine. -/
theorem run_ask_bind {β : Type} {request : Request} {reply : Except Fault request.Reply}
    (hr : machine.memory.serve request = (reply, machine.memory))
    {next : request.Reply → EStateM Fault Machine β}
    {outcome : request.Reply → Except Fault (β × Machine)}
    (h : ∀ a, reply = .ok a → (next a).run machine = settle machine (outcome a)) :
    (ask request >>= next).run machine = settle machine (reply >>= outcome) := by
  rw [EStateM.run_bind, run_ask, hr]
  cases reply with
  | error fault => rfl
  | ok a => exact h a rfl

/-- What is left to do behind a store must not fail. -/
theorem run_store_bind {store : EStateM Fault Machine Unit} {stored : Except Fault Registers}
    (hs : store.run machine = machine.adopt (machine.memory.commit stored))
    {next : EStateM Fault Machine Turn} {reached : Registers → Machine}
    (h : ∀ memory, next.run { machine with memory } = .ok .next (reached memory)) :
    (store >>= fun _ => next).run machine =
      settle machine ((stored.map fun memory => Step.next (reached memory)).map
        (Step.turn machine)) := by
  rw [EStateM.run_bind, hs]
  cases stored with
  | error fault => rfl
  | ok memory => exact h memory

/-- A store, with the cursor moved on behind it, is an advance. -/
theorem run_store_moveTo {store : EStateM Fault Machine Unit} {stored : Except Fault Registers}
    (hs : store.run machine = machine.adopt (machine.memory.commit stored)) :
    (store >>= fun _ => moveTo (machine.pc + 1)).run machine =
      settle machine ((machine.advance stored).map (Step.turn machine)) :=
  run_store_bind hs fun _ => rfl

/-- So is one that reads in between. -/
theorem run_ask_store_moveTo {request : Request} {reply : Except Fault request.Reply}
    (hr : machine.memory.serve request = (reply, machine.memory))
    {store : request.Reply → EStateM Fault Machine Unit}
    {stored : request.Reply → Except Fault Registers}
    (hs : ∀ a, (store a).run machine = machine.adopt (machine.memory.commit (stored a))) :
    (ask request >>= fun a => store a >>= fun _ => moveTo (machine.pc + 1)).run machine =
      settle machine ((machine.advance (reply >>= stored)).map (Step.turn machine)) := by
  rw [advance, Outcome.map_bind, Outcome.map_bind]
  apply run_ask_bind hr
  intro a _
  exact run_store_moveTo (hs a)

theorem run_pushFrame (frame : Frame) :
    (pushFrame frame).run machine = settle machine
      ((machine.frames.push frame).map fun frames => ((), { machine with frames })) := by
  have h : (pushFrame frame).run machine =
      match machine.frames.push frame with
      | .ok frames => .ok () { machine with frames }
      | .error fault => .error fault machine := rfl
  rw [h]
  cases machine.frames.push frame <;> rfl

theorem run_popFrame {frame : Frame} (h : machine.frames.top? = some frame) :
    popFrame.run machine =
      .ok () { machine with frames := { machine.frames with items := machine.frames.items.pop } } := by
  simp only [EStateM.run, popFrame, BoundedStack.pop_of_top h]

theorem run_carryOut {α : Type} (routine : Routine α) :
    (carryOut routine).run machine =
      let outcome := routine.run machine.memory
      { machine with trace := machine.trace ++ outcome.trace }.adopt
        (outcome.result, outcome.memory) := by
  induction routine generalizing machine with
  | done result =>
    cases result with
    | ok a => simp [carryOut, EStateM.run, inspect, Routine.run, adopt]
    | error fault => simp [carryOut, EStateM.run, inspect, Routine.run, adopt]
  | ask request next ih =>
    have hask : (attempt (ask request)).run machine =
        .ok (machine.memory.serve request).1
          { machine with memory := (machine.memory.serve request).2 } := by
      rw [run_attempt, run_ask]
      rcases machine.memory.serve request with ⟨fault | reply, memory⟩ <;> rfl
    rw [carryOut, EStateM.run_bind, hask]
    exact ih _
  | log line next ih =>
    rw [carryOut, EStateM.run_bind, EStateM.run_modify]
    refine ih.trans ?_
    simp [Routine.run]

private theorem run_jumpTo (direction : Direction) (target : UInt32) :
    (jumpTo direction target).run machine =
      settle machine ((machine.follow direction target).map (Step.turn machine)) := by
  simp only [jumpTo, EStateM.run_bind, EStateM.run_get, follow]
  cases direction.resolve machine.pc target with
  | some place => rfl
  | none => rfl

private theorem run_callInPlace (function : UInt32) (operands : List Operand) :
    (callInPlace function operands).run machine =
      settle machine ((machine.call function operands).map (Step.turn machine)) := by
  simp only [callInPlace, EStateM.run_bind, EStateM.run_get, call]
  cases machine.functions.get? function.toNat with
  | none => rfl
  | some host =>
    simp only [EStateM.run_bind, run_attempt, run_carryOut]
    cases ((host.body operands).run machine.memory).result with
    | ok _ => rfl
    | error fault => rfl

private theorem run_enterInPlace (loop : Loop) :
    (enterInPlace loop).run machine =
      settle machine ((machine.enterBlock loop).map (Step.turn machine)) := by
  rw [enterBlock, Outcome.map_bind, enterInPlace, run_get_bind]
  apply run_ask_bind rfl
  intro limit _
  split
  · cases machine.program.blockEnd? machine.pc with
    | some stop => rfl
    | none => rfl
  · rw [Outcome.map_bind, EStateM.run_bind, run_pushFrame]
    cases machine.frames.push { bodyStart := machine.pc + 1, limit, index := loop.index } with
    | ok frames => rfl
    | error fault => rfl

private theorem run_leaveInPlace :
    leaveInPlace.run machine = settle machine (machine.leaveBlock.map (Step.turn machine)) := by
  rw [leaveBlock, leaveInPlace, run_get_bind]
  cases ht : machine.frames.top? with
  | none => rfl
  | some frame =>
    dsimp only
    -- There is a frame to take off, so nothing behind the store can be refused.
    rw [Outcome.map_bind, BoundedStack.pop_of_top ht]
    apply run_ask_bind rfl
    intro (index : Int64) _
    have hstore := machine.run_ask (.writeInt frame.index (index + 1))
    by_cases hl : index + 1 < frame.limit
    · simp only [if_pos hl]
      exact run_store_bind hstore fun memory => rfl
    · simp only [if_neg hl]
      refine run_store_bind hstore fun memory => ?_
      have ht' : ({ machine with memory } : Machine).frames.top? = some frame := ht
      rw [EStateM.run_bind, run_popFrame ht']
      rfl

/-- An instruction that is carried out in place comes to what it comes to, and to nothing when it is
refused. -/
theorem run_performInPlace (instruction : Instruction) :
    (performInPlace instruction).run machine =
      settle machine ((machine.perform instruction).map (Step.turn machine)) := by
  obtain ⟨op, operands, bounded⟩ := instruction
  rw [performInPlace, run_get_bind]
  cases op with
  | execute function => exact run_callInPlace function operands
  | zero arg => exact run_store_moveTo (run_ask machine (.zero arg))
  | setFalse arg => exact run_store_moveTo (run_ask machine (.writeBool arg false))
  | setTrue arg => exact run_store_moveTo (run_ask machine (.writeBool arg true))
  | copy transfer => exact run_store_moveTo (run_ask machine (.copy transfer.source transfer.target))
  | increment arg =>
    exact run_ask_store_moveTo rfl fun value : Int64 => run_ask machine (.writeInt arg (value + 1))
  | decrement arg =>
    have hsub : addTo machine.memory arg (-1) =
        machine.memory.readInt arg >>= fun value => machine.memory.writeInt arg (value - 1) := by
      simp only [addTo, Int64.sub_eq_add_neg]
    rw [perform]
    dsimp only
    rw [hsub]
    exact run_ask_store_moveTo rfl fun value : Int64 => run_ask machine (.writeInt arg (value - 1))
  | equals comparison =>
    exact run_ask_store_moveTo rfl fun same : Bool => run_ask machine (.writeBool comparison.result same)
  | notEquals comparison =>
    exact run_ask_store_moveTo rfl fun same : Bool => run_ask machine (.writeBool comparison.result !same)
  | jump direction target => exact run_jumpTo direction target
  | jumpIf direction branch =>
    simp only [perform, Outcome.map_bind]
    apply run_ask_bind rfl
    intro value _
    split
    · exact run_jumpTo direction branch.target
    · rfl
  | changeType retyping =>
    exact run_store_moveTo (run_ask machine (.changeType retyping.arg retyping.layout))
  | exit => rfl
  | beginBlock loop => exact run_enterInPlace loop
  | endBlock => exact run_leaveInPlace

/-! ### Slices -/

def stepInPlace : EStateM Fault Machine Turn := do
  let machine ← get
  match machine.program.instruction? machine.pc with
  | some instruction => performInPlace instruction
  | none => return .exit

theorem run_stepInPlace (machine : Machine) :
    stepInPlace.run machine = settle machine (machine.step.map (Step.turn machine)) := by
  rw [stepInPlace, run_get_bind, step]
  cases machine.program.instruction? machine.pc with
  | some instruction => exact run_performInPlace instruction
  | none => rfl

def cycleInPlace : Nat → Machine → Event × Machine
  | 0, machine => (.running, machine)
  | budget + 1, machine =>
    match stepInPlace.run machine with
    | .ok .next next => cycleInPlace budget next
    | .ok .exit next => (.exited, { next with phase := .exited })
    | .ok (.hostError fault) next => (.hostError fault, next)
    | .error fault next =>
      (.faulted (fault.inInstruction next.pc), { next with phase := .faulted })

def executeInPlace (budget : Nat) (machine : Machine) : Event × Machine :=
  if machine.interrupted then
    (.interrupted machine.pc,
      { machine with interrupted := false, frames := machine.frames.clear, phase := .idle })
  else if machine.phase = .running then cycleInPlace budget machine
  else (.stopped, machine)

private theorem cycleInPlace_eq (machine : Machine) (budget : Nat) :
    machine.cycleInPlace budget = machine.cycle budget := by
  induction budget generalizing machine with
  | zero => rfl
  | succ budget ih =>
    rw [cycleInPlace, cycle, run_stepInPlace]
    rcases machine.step with fault | next | - | ⟨fault, next⟩
    · rfl
    · exact ih next
    · rfl
    · rfl

theorem executeInPlace_eq (machine : Machine) (budget : Nat) :
    machine.executeInPlace budget = machine.execute budget := by
  rw [executeInPlace, execute, cycleInPlace_eq]

end Machine

end RegisterMachine
