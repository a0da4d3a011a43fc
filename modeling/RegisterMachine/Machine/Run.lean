import RegisterMachine.Machine.Basic

/-!
# Running a machine

Work is handed out in slices, each a budget of instructions, so that a host can stop a machine
between two of them. A slice ends with an event that says why.
-/

namespace RegisterMachine.Machine

/-- Why a slice ended. -/
inductive Event
  /-- There was nothing to run. -/
  | stopped
  /-- The budget was used up. -/
  | running
  | exited
  /-- An interrupt stopped it in front of this instruction. -/
  | interrupted (pc : Nat)
  /-- A host function failed; the machine can go on behind the call. -/
  | hostError (fault : Fault)
  /-- The code or the memory was at fault, and the invocation is over. -/
  | faulted (fault : Fault)
  deriving DecidableEq, Repr

def startAt (machine : Machine) (index : Nat) : Machine :=
  { machine with
    frames := machine.frames.clear, pc := index, phase := .running, interrupted := false }

def start (machine : Machine) (entry : String) : Except Fault Machine := do
  return machine.startAt (← machine.program.entry entry)

/-- Ask a running invocation to stop in front of its next instruction. -/
def interrupt (machine : Machine) : Machine :=
  if machine.phase = .running then { machine with interrupted := true } else machine

def cycle : Nat → Machine → Event × Machine
  | 0, machine => (.running, machine)
  | budget + 1, machine =>
    match machine.step with
    | .ok (.next next) => cycle budget next
    | .ok .exit => (.exited, { machine with phase := .exited })
    | .ok (.hostError fault next) => (.hostError fault, next)
    | .error fault => (.faulted (fault.inInstruction machine.pc), { machine with phase := .faulted })

/-- Run one slice. A waiting interrupt is honoured first. -/
def execute (budget : Nat) (machine : Machine) : Event × Machine :=
  if machine.interrupted then
    (.interrupted machine.pc,
      { machine with interrupted := false, frames := machine.frames.clear, phase := .idle })
  else if machine.phase = .running then cycle budget machine
  else (.stopped, machine)

/-- Run slices until one ends otherwise than by its budget, if that takes at most so many. -/
def drive (budget : Nat) : Nat → Machine → Option (Event × Machine)
  | 0, _ => none
  | slices + 1, machine =>
    match execute budget machine with
    | (.running, next) => drive budget slices next
    | ended => some ended

/-- An invocation's result: faults of the host and of the program fail it. -/
def Event.result : Event → Except Fault Unit
  | .hostError fault | .faulted fault => .error fault
  | .stopped | .running | .exited | .interrupted _ => .ok ()

/-- The largest budget of a slice, which is the largest 64-bit word. -/
def maxBudget : Nat := UInt64.size - 1

/-- Run an entry to its end or its first fault, in at most so many slices of the largest budget. -/
def run (slices : Nat) (machine : Machine) (entry : String) :
    Option (Except Fault Unit × Machine) :=
  match machine.start entry with
  | .error fault => some (.error fault, machine)
  | .ok started =>
    (drive maxBudget slices started).map fun (event, machine) => (event.result, machine)

end RegisterMachine.Machine
