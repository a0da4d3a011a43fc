import RegisterMachine.Machine.Run

/-!
# Operating a machine

A host gives a machine one operation after the other. Each has an answer, and between two operations
the host can look at the machine. What it sees over a whole row of operations is how the machine
behaves.
-/

namespace RegisterMachine.Machine

inductive Operation
  | start (entry : String)
  | startAt (index : Nat)
  | interrupt
  | execute (budget : Nat)
  deriving DecidableEq, Repr

inductive Answer
  | accepted
  | refused (fault : Fault)
  | ended (event : Event)
  deriving DecidableEq, Repr

/-- Carry out one operation. A start that is refused leaves the machine as it was. -/
def respond (machine : Machine) : Operation → Answer × Machine
  | .start entry =>
    match machine.start entry with
    | .ok started => (.accepted, started)
    | .error fault => (.refused fault, machine)
  | .startAt index => (.accepted, machine.startAt index)
  | .interrupt => (.accepted, machine.interrupt)
  | .execute budget =>
    let (event, next) := machine.execute budget
    (.ended event, next)

/-- The instruction that an operation begins an invocation at. -/
def starts? (machine : Machine) : Operation → Option Nat
  | .start entry => (machine.program.entry entry).toOption
  | .startAt index => some index
  | .interrupt | .execute _ => none

def after (machine : Machine) (operations : List Operation) : Machine :=
  operations.foldl (fun machine operation => (machine.respond operation).2) machine

structure Observation where
  answer : Answer
  pc : Nat
  phase : Phase
  depth : Nat
  memory : Registers
  trace : Array TraceLine
  deriving DecidableEq

def look (machine : Machine) (answer : Answer) : Observation :=
  { answer, pc := machine.pc, phase := machine.phase, depth := machine.depth,
    memory := machine.memory, trace := machine.trace }

def observe : Machine → List Operation → List Observation
  | _, [] => []
  | machine, operation :: rest =>
    let (answer, next) := machine.respond operation
    next.look answer :: next.observe rest

/-- What every operation of a row keeps, the whole row keeps. -/
theorem after_keeps {P : Machine → Prop} {operations : List Operation}
    (hr : ∀ machine, ∀ operation ∈ operations, P machine → P (machine.respond operation).2)
    {machine : Machine} (hm : P machine) : P (machine.after operations) := by
  induction operations generalizing machine with
  | nil => exact hm
  | cons operation rest ih =>
    apply ih
    · intro machine operation hmem
      exact hr machine operation (List.mem_cons_of_mem _ hmem)
    · exact hr machine operation List.mem_cons_self hm

end RegisterMachine.Machine
