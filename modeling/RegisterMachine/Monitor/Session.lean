import RegisterMachine.Host.Builtins
import RegisterMachine.Monitor.Command
import RegisterMachine.Monitor.Completion

/-!
# The monitor

The monitor reads lines, carries them out and writes what they come to. A command that runs the
machine is followed by slices until one of them ends the run. An interrupt key pressed at the prompt
takes effect once the line behind it has been carried out.
-/

namespace RegisterMachine

structure Monitor.Options where
  /-- The registers in each bank. -/
  registers : Nat := 16
  cycles : Nat := 5000
  maxDepth : Nat := Machine.defaultDepth

/-- A machine at the prompt. -/
structure Monitor where
  machine : Machine
  cycles : Nat

namespace Monitor

def prompt : String := "> "

/-- The bytes of each register, so that layouts have room to grow. -/
def registerCapacity : Nat := 64

inductive Input
  /-- A line is typed, perhaps after the interrupt key. -/
  | line (text : String) (interrupt : Bool)
  /-- The line editor reports a signal. -/
  | signal
  | complete (typed : String)

inductive Response
  /-- Text is written, and the line may enter the history. -/
  | written (text : String) (history : Option String)
  | offered (names : Option (List String))
  deriving DecidableEq

def addRegisters (bank : Bank) : Nat → Registers → Registers
  | 0, memory => memory
  | n + 1, memory => addRegisters bank n (memory.add bank .integer registerCapacity).2

def memory (count : Nat) : Registers :=
  Bank.all.foldl (fun memory bank => addRegisters bank count memory) {}

/-- A monitor over code, with the built-in functions. A slice has one instruction at least. -/
def create (code : Code) (options : Options) : Except Fault Monitor := do
  let program ← Program.ofCode code
  return { machine := Machine.create program Builtin.table (memory options.registers) options.maxDepth
           cycles := max options.cycles 1 }

def eventText (machine : Machine) : Machine.Event → String
  | .stopped | .running => ""
  | .exited => "EXITED IN " ++ toString machine.pc ++ "\n"
  | .interrupted pc => "INTERRUPTED IN " ++ toString pc ++ "\n"
  | .hostError fault | .faulted fault => bold fault.text ++ "\n"

def history? (line : String) : Option String :=
  if (Text.trim line.toList).isEmpty then none else some line

/-- Finish a line that was carried out: the interrupt key takes effect, and a run is driven to its
end in at most so many slices. -/
def settle (slices : Nat) (monitor : Monitor) (interrupt running : Bool) :
    Option (String × Monitor) :=
  let machine := if interrupt then monitor.machine.interrupt else monitor.machine
  if running then
    (machine.drive monitor.cycles slices).map fun (event, machine) =>
      (eventText machine event, { monitor with machine })
  else some ("", { monitor with machine })

/-- Carry out a line. The monitor is over if there is none afterwards. -/
def enter (slices : Nat) (monitor : Monitor) (line : String) (interrupt : Bool) :
    Option (Response × Option Monitor) :=
  let (reply, machine) := (Command.ofLine line).perform monitor.machine
  let monitor := { monitor with machine }
  let finish (text : String) (running : Bool) : Option (Response × Option Monitor) :=
    (monitor.settle slices interrupt running).map fun (more, monitor) =>
      (.written (text ++ more) (history? line), some monitor)
  match reply with
  | .quit => some (.written "" none, none)
  | .run => finish "" true
  | .text text => finish text false
  | .complaint text => finish (bold text ++ "\n") false

def respond (slices : Nat) (monitor : Monitor) : Input → Option (Response × Option Monitor)
  | .line text interrupt => monitor.enter slices text interrupt
  | .signal => some (.written "" none, none)
  | .complete typed =>
    some (.offered (completions? monitor.machine.program.code.entries typed), some monitor)

/-- Answer a script of inputs up to its end or the monitor's, and return the last machine. -/
def play (slices : Nat) (monitor : Monitor) : List Input → Option (List Response × Machine)
  | [] => some ([], monitor.machine)
  | input :: rest =>
    match monitor.respond slices input with
    | none => none
    | some (response, none) => some ([response], monitor.machine)
    | some (response, some monitor) =>
      (monitor.play slices rest).map fun (responses, machine) => (response :: responses, machine)

end Monitor

end RegisterMachine
