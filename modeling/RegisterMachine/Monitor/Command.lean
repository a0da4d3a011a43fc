import RegisterMachine.Machine.Run
import RegisterMachine.Monitor.Display
import RegisterMachine.Text.Blank
import RegisterMachine.Text.Numeral

/-!
# Commands

A line typed at the monitor is a verb and its arguments. `Command.perform` carries it out on the
machine; running the machine is left to the monitor's loop.
-/

namespace RegisterMachine.Monitor

/-- A line, taken apart. -/
inductive Command
  | nothing
  | quit
  | list (args : List String)
  | entries
  | run (args : List String)
  | cont
  | regs
  | set (args : List String)
  | unknown
  deriving DecidableEq, Repr

/-- What the monitor does after a command. -/
inductive Reply
  | quit
  | run
  | text (text : String)
  | complaint (text : String)
  deriving DecidableEq, Repr

namespace Command

/-- Take a line apart; the verb may be typed in either case. -/
def ofLine (line : String) : Command :=
  match Text.words line with
  | [] => .nothing
  | verb :: args =>
    match Text.upper verb with
    | "QUIT" | "EXIT" => .quit
    | "LIST" => .list args
    | "ENTRIES" => .entries
    | "RUN" => .run args
    | "CONT" => .cont
    | "REGS" => .regs
    | "SET" => .set args
    | _ => .unknown

def instructionNumber? (text : String) : Option Nat := Numeral.unsigned? UInt64.size text

/-- The range that a listing is asked for: all of it, one line, or from one number up to another.
Further arguments are not looked at. -/
def listRange? (size : Nat) : List String → Option (Nat × Nat)
  | [] => some (0, size)
  | [start] => (instructionNumber? start).map fun start => (start, start + 1)
  | start :: stop :: _ => do
    let start ← instructionNumber? start
    let stop ← instructionNumber? stop
    return (start, stop)

/-- List instructions, with their entries in bold. -/
def listReply (code : Code) (args : List String) : Reply :=
  match Listing.ofCode code with
  | .error fault => .complaint fault.text
  | .ok listing =>
    match listRange? listing.size args with
    | none => .complaint "BAD INSTRUCTION NUMBER"
    | some (start, stop) => .text (listing.range (fun name => bold (name ++ ":")) start stop)

/-- The whole register that a text names, such as `R3`, `L0` or `X12`. -/
def register? (text : String) : Option Operand :=
  match text.toList with
  | [] => none
  | letter :: number => do
    let bank ← Bank.ofLetter? letter
    let register ← Numeral.unsigned? UInt16.size (String.ofList number)
    return { bank, register := UInt16.ofNat register }

/-- The register and the value of a `SET`. -/
def assignment? : List String → Option (Operand × Int64)
  | [operand, value] => do return (← register? operand, ← Numeral.int64? value)
  | _ => none

/-- Put a value into a register, which may be a literal. -/
def setReply (memory : Registers) (args : List String) : Reply × Registers :=
  match assignment? args with
  | none => (.complaint "SET OPERAND VALUE", memory)
  | some (operand, value) =>
    match memory.setInt operand value with
    | .ok memory => (.text "", memory)
    | .error fault => (.complaint fault.text, memory)

def runReply (machine : Machine) : List String → Reply × Machine
  | [] => (.complaint "RUN WHICH ENTRY?", machine)
  | name :: _ =>
    match machine.start name with
    | .ok machine => (.run, machine)
    | .error fault => (.complaint fault.text, machine)

def perform (command : Command) (machine : Machine) : Reply × Machine :=
  match command with
  | .nothing => (.text "", machine)
  | .quit => (.quit, machine)
  | .list args => (listReply machine.program.code args, machine)
  | .entries => (.text (entriesText machine.program.code.entries), machine)
  | .run args => runReply machine args
  | .cont =>
    if machine.phase = .running then (.run, machine) else (.complaint "CAN'T CONTINUE", machine)
  | .regs => (.text (registersText machine.memory), machine)
  | .set args =>
    let (reply, memory) := setReply machine.memory args
    (reply, { machine with memory })
  | .unknown => (.complaint "UNKNOWN COMMAND", machine)

end Command

end RegisterMachine.Monitor
