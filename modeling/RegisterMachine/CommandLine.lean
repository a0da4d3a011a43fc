import RegisterMachine.Code.Image
import RegisterMachine.Monitor.Session

/-!
# The command line

One file and four flags with numbers. A flag's value is its next argument or stands behind an equals
sign; behind a lone double dash every argument is the file.
-/

namespace RegisterMachine.CommandLine

inductive Flag
  | registers
  | cycles
  | alignment
  | maxDepth
  deriving DecidableEq, Repr

/-- Why no program is run. -/
inductive Refusal
  | help
  /-- The arguments make no sense. -/
  | usage
  deriving DecidableEq, Repr

def Refusal.status : Refusal → Nat
  | .help => 0
  | .usage => 2

namespace Flag

def ofName? : String → Option Flag
  | "registers" => some .registers
  | "cycles" => some .cycles
  | "alignment" => some .alignment
  | "max-block-depth" => some .maxDepth
  | _ => none

/-- A number from `low` to the largest half word, read as a signed one. -/
def half? (low : Nat) (text : String) : Option Nat :=
  ((Numeral.int64? text).map (·.toInt)).bind fun n =>
    if (low : Int) ≤ n ∧ n < (UInt16.size : Int) then some n.toNat else none

def value? : Flag → String → Option Nat
  | .registers => half? 0
  | .cycles | .alignment => Numeral.unsigned? UInt64.size
  | .maxDepth => half? 1

end Flag

/-- What the arguments have said so far. -/
structure Given where
  file : Option String := none
  /-- The flags given, each with its value. -/
  flags : List (Flag × Nat) := []

namespace Given

/-- Note the file, which is given once and is not empty. -/
def addFile (given : Given) (name : String) : Except Refusal Given :=
  if given.file.isSome || name.isEmpty then .error .usage
  else .ok { given with file := some name }

/-- Note a flag, which is given once. -/
def addFlag (given : Given) (flag : Flag) (text : String) : Except Refusal Given :=
  match given.flags.lookup flag, flag.value? text with
  | none, some value => .ok { given with flags := (flag, value) :: given.flags }
  | _, _ => .error .usage

def get (given : Given) (flag : Flag) (standard : Nat) : Nat :=
  (given.flags.lookup flag).getD standard

end Given

/-- The shapes that an argument in front of a double dash can have. -/
inductive Argument
  | escape
  | long (name : String) (value : Option String)
  | short (letters : List Char)
  | plain
  deriving DecidableEq, Repr

/-- The shape of an argument. A single dash is plain. -/
def Argument.ofString (text : String) : Argument :=
  match text.toList with
  | ['-', '-'] => .escape
  | '-' :: '-' :: rest =>
    let name := String.ofList (rest.takeWhile (· ≠ '='))
    match rest.dropWhile (· ≠ '=') with
    | [] => .long name none
    | _ :: value => .long name (some (String.ofList value))
  | '-' :: first :: rest => .short (first :: rest)
  | _ => .plain

/-- Whether an argument can be a flag's value. -/
def isValue (text : String) : Bool := text.toList.head? != some '-'

/-- Read the arguments in order; the first that makes no sense or asks for help ends the reading. -/
def read (given : Given) : List String → Except Refusal Given
  | [] => .ok given
  | arg :: rest =>
    match Argument.ofString arg with
    | .escape => rest.foldlM Given.addFile given
    | .long "help" none => .error .help
    | .long name (some text) =>
      match Flag.ofName? name with
      | none => .error .usage
      | some flag => do read (← given.addFlag flag text) rest
    | .long name none =>
      match Flag.ofName? name, rest with
      | some flag, text :: rest =>
        if isValue text then do read (← given.addFlag flag text) rest else .error .usage
      | _, _ => .error .usage
    | .short ('h' :: _) => .error .help
    | .short _ => .error .usage
    | .plain => do read (← given.addFile arg) rest

structure Invocation where
  file : String
  alignment : Nat
  options : Monitor.Options

def parse (args : List String) : Except Refusal Invocation := do
  let given ← read {} args
  match given.file with
  | none => .error .usage
  | some file =>
    let standard : Monitor.Options := {}
    return {
      file
      alignment := given.get .alignment 0
      options := {
        registers := given.get .registers standard.registers
        cycles := given.get .cycles standard.cycles
        maxDepth := given.get .maxDepth standard.maxDepth } }

structure Outcome where
  status : Nat := 0
  stdout : String := ""
  stderr : String := ""
  deriving DecidableEq, Repr

def loadFailure (file message : String) : Outcome :=
  { status := 1, stderr := file ++ ": " ++ message ++ "\n" }

def responseText : Monitor.Response → String
  | .written text _ => text
  | .offered _ => ""

/-- The monitor over the file's contents, or the outcome if there is none to run. The contents are
missing with the reason why the file could not be read. -/
def Invocation.prepare (invocation : Invocation) (contents : Except String (List UInt8)) :
    Except Outcome Monitor :=
  match contents with
  | .error message => .error (loadFailure invocation.file message)
  | .ok bytes =>
    match Code.loadAligned bytes invocation.alignment with
    | .error fault => .error (loadFailure invocation.file fault.text)
    | .ok code =>
      match Monitor.create code invocation.options with
      | .error fault => .error { stderr := Monitor.bold fault.text ++ "\n" }
      | .ok monitor => .ok monitor

/-- Feed the monitor lines until they or it come to an end. -/
def Invocation.run (slices : Nat) (invocation : Invocation)
    (contents : Except String (List UInt8)) (lines : List String) : Option Outcome :=
  match invocation.prepare contents with
  | .error outcome => some outcome
  | .ok monitor =>
    (monitor.play slices (lines.map (.line · false))).map fun (responses, _) =>
      { stdout := String.join (responses.map responseText) }

end RegisterMachine.CommandLine
