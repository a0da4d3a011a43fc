import RegisterMachine.CommandLine

/-!
# The program

Reads the arguments and the file, then feeds the monitor from standard input.
-/

namespace RegisterMachine.Terminal

/-- More slices than a run can use up. -/
def slices : Nat := UInt64.size / 4

/-- Why a file cannot be read, with the number of the error. -/
def readFailure : IO.Error → String
  | .noFileOrDirectory .. => "No such file or directory (os error 2)"
  | .permissionDenied .. => "Permission denied (os error 13)"
  | .inappropriateType _ _ "not a directory" => "Not a directory (os error 20)"
  | .inappropriateType .. => "Is a directory (os error 21)"
  | error => toString error

def contents (file : String) : IO (Except String (List UInt8)) := do
  try
    return .ok (← IO.FS.readBinFile file).data.toList
  catch error =>
    return .error (readFailure error)

partial def feed (monitor : Monitor) (input output : IO.FS.Stream) : IO Unit := do
  let line ← input.getLine
  if line.isEmpty then return
  match monitor.enter slices (String.ofList (line.toList.takeWhile (· ≠ '\n'))) false with
  | none => return
  | some (response, next) =>
    output.putStr (CommandLine.responseText response)
    output.flush
    match next with
    | none => return
    | some monitor => feed monitor input output

/-- Run the monitor over the file that the arguments name, and return the exit status. -/
def runArguments (args : List String) : IO UInt32 := do
  match CommandLine.parse args with
  | .error refusal => return UInt32.ofNat refusal.status
  | .ok invocation =>
    match invocation.prepare (← contents invocation.file) with
    | .error outcome =>
      (← IO.getStderr).putStr outcome.stderr
      return UInt32.ofNat outcome.status
    | .ok monitor =>
      feed monitor (← IO.getStdin) (← IO.getStdout)
      return 0

end RegisterMachine.Terminal

def main (args : List String) : IO UInt32 := RegisterMachine.Terminal.runArguments args
