import RegisterMachine.Host.Routine

/-!
# Function tables

Host calls name functions by their place in a table, so the order of registration matters.
-/

namespace RegisterMachine

/-- A named host function, which is given the operands of the call. -/
structure HostFunction where
  name : String
  body : List Operand → Routine Unit

/-- The functions that code can call. -/
structure FunctionTable where
  functions : Array HostFunction := #[]

namespace FunctionTable

def size (table : FunctionTable) : Nat := table.functions.size

def isEmpty (table : FunctionTable) : Bool := table.functions.isEmpty

def register (table : FunctionTable) (function : HostFunction) : FunctionTable :=
  { functions := table.functions.push function }

def get? (table : FunctionTable) (index : Nat) : Option HostFunction := table.functions[index]?

def name? (table : FunctionTable) (index : Nat) : Option String :=
  (table.get? index).map (·.name)

/-- The place of the first function with a name. -/
def find? (table : FunctionTable) (name : String) : Option Nat :=
  table.functions.findIdx? (·.name = name)

/-- The names, quoted, in order. -/
def text (table : FunctionTable) : String :=
  "FunctionTable [" ++
    ", ".intercalate (table.functions.toList.map fun f => "\"" ++ f.name ++ "\"") ++ "]"

end FunctionTable

end RegisterMachine
