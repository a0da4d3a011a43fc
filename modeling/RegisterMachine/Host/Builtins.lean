import RegisterMachine.Host.FunctionTable

/-!
# Built-in functions

Integer arithmetic that wraps at 64 bits, a comparison, and a trace of what operands hold.
-/

namespace RegisterMachine.Builtin

def operand (operands : List Operand) (position : Nat) : Routine Operand :=
  match operands[position]? with
  | some operand => pure operand
  | none => .fail { cause := .hostFailure, note := "MISSING OPERAND" }

/-- Read the first two operands and go on with their values and the third. -/
def withPair (operands : List Operand) (body : Int64 → Int64 → Operand → Routine Unit) :
    Routine Unit := do
  let left ← Routine.readInt (← operand operands 0)
  let right ← Routine.readInt (← operand operands 1)
  body left right (← operand operands 2)

def arithmetic (f : Int64 → Int64 → Int64) (operands : List Operand) : Routine Unit :=
  withPair operands fun left right target => Routine.writeInt target (f left right)

def less (operands : List Operand) : Routine Unit :=
  withPair operands fun left right target => Routine.writeBool target (left < right)

/-- Log what the operands hold, of which the first is at `position`. -/
def traceFrom : Nat → List Operand → Routine Unit
  | _, [] => pure ()
  | position, operand :: rest => do
    let value ← Routine.readInt operand
    .log { position, operand, value } (traceFrom (position + 1) rest)

/-- The built-in functions, in the order that code relies on. -/
def table : FunctionTable where
  functions := #[
    { name := "add", body := arithmetic (· + ·) },
    { name := "sub", body := arithmetic (· - ·) },
    { name := "mul", body := arithmetic (· * ·) },
    { name := "min", body := arithmetic fun a b => if a ≤ b then a else b },
    { name := "max", body := arithmetic fun a b => if a ≤ b then b else a },
    { name := "less", body := less },
    { name := "trace", body := traceFrom 0 }]

end RegisterMachine.Builtin
