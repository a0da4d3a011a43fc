import RegisterMachine.Code.Listing
import RegisterMachine.Memory.Registers

/-!
# What the monitor shows

Labels and complaints are set in bold. Registers are shown one to a line, with as many of their
elements as their bytes have room for.
-/

namespace RegisterMachine.Monitor

/-- Text between the terminal's codes for bold and for plain. -/
def bold (text : String) : String := "\x1b[1m" ++ text ++ "\x1b[0m"

def entriesText (entries : List Entry) : String :=
  String.join (entries.map fun entry =>
    Column.right 5 (toString entry.instruction) ++ "  " ++ entry.name ++ "\n")

/-- How many elements of a register are shown: those that the layout has and the bytes have room
for, but one at least. -/
def shownCount (register : Register) : Nat :=
  let room := register.capacity / max register.layout.elementSize.toNat 1
  min (min (max register.layout.elements 1) (max room 1)) (UInt32.size - 1)

/-- The integer in an element, or a question mark where there is none. -/
def elementText (memory : Registers) (operand : Operand) : String :=
  match memory.readInt operand with
  | .ok value => toString value.toInt
  | .error _ => "?"

def registerText (memory : Registers) (bank : Bank) (index : Nat) (register : Register) : String :=
  let operand : Operand := { bank, register := UInt16.ofNat index }
  let values := (List.range (shownCount register)).map fun i =>
    elementText memory (operand.elementAt (UInt32.ofNat i))
  Column.left 6 operand.text ++ " " ++ " ".intercalate values ++ "\n"

def registersText (memory : Registers) : String :=
  String.join (Bank.all.map fun bank =>
    String.join ((memory.bank bank).toList.mapIdx fun index register =>
      registerText memory bank index register))

end RegisterMachine.Monitor
