import RegisterMachine.Code.Basic
import RegisterMachine.Text.Column

/-!
# Listings

One line for each instruction: its index, its offset, its mnemonic and what it works on. The entries
that start at an instruction are given with its line.
-/

namespace RegisterMachine

/-- Code taken apart for printing. -/
structure Listing where
  entries : List Entry
  records : Array Record

namespace Listing

def ofCode (code : Code) : Except Fault Listing := do
  return { entries := code.entries, records := (← code.records).toArray }

def size (listing : Listing) : Nat := listing.records.size

def isEmpty (listing : Listing) : Bool := listing.records.isEmpty

/-- What stands behind a record's mnemonic, or why that cannot be told. -/
def details (record : Record) : String :=
  match record.op with
  | .ok (.execute function) =>
    " " ++ (Op.execute function).text ++
      "(" ++ ", ".intercalate (record.operands.toList.map Operand.text) ++ ")"
  | .ok .exit | .ok .endBlock => ""
  | .ok op => " " ++ op.text
  | .error fault => " ?" ++ fault.text

def lineText (index : Nat) (record : Record) : String :=
  Column.right 5 (toString index) ++ " " ++ Column.right 6 (toString record.offset) ++ "  " ++
    record.opcode.text ++ details record

def names (listing : Listing) (index : Nat) : List String :=
  (listing.entries.filter (·.instruction = index)).map (·.name)

/-- The line of the instruction `index`, with the entries that start there. -/
def line? (listing : Listing) (index : Nat) : Option (String × List String) :=
  listing.records[index]?.map fun record => (lineText index record, listing.names index)

/-- The lines from `start` up to `stop`, each behind the labels of its entries. -/
def range (label : String → String) (listing : Listing) (start stop : Nat) : String :=
  let last := min stop listing.size
  String.join ((List.range' start (last - start)).filterMap fun index =>
    (listing.line? index).map fun (line, names) =>
      String.join (names.map (label · ++ "\n")) ++ line ++ "\n")

def text (listing : Listing) : String := listing.range (· ++ ":") 0 listing.size

end Listing

end RegisterMachine
