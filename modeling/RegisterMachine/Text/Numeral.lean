/-!
# Numerals

Whole numbers as typed by hand: an optional sign and at least one decimal digit, nothing else, and
a value within bounds.
-/

namespace RegisterMachine.Numeral

/-- The number that a row of digits spells; there must be one. -/
def digits? (chars : List Char) : Option Nat :=
  if chars.isEmpty || !chars.all Char.isDigit then none
  else some (chars.foldl (fun n c => 10 * n + (c.toNat - '0'.toNat)) 0)

/-- A number below `bound`, which may have a plus sign. -/
def unsigned? (bound : Nat) (text : String) : Option Nat :=
  let number :=
    match text.toList with
    | '+' :: rest => digits? rest
    | chars => digits? chars
  number.filter (· < bound)

/-- A number from `-bound` up to but not including `bound`, which may have either sign. -/
def signed? (bound : Nat) (text : String) : Option Int :=
  let number : Option Int :=
    match text.toList with
    | '-' :: rest => (digits? rest).map fun n => -(n : Int)
    | '+' :: rest => (digits? rest).map Int.ofNat
    | chars => (digits? chars).map Int.ofNat
  number.filter fun n => -(bound : Int) ≤ n && n < bound

def int64? (text : String) : Option Int64 := (signed? (UInt64.size / 2) text).map Int64.ofInt

end RegisterMachine.Numeral
