/-!
# Columns

Text set flush in a column: short text is filled up with blanks, long text is left as it is.
-/

namespace RegisterMachine.Column

/-- As many blanks as `text` is short of `width`. -/
def blanks (width : Nat) (text : String) : String := "".pushn ' ' (width - text.length)

def right (width : Nat) (text : String) : String := blanks width text ++ text

def left (width : Nat) (text : String) : String := text ++ blanks width text

end RegisterMachine.Column
