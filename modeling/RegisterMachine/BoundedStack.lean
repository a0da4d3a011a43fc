import RegisterMachine.Fault

/-!
# Bounded stacks

A stack that refuses to grow past its limit.
-/

namespace RegisterMachine

/-- A stack of at most `limit` items, with the note of the fault that a further push gives. -/
structure BoundedStack (α : Type) where
  limit : Nat
  warning : String
  /-- The items in the order they were pushed. -/
  items : Array α := #[]
  deriving DecidableEq, Repr

namespace BoundedStack

variable {α : Type}

def size (stack : BoundedStack α) : Nat := stack.items.size

def isEmpty (stack : BoundedStack α) : Bool := stack.items.isEmpty

def top? (stack : BoundedStack α) : Option α := stack.items.back?

def toList (stack : BoundedStack α) : List α := stack.items.toList

def clear (stack : BoundedStack α) : BoundedStack α := { stack with items := #[] }

/-- Put an item on top, unless the limit is reached. -/
def push (stack : BoundedStack α) (item : α) : Except Fault (BoundedStack α) :=
  if stack.limit ≤ stack.size then Fault.raise .blockOverflow stack.warning
  else .ok { stack with items := stack.items.push item }

def pop (stack : BoundedStack α) : Except Fault (α × BoundedStack α) :=
  match stack.top? with
  | some item => .ok (item, { stack with items := stack.items.pop })
  | none => Fault.raise .internalError "UNDERFLOW"

/-- The items as a bracketed list, first pushed first. -/
def text (display : α → String) (stack : BoundedStack α) : String :=
  "[" ++ ", ".intercalate (stack.toList.map display) ++ "]"

end BoundedStack

end RegisterMachine
