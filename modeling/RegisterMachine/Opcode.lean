/-!
# Opcodes

The operations of the machine and their one-byte tags. A tag up to `maxOperands` is a host call with
that many operands; the other operations take the tags that follow.
-/

namespace RegisterMachine

/-- The most operands that a host call can have. -/
def maxOperands : Nat := 64

/-- How the number in a jump is meant. -/
inductive Direction
  /-- It is the index of the next instruction. -/
  | absolute
  /-- It is counted forward from the jump. -/
  | forward
  /-- It is counted back from the jump. -/
  | backward
  deriving DecidableEq, Repr

inductive Opcode
  | execute (arity : Fin (maxOperands + 1))
  | zero
  | setFalse
  | setTrue
  | copy
  | increment
  | decrement
  | equals
  | notEquals
  | jump (direction : Direction)
  | jumpIf (direction : Direction)
  | changeType
  | exit
  | beginBlock
  | endBlock
  deriving DecidableEq, Repr

namespace Opcode

/-- The operations other than host calls, in the order of their tags. -/
def fixed : List Opcode :=
  [.zero, .setFalse, .setTrue, .copy, .increment, .decrement, .equals, .notEquals,
    .jump .absolute, .jump .forward, .jump .backward,
    .jumpIf .absolute, .jumpIf .forward, .jumpIf .backward,
    .changeType, .exit, .beginBlock, .endBlock]

def tag : Opcode → UInt8
  | .execute arity => UInt8.ofNat arity
  | opcode => UInt8.ofNat (maxOperands + 1 + fixed.idxOf opcode)

/-- The operation with this tag, if the tag is assigned. -/
def ofTag? (tag : UInt8) : Option Opcode :=
  if h : tag.toNat < maxOperands + 1 then some (.execute ⟨tag.toNat, h⟩)
  else fixed[tag.toNat - (maxOperands + 1)]?

/-- The bytes between the header of an instruction and its operands. -/
def payloadSize : Opcode → Nat
  | .execute _ => 4
  | .zero | .setFalse | .setTrue | .increment | .decrement => 8
  | .copy | .beginBlock => 16
  | .equals | .notEquals => 24
  | .jump _ => 4
  | .jumpIf _ => 16
  | .changeType => 24
  | .exit | .endBlock => 0

def arity : Opcode → Nat
  | .execute arity => arity
  | _ => 0

def isJump : Opcode → Bool
  | .jump _ => true
  | _ => false

def isJumpIf : Opcode → Bool
  | .jumpIf _ => true
  | _ => false

def text : Opcode → String
  | .execute arity => "EXECUTE_" ++ toString arity.val
  | .zero => "ZERO"
  | .setFalse => "FALSE"
  | .setTrue => "TRUE"
  | .copy => "COPY"
  | .increment => "INC"
  | .decrement => "DEC"
  | .equals => "EQ"
  | .notEquals => "NOTEQ"
  | .jump .absolute => "JUMP"
  | .jump .forward => "JUMPFWD"
  | .jump .backward => "JUMPBACK"
  | .jumpIf .absolute => "JUMPIF"
  | .jumpIf .forward => "JUMPFWDIF"
  | .jumpIf .backward => "JUMPBACKIF"
  | .changeType => "CHANGETYPE"
  | .exit => "EXIT"
  | .beginBlock => "BEGIN"
  | .endBlock => "END"

theorem arity_le (opcode : Opcode) : opcode.arity ≤ maxOperands := by
  cases opcode <;> simp only [arity] <;> omega

/-- Every operation is found again under its tag. -/
@[simp] theorem ofTag?_tag (opcode : Opcode) : ofTag? opcode.tag = some opcode := by
  cases opcode with
  | execute arity =>
    have hlt := arity.isLt
    have h : (UInt8.ofNat arity.val).toNat = arity.val := by
      rw [UInt8.toNat_ofNat']
      exact Nat.mod_eq_of_lt (Nat.lt_trans hlt (by decide))
    simp only [ofTag?, tag, h, hlt, dite_true]
  | jump direction => cases direction <;> decide
  | jumpIf direction => cases direction <;> decide
  | _ => decide

end Opcode

/-- What can be said of any tag byte, assigned or not. -/
structure TagSummary where
  text : String
  tag : UInt8
  payloadSize : Nat
  arity : Nat
  isJump : Bool
  isJumpIf : Bool

/-- Describe a tag byte; unassigned ones are all alike and go by the highest tag. -/
def TagSummary.of (tag : UInt8) : TagSummary :=
  match Opcode.ofTag? tag with
  | some opcode =>
    { text := opcode.text, tag := opcode.tag, payloadSize := opcode.payloadSize,
      arity := opcode.arity, isJump := opcode.isJump, isJumpIf := opcode.isJumpIf }
  | none =>
    { text := "INVALID", tag := 255, payloadSize := 0, arity := 0, isJump := false,
      isJumpIf := false }

end RegisterMachine
