import RegisterMachine.Opcode
import RegisterMachine.Payload

/-!
# Operations

An `Op` is an opcode together with its decoded payload. The operands of a host call are not part of
it: they stand behind the payload.
-/

namespace RegisterMachine

inductive Op
  | execute (function : UInt32)
  | zero (arg : Operand)
  | setFalse (arg : Operand)
  | setTrue (arg : Operand)
  | copy (transfer : Transfer)
  | increment (arg : Operand)
  | decrement (arg : Operand)
  | equals (comparison : Comparison)
  | notEquals (comparison : Comparison)
  | jump (direction : Direction) (target : UInt32)
  | jumpIf (direction : Direction) (branch : Branch)
  | changeType (retyping : Retyping)
  | exit
  | beginBlock (loop : Loop)
  | endBlock
  deriving DecidableEq, Repr

namespace Direction

/-- The instruction that a jump at `index` leads to. A relative jump adds to the index as a signed
64-bit word, and a negative sum leads nowhere. -/
def resolve (direction : Direction) (index : Nat) (target : UInt32) : Option Nat :=
  let sum : Int :=
    match direction with
    | .absolute => target.toNat
    | .forward => Int.bmod index UInt64.size + target.toNat
    | .backward => Int.bmod index UInt64.size - target.toNat
  if sum < 0 then none else some sum.toNat

def sign : Direction → String
  | .absolute => ""
  | .forward => "+"
  | .backward => "-"

end Direction

namespace Op

/-- The opcode of an operation, given how many operands follow it. -/
def opcode (op : Op) (arity : Fin (maxOperands + 1)) : Opcode :=
  match op with
  | .execute _ => .execute arity
  | .zero _ => .zero
  | .setFalse _ => .setFalse
  | .setTrue _ => .setTrue
  | .copy _ => .copy
  | .increment _ => .increment
  | .decrement _ => .decrement
  | .equals _ => .equals
  | .notEquals _ => .notEquals
  | .jump direction _ => .jump direction
  | .jumpIf direction _ => .jumpIf direction
  | .changeType _ => .changeType
  | .exit => .exit
  | .beginBlock _ => .beginBlock
  | .endBlock => .endBlock

def payload : Op → List UInt8
  | .execute function => pack function
  | .zero arg | .setFalse arg | .setTrue arg | .increment arg | .decrement arg => pack arg
  | .copy transfer => pack transfer
  | .equals comparison | .notEquals comparison => pack comparison
  | .jump _ target => pack target
  | .jumpIf _ branch => pack branch
  | .changeType retyping => pack retyping
  | .beginBlock loop => pack loop
  | .exit | .endBlock => []

/-- The operation that `bytes` spell behind a header with this opcode. -/
def ofPayload (opcode : Opcode) (bytes : List UInt8) : Except Fault Op :=
  match opcode with
  | .execute _ => Op.execute <$> unpack bytes
  | .zero => Op.zero <$> unpack bytes
  | .setFalse => Op.setFalse <$> unpack bytes
  | .setTrue => Op.setTrue <$> unpack bytes
  | .copy => Op.copy <$> unpack bytes
  | .increment => Op.increment <$> unpack bytes
  | .decrement => Op.decrement <$> unpack bytes
  | .equals => Op.equals <$> unpack bytes
  | .notEquals => Op.notEquals <$> unpack bytes
  | .jump direction => Op.jump direction <$> unpack bytes
  | .jumpIf direction => Op.jumpIf direction <$> unpack bytes
  | .changeType => Op.changeType <$> unpack bytes
  | .exit => .ok .exit
  | .beginBlock => Op.beginBlock <$> unpack bytes
  | .endBlock => .ok .endBlock

/-- The operation that `bytes` spell behind a header with this tag byte. -/
def ofTag (tag : UInt8) (bytes : List UInt8) : Except Fault Op :=
  match Opcode.ofTag? tag with
  | some opcode => ofPayload opcode bytes
  | none => Fault.raise .invalidOpcode

def jump? : Op → Option (Direction × UInt32)
  | .jump direction target => some (direction, target)
  | .jumpIf direction branch => some (direction, branch.target)
  | _ => none

/-- For a jump at `index`, where it leads, if anywhere. -/
def jumpTarget? (op : Op) (index : Nat) : Option (Option Nat) :=
  op.jump?.map fun (direction, target) => direction.resolve index target

/-- What stands behind the mnemonic in a listing. -/
def text : Op → String
  | .execute function => "FN#" ++ toString function.toNat
  | .zero arg | .setFalse arg | .setTrue arg | .increment arg | .decrement arg => arg.text
  | .copy transfer => transfer.source.text ++ " -> " ++ transfer.target.text
  | .equals comparison | .notEquals comparison =>
    comparison.left.text ++ ", " ++ comparison.right.text ++ " -> " ++ comparison.result.text
  | .jump direction target => direction.sign ++ toString target.toNat
  | .jumpIf direction branch =>
    direction.sign ++ toString branch.target.toNat ++ " IF " ++ branch.condition.text ++ "=" ++
      (if branch.polarity then "true" else "false")
  | .changeType retyping =>
    retyping.arg.text ++ " TYPE " ++ toString retyping.layout.typeTag.toNat ++
      " SIZE " ++ toString retyping.layout.elementSize.toNat ++
      " COUNT " ++ toString retyping.layout.elementCount.toNat ++
      " SLICES " ++ toString retyping.layout.sliceCount.toNat
  | .exit | .endBlock => ""
  | .beginBlock loop => "COUNT " ++ loop.count.text ++ " INDEX " ++ loop.index.text

theorem length_payload (op : Op) (arity : Fin (maxOperands + 1)) :
    op.payload.length = (op.opcode arity).payloadSize := by
  cases op with
  | exit => rfl
  | endBlock => rfl
  | _ => exact length_pack _

/-- An operation is read back from its payload, whatever follows it. -/
theorem ofPayload_payload_append (op : Op) (arity : Fin (maxOperands + 1)) (rest : List UInt8) :
    ofPayload (op.opcode arity) (op.payload ++ rest) = .ok op := by
  cases op with
  | exit => rfl
  | endBlock => rfl
  | _ =>
    simp only [opcode, payload, ofPayload, unpack_pack_append]
    rfl

end Op

end RegisterMachine
