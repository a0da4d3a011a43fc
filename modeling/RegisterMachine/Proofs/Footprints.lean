import RegisterMachine.Proofs.Windows

/-!
# What a store leaves alone

Running code has five ways to change a register, and a host has two more. Each names one register and,
unless it only gives that another layout, opens one window on it. The window is found before anything
is changed, also when the index that finds it stands in the very register that is about to change.
Nothing outside the window is touched, and nothing at all by a store that is refused.
-/

namespace RegisterMachine

open InPlace

/-- What changes a register. -/
inductive Store
  | writeBool (operand : Operand) (value : Bool)
  | writeInt (operand : Operand) (value : Int64)
  | zero (operand : Operand)
  | copy (source target : Operand)
  | changeType (operand : Operand) (layout : Layout)
  /-- By the host, which may fill literals. -/
  | setBool (operand : Operand) (value : Bool)
  /-- By the host, which may fill literals. -/
  | setInt (operand : Operand) (value : Int64)
  deriving DecidableEq, Repr

namespace Store

def target : Store → Operand
  | .writeBool operand _ | .writeInt operand _ | .zero operand | .changeType operand _
  | .setBool operand _ | .setInt operand _ => operand
  | .copy _ target => target

/-- The window that is opened on the register. A change of type opens an empty one. -/
def window (memory : Registers) : Store → Except Fault Span
  | .writeBool operand _ | .writeInt operand _ | .setBool operand _ | .setInt operand _ =>
    memory.element operand
  | .zero operand => memory.region operand
  | .copy _ target => memory.region target
  | .changeType _ _ => .ok { start := 0, size := 0 }

/-- The layout that the register is left with. -/
def relayout : Store → Layout → Layout
  | .changeType _ layout, _ => layout
  | _, layout => layout

/-- What a store does to the register that it names: it may change the layout if that is what it is
for, and bytes inside its window, as it was found before. -/
structure Touches (store : Store) (memory : Registers) (before after : Register) : Prop where
  layout : after.layout = store.relayout before.layout
  capacity : after.capacity = before.capacity
  outside : ∃ span, store.window memory = .ok span ∧
    ∀ position, position < span.start ∨ span.start + span.size ≤ position →
      after.bytes[position]? = before.bytes[position]?

private theorem touches_splice {store : Store} {memory : Registers} {register : Register}
    {span : Span} {bytes : List UInt8} (hl : store.relayout register.layout = register.layout)
    (hw : store.window memory = .ok span) (hle : span.start + span.size ≤ register.capacity)
    (hlen : bytes.length ≤ span.size) :
    store.Touches memory register (register.splice span.start bytes) where
  layout := hl.symm
  capacity := Register.capacity_splice (by omega)
  outside := by
    refine ⟨span, hw, ?_⟩
    intro position hp
    rw [Register.getElem?_splice (by omega), if_neg (by omega)]

end Store

namespace Registers

variable {memory next : Registers} {store : Store}

def put (memory : Registers) : Store → Except Fault Registers
  | .writeBool operand value => memory.writeBool operand value
  | .writeInt operand value => memory.writeInt operand value
  | .zero operand => memory.zero operand
  | .copy source target => memory.copy source target
  | .changeType operand layout => memory.changeType operand layout
  | .setBool operand value => memory.setBool operand value
  | .setInt operand value => memory.setInt operand value

/-! ### In place -/

/-- Overwrite an element of any bank. -/
def fill (operand : Operand) (content : Nat → List UInt8) : EStateM Fault Registers Unit := do
  let span ← inspect fun memory => memory.element operand
  modify fun memory => memory.store operand span.start (content span.size)

def putInPlace : Store → EStateM Fault Registers Unit
  | .writeBool operand value => serveInPlace (.writeBool operand value)
  | .writeInt operand value => serveInPlace (.writeInt operand value)
  | .zero operand => serveInPlace (.zero operand)
  | .copy source target => serveInPlace (.copy source target)
  | .changeType operand layout => serveInPlace (.changeType operand layout)
  | .setBool operand value => fill operand fun size => Truth.toBytes size value
  | .setInt operand value => fill operand fun size => Integer.toBytes size value

private theorem run_fill (operand : Operand) (content : Nat → List UInt8) :
    (fill operand content).run memory = replied (memory.commit (do
      let span ← memory.element operand
      return memory.store operand span.start (content span.size))) := by
  rw [replied_commit, Outcome.map_bind]
  apply run_inspect_bind
  intro span _
  rfl

/-- A store that is carried out in place comes to what it comes to, and to nothing when it is
refused. -/
theorem run_putInPlace (memory : Registers) (store : Store) :
    (putInPlace store).run memory = replied (memory.commit (memory.put store)) := by
  cases store with
  | writeBool operand value => exact run_serveInPlace (.writeBool operand value)
  | writeInt operand value => exact run_serveInPlace (.writeInt operand value)
  | zero operand => exact run_serveInPlace (.zero operand)
  | copy source target => exact run_serveInPlace (.copy source target)
  | changeType operand layout => exact run_serveInPlace (.changeType operand layout)
  | setBool operand value => exact run_fill operand fun size => Truth.toBytes size value
  | setInt operand value => exact run_fill operand fun size => Integer.toBytes size value

/-! ### The register that is named -/

/-- How memory comes out of a store: one register is changed, as far as the store touches it. -/
def Stores (memory : Registers) (store : Store) (next : Registers) : Prop :=
  ∃ register f, memory.register store.target = .ok register ∧
    next = memory.update store.target f ∧ store.Touches memory register (f register)

private theorem stores_of_splice {span : Span} {bytes : List UInt8}
    (hl : ∀ layout, store.relayout layout = layout) (hw : store.window memory = .ok span)
    (hspan : ∃ register, memory.register store.target = .ok register ∧
      span.start + span.size ≤ register.capacity)
    (hlen : bytes.length ≤ span.size) :
    memory.Stores store (memory.store store.target span.start bytes) := by
  obtain ⟨register, hr, hle⟩ := hspan
  exact ⟨register, _, hr, rfl, Store.touches_splice (hl register.layout) hw hle hlen⟩

/-- A store by running code finds its window, then has its bank checked. -/
theorem window_of_overwrite {operand : Operand} {resolved : Except Fault Span}
    {content : Span → List UInt8}
    (h : (do
      let span ← resolved
      checkWritable operand
      return memory.store operand span.start (content span)) = .ok next) :
    ∃ span, resolved = .ok span ∧ memory.store operand span.start (content span) = next := by
  obtain ⟨span, hs, h⟩ := Outcome.bind_eq_ok.mp h
  obtain ⟨_, -, h⟩ := Outcome.bind_eq_ok.mp h
  exact ⟨span, hs, Except.ok.inj h⟩

theorem window_of_fill {operand : Operand} {content : Span → List UInt8}
    (h : (do
      let span ← memory.element operand
      return memory.store operand span.start (content span)) = .ok next) :
    ∃ span, memory.element operand = .ok span ∧
      memory.store operand span.start (content span) = next := by
  obtain ⟨span, hs, h⟩ := Outcome.bind_eq_ok.mp h
  exact ⟨span, hs, Except.ok.inj h⟩

theorem stores_of_put (h : memory.put store = .ok next) : memory.Stores store next := by
  cases store with
  | writeBool operand value =>
    obtain ⟨span, hs, rfl⟩ := window_of_overwrite h
    exact stores_of_splice (fun _ => rfl) hs (element_eq_ok hs)
      (Nat.le_of_eq (Truth.length_toBytes span.size value))
  | writeInt operand value =>
    obtain ⟨span, hs, rfl⟩ := window_of_overwrite h
    exact stores_of_splice (fun _ => rfl) hs (element_eq_ok hs)
      (Nat.le_of_eq (Integer.length_toBytes span.size value))
  | zero operand =>
    obtain ⟨span, hs, rfl⟩ := window_of_overwrite h
    exact stores_of_splice (fun _ => rfl) hs (region_eq_ok hs)
      (Nat.le_of_eq List.length_replicate)
  | copy source target =>
    obtain ⟨bytes, -, h⟩ := Outcome.bind_eq_ok.mp h
    obtain ⟨span, hs, rfl⟩ := window_of_overwrite h
    exact stores_of_splice (fun _ => rfl) hs (region_eq_ok hs) (List.length_take_le span.size bytes)
  | changeType operand layout =>
    obtain ⟨_, -, h⟩ := Outcome.bind_eq_ok.mp h
    obtain ⟨register, hr, h⟩ := Outcome.bind_eq_ok.mp h
    split at h
    · cases h
      exact ⟨register, _, hr, rfl, rfl, rfl, { start := 0, size := 0 }, rfl, fun _ _ => rfl⟩
    · cases h
  | setBool operand value =>
    obtain ⟨span, hs, rfl⟩ := window_of_fill h
    exact stores_of_splice (fun _ => rfl) hs (element_eq_ok hs)
      (Nat.le_of_eq (Truth.length_toBytes span.size value))
  | setInt operand value =>
    obtain ⟨span, hs, rfl⟩ := window_of_fill h
    exact stores_of_splice (fun _ => rfl) hs (element_eq_ok hs)
      (Nat.le_of_eq (Integer.length_toBytes span.size value))

/-- The register that is changed, and all others as they were. -/
theorem Stores.frame (h : memory.Stores store next) :
    (∃ before after, memory.register store.target = .ok before ∧
      next.register store.target = .ok after ∧ store.Touches memory before after) ∧
    ∀ (bank : Bank) (index : Nat),
      ¬ (bank = store.target.bank ∧ index = store.target.register.toNat) →
      (next.bank bank)[index]? = (memory.bank bank)[index]? := by
  obtain ⟨register, f, hr, rfl, ht⟩ := h
  refine ⟨⟨register, f register, hr, ?_, ht⟩, ?_⟩
  · rw [register_update, if_pos ⟨rfl, rfl⟩, hr]
    rfl
  · intro bank index hne
    rw [lookup_update, if_neg fun hs => hne ⟨hs.1.symm, hs.2.symm⟩]

/-- A store that is refused leaves memory as it was. One that is carried out leaves every register but
the one that it names as it was; that one keeps its allocation, and outside the window that the store
opened on it, as this was found before, it keeps its bytes. Only a change of type changes the layout,
and it changes no byte. -/
theorem put_leaves_alone (memory : Registers) (store : Store) :
    match (putInPlace store).run memory with
    | .error fault left => memory.put store = .error fault ∧ left = memory
    | .ok () left => memory.put store = .ok left ∧
      (∃ before after, memory.register store.target = .ok before ∧
        left.register store.target = .ok after ∧ store.Touches memory before after) ∧
      ∀ (bank : Bank) (index : Nat),
        ¬ (bank = store.target.bank ∧ index = store.target.register.toNat) →
        (left.bank bank)[index]? = (memory.bank bank)[index]? := by
  rw [run_putInPlace]
  cases hp : memory.put store with
  | error fault => exact ⟨rfl, rfl⟩
  | ok next => exact ⟨rfl, (stores_of_put hp).frame⟩

end Registers

end RegisterMachine
