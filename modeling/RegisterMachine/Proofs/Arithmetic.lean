import Mathlib.Data.List.Nodup
import RegisterMachine.Proofs.Atomicity
import RegisterMachine.Proofs.Values

/-!
# Arithmetic

The machine calculates with integers of 64 bits that wrap, and the element that a result goes to
keeps as much of it as it has bytes for. The second reduction swallows the first, so that the
element shows the exact result reduced once, to its own width. Both operands are read before
anything is stored, hence it does not matter whether the result goes to one of them.
-/

namespace RegisterMachine

/-! ### Exact results -/

namespace Integer

variable {bytes : Nat}

/-- What a word loses of a number, an element that is no longer than the word does not show. -/
theorem wrap_bmod (h : bytes ≤ width) (number : Int) :
    wrap bytes (Int.bmod number (2 ^ 64)) = wrap bytes number := by
  rw [wrap_eq_bmod, wrap_eq_bmod]
  exact Int.bmod_bmod_of_dvd (bound_dvd h)

private theorem wrap_add (h : bytes ≤ width) (left right : Int64) :
    wrap bytes (left + right).toInt = wrap bytes (left.toInt + right.toInt) := by
  rw [Int64.toInt_add, wrap_bmod h]

private theorem wrap_sub (h : bytes ≤ width) (left right : Int64) :
    wrap bytes (left - right).toInt = wrap bytes (left.toInt - right.toInt) := by
  rw [Int64.toInt_sub, wrap_bmod h]

private theorem wrap_mul (h : bytes ≤ width) (left right : Int64) :
    wrap bytes (left * right).toInt = wrap bytes (left.toInt * right.toInt) := by
  rw [Int64.toInt_mul, wrap_bmod h]

private theorem wrap_wrap_add (left right : Int) :
    wrap bytes (wrap bytes left + right) = wrap bytes (left + right) := by
  simp only [wrap_eq_bmod, Int.bmod_add_bmod]

/-- Adding a number and taking it away again shows what was there, also where the sum was cut. -/
theorem wrap_add_neg (h : bytes ≤ width) {found old change : Int64}
    (hf : found.toInt = wrap bytes (old + change).toInt) :
    wrap bytes (found + -change).toInt = wrap bytes old.toInt := by
  calc wrap bytes (found + -change).toInt
      = wrap bytes (wrap bytes (old + change).toInt + (-change).toInt) := by rw [wrap_add h, hf]
    _ = wrap bytes (old + change + -change).toInt := by rw [wrap_wrap_add, wrap_add h]
    _ = wrap bytes old.toInt := by rw [Int64.add_assoc, Int64.add_right_neg, Int64.add_zero]

/-- A short element shows two integers alike only if they are written alike. -/
theorem toBytes_congr {size : Nat} (h : size ≤ width) {left right : Int64}
    (hw : wrap (min size width) left.toInt = wrap (min size width) right.toInt) :
    toBytes size left = toBytes size right := by
  have hshown : ofBytes (toBytes size left) = ofBytes (toBytes size right) := by
    apply Int64.toInt_inj.mp
    rw [toInt_ofBytes_toBytes, toInt_ofBytes_toBytes, ← wrap_eq_bmod, ← wrap_eq_bmod, hw]
  have hback (value : Int64) :
      toBytes size (ofBytes (toBytes size value)) = toBytes size value := by
    have hlen := length_toBytes size value
    have hread := toBytes_ofBytes (Nat.le_trans (Nat.le_of_eq hlen) h)
    rwa [hlen] at hread
  rw [← hback left, hshown, hback right]

end Integer

/-! ### Built-in functions -/

/-- A routine that reads an integer first and comes to its end has gone on with what is there. -/
theorem Routine.value_of_readInt_bind {operand : Operand} {next : Int64 → Routine Unit}
    {memory : Registers} (h : ((Routine.readInt operand >>= next).run memory).result = .ok ()) :
    ∃ value, memory.readInt operand = .ok value ∧
      (Routine.readInt operand >>= next).run memory = (next value).run memory := by
  have hrun : (Routine.readInt operand >>= next).run memory =
      (Routine.bind (.done (memory.readInt operand)) next).run memory := rfl
  rw [hrun] at h ⊢
  cases hread : memory.readInt operand with
  | error fault =>
    rw [hread] at h
    cases h
  | ok value => exact ⟨value, rfl, rfl⟩

namespace Builtin

/-- The built-in functions that put an integer into their third operand. -/
inductive Calculation
  | add
  | sub
  | mul
  | min
  | max
  deriving DecidableEq, Repr

namespace Calculation

def name : Calculation → String
  | .add => "add"
  | .sub => "sub"
  | .mul => "mul"
  | .min => "min"
  | .max => "max"

/-- The result in integers of any size. -/
def exact : Calculation → Int → Int → Int
  | .add, left, right => left + right
  | .sub, left, right => left - right
  | .mul, left, right => left * right
  | .min, left, right => Min.min left right
  | .max, left, right => Max.max left right

def inWords : Calculation → Int64 → Int64 → Int64
  | .add => (· + ·)
  | .sub => (· - ·)
  | .mul => (· * ·)
  | .min => fun left right => if left ≤ right then left else right
  | .max => fun left right => if left ≤ right then right else left

private theorem wrap_inWords (kind : Calculation) {bytes : Nat} (h : bytes ≤ Integer.width)
    (left right : Int64) :
    Integer.wrap bytes (kind.inWords left right).toInt =
      Integer.wrap bytes (kind.exact left.toInt right.toInt) := by
  cases kind with
  | add => exact Integer.wrap_add h left right
  | sub => exact Integer.wrap_sub h left right
  | mul => exact Integer.wrap_mul h left right
  | min =>
    simp only [inWords, exact, Int64.le_iff_toInt_le, Int.min_def]
    split <;> rfl
  | max =>
    simp only [inWords, exact, Int64.le_iff_toInt_le, Int.max_def]
    split <;> rfl

end Calculation

private theorem eq_of_name_eq {first second : HostFunction} (hf : first ∈ table.functions)
    (hs : second ∈ table.functions) (h : first.name = second.name) : first = second := by
  have hnodup : (table.functions.toList.map (·.name)).Nodup := by decide
  exact List.inj_on_of_nodup_map hnodup (Array.mem_toList_iff.mpr hf)
    (Array.mem_toList_iff.mpr hs) h

private theorem Calculation.mem_table (kind : Calculation) :
    { name := kind.name, body := arithmetic kind.inWords } ∈ table.functions := by
  cases kind with
  | add => exact FunctionTable.mem_of_get? (show table.get? 0 = some _ from rfl)
  | sub => exact FunctionTable.mem_of_get? (show table.get? 1 = some _ from rfl)
  | mul => exact FunctionTable.mem_of_get? (show table.get? 2 = some _ from rfl)
  | min => exact FunctionTable.mem_of_get? (show table.get? 3 = some _ from rfl)
  | max => exact FunctionTable.mem_of_get? (show table.get? 4 = some _ from rfl)

private theorem less_mem_table : { name := "less", body := less } ∈ table.functions :=
  FunctionTable.mem_of_get? (show table.get? 5 = some _ from rfl)

variable {first second target : Operand} {extra : List Operand}
  {body : Int64 → Int64 → Operand → Routine Unit} {memory : Registers}

/-- A function of two operands that comes to its end has read both before it stores. -/
theorem run_withPair
    (h : ((withPair (first :: second :: target :: extra) body).run memory).result = .ok ()) :
    ∃ left right, memory.readInt first = .ok left ∧ memory.readInt second = .ok right ∧
      (withPair (first :: second :: target :: extra) body).run memory =
        (body left right target).run memory := by
  have hpair : withPair (first :: second :: target :: extra) body =
      Routine.readInt first >>= fun left => Routine.readInt second >>= fun right =>
        body left right target := rfl
  rw [hpair] at h ⊢
  obtain ⟨left, hleft, hrun⟩ := Routine.value_of_readInt_bind h
  rw [hrun] at h ⊢
  obtain ⟨right, hright, hrun⟩ := Routine.value_of_readInt_bind h
  exact ⟨left, right, hleft, hright, hrun⟩

end Builtin

namespace FunctionTable

variable {functions : FunctionTable} {index : Nat}

/-- The function at a place does what the built-in one of a name does. -/
def HasBuiltin (functions : FunctionTable) (index : Nat) (name : String) : Prop :=
  ∃ host builtin, functions.get? index = some host ∧ builtin ∈ Builtin.table.functions ∧
    builtin.name = name ∧ host.body = builtin.body

private theorem HasBuiltin.exists_body {builtin : HostFunction}
    (h : functions.HasBuiltin index builtin.name) (hb : builtin ∈ Builtin.table.functions) :
    ∃ host, functions.get? index = some host ∧ host.body = builtin.body := by
  obtain ⟨host, found, hget, hfound, hname, hbody⟩ := h
  rw [Builtin.eq_of_name_eq hfound hb hname] at hbody
  exact ⟨host, hget, hbody⟩

end FunctionTable

/-! ### One element changed -/

namespace Registers

variable {memory next : Registers} {operand : Operand} {span : Span} {value : Int64}

/-- Only the element that an operand addresses, as it was found before, has other bytes, and no
register has another layout. -/
structure ChangesOnly (memory : Registers) (operand : Operand) (next : Registers) : Prop where
  named : ∃ span before after, memory.element operand = .ok span ∧
    memory.register operand = .ok before ∧ next.register operand = .ok after ∧
    after.layout = before.layout ∧ after.capacity = before.capacity ∧
    ∀ position, ¬ span.Covers position → after.bytes[position]? = before.bytes[position]?
  others : ∀ (bank : Bank) (index : Nat),
    ¬ (bank = operand.bank ∧ index = operand.register.toNat) →
    (next.bank bank)[index]? = (memory.bank bank)[index]?

theorem writeInt_eq_ok_iff :
    memory.writeInt operand value = .ok next ↔
      ∃ span, memory.element operand = .ok span ∧ checkWritable operand = .ok () ∧
        memory.store operand span.start (Integer.toBytes span.size value) = next := by
  simp only [writeInt, Outcome.bind_eq_ok, Outcome.pure_eq_ok]
  constructor
  · rintro ⟨span, hs, _, hw, hn⟩
    exact ⟨span, hs, hw, hn⟩
  · rintro ⟨span, hs, hw, hn⟩
    exact ⟨span, hs, (), hw, hn⟩

/-- Of two stores into one element the second is left. -/
theorem store_store (hs : memory.element operand = .ok span) {first second : List UInt8}
    (hf : first.length = span.size) (hsecond : second.length = span.size) :
    (memory.store operand span.start first).store operand span.start second =
      memory.store operand span.start second := by
  obtain ⟨register, hr, hle⟩ := element_eq_ok hs
  rw [store, store, update_update]
  exact update_congr hr (Register.splice_splice (by omega) (hsecond.trans hf.symm))

end Registers

private theorem Store.Sets.changesOnly {store : Store} {operand : Operand} {value : Int64}
    {memory next : Registers} (h : store.Sets operand value) (hp : memory.put store = .ok next) :
    memory.ChangesOnly operand next := by
  have htarget : store.target = operand := by cases h <;> rfl
  have hwindow : store.window memory = memory.element operand := by cases h <;> rfl
  have hrelayout (layout : Layout) : store.relayout layout = layout := by cases h <;> rfl
  obtain ⟨⟨before, after, hbefore, hafter, ht⟩, hothers⟩ := (Registers.stores_of_put hp).frame
  rw [htarget] at hbefore hafter hothers
  obtain ⟨span, hspan, houtside⟩ := ht.outside
  refine ⟨⟨span, before, after, hwindow.symm.trans hspan, hbefore, hafter,
    ht.layout.trans (hrelayout _), ht.capacity, ?_⟩, hothers⟩
  intro position hp
  apply houtside position
  unfold Span.Covers at hp
  omega

namespace Machine

variable {machine next : Machine} {memory mid : Registers} {target : Operand} {change : Int64}
  {instruction : Instruction}

theorem addTo_eq_ok_iff :
    addTo memory target change = .ok mid ↔
      ∃ old, memory.readInt target = .ok old ∧ memory.writeInt target (old + change) = .ok mid :=
  Outcome.bind_eq_ok

/-- What was added to an element that shows all of its bytes can be taken away again. -/
theorem addTo_neg (h : addTo memory target change = .ok mid) (hi : ¬ target.IndexedBy target)
    {layout : Layout} (hl : memory.layout target = .ok layout)
    (hsize : layout.elementSize.toNat ≤ 8) : addTo mid target (-change) = .ok memory := by
  obtain ⟨old, hold, hwrite⟩ := addTo_eq_ok_iff.mp h
  obtain ⟨found, hfound, hshows, -⟩ := (Store.Sets.writeInt (old + change)).reads hwrite hi hl
  obtain ⟨span, hs, hwritable, rfl⟩ := Registers.writeInt_eq_ok_iff.mp hwrite
  have hspan := Registers.size_of_layout hl hs
  obtain ⟨helement, -⟩ :=
    Registers.elementBytes_store hs hi (Integer.length_toBytes span.size (old + change))
  have hbytes : Integer.toBytes span.size (found + -change) = Integer.toBytes span.size old := by
    apply Integer.toBytes_congr (hspan ▸ hsize)
    apply Integer.wrap_add_neg (Nat.min_le_right _ _)
    rw [hshows, hspan]
    rfl
  -- Writing the old value into the old memory is where the two stores come to.
  have hback : memory.put (.writeInt target old) =
      .ok (memory.store target span.start (Integer.toBytes span.size old)) :=
    Registers.writeInt_eq_ok_iff.mpr ⟨span, hs, hwritable, rfl⟩
  have hsame := (Store.Sets.writeInt old).eq_self hback hl hsize hold
  refine addTo_eq_ok_iff.mpr ⟨found, hfound, ?_⟩
  refine Registers.writeInt_eq_ok_iff.mpr ⟨span, helement, hwritable, ?_⟩
  rw [hbytes, Registers.store_store hs (Integer.length_toBytes _ _) (Integer.length_toBytes _ _)]
  exact hsame

/-! ### What an instruction calculates -/

/-- The machine has moved on. Only the element of an operand has changed, which shows a number as
far as it has bytes for it, unless its index stands in itself. -/
structure Puts (machine : Machine) (target : Operand) (number : Int) (next : Machine) : Prop where
  moved : next = { machine with memory := next.memory, pc := machine.pc + 1 }
  only : machine.memory.ChangesOnly target next.memory
  shows : ¬ target.IndexedBy target → ∃ layout found,
    machine.memory.layout target = .ok layout ∧ next.memory.readInt target = .ok found ∧
      found.toInt = Integer.wrap (min layout.elementSize.toNat 8) number

private theorem Puts.of_sets {store : Store} {value : Int64} {number : Int}
    (hmoved : next = { machine with memory := next.memory, pc := machine.pc + 1 })
    (hstore : store.Sets target value) (hput : machine.memory.put store = .ok next.memory)
    (hwrap : ∀ bytes ≤ Integer.width, Integer.wrap bytes value.toInt = Integer.wrap bytes number) :
    machine.Puts target number next where
  moved := hmoved
  only := hstore.changesOnly hput
  shows hi := by
    obtain ⟨span, hs, -⟩ := hstore.exists_store hput
    obtain ⟨register, hr, -⟩ := Registers.element_eq_ok hs
    have hlayout : machine.memory.layout target = .ok register.layout := by
      rw [Registers.layout, hr]
      rfl
    obtain ⟨found, hfound, hint, -⟩ := hstore.reads hput hi hlayout
    exact ⟨_, found, hlayout, hfound, hint.trans (hwrap _ (Nat.min_le_right _ _))⟩

/-- An instruction that comes to a store comes to no more than that. -/
theorem stored_of_advance {stored : Except Fault Registers}
    (h : machine.advance stored = .ok (.next next)) :
    stored = .ok next.memory ∧
      next = { machine with memory := next.memory, pc := machine.pc + 1 } := by
  obtain ⟨memory, hm, hnext⟩ := Outcome.map_eq_ok.mp h
  cases hnext
  exact ⟨hm, rfl⟩

private theorem puts_of_addTo
    (h : machine.advance (addTo machine.memory target change) = .ok (.next next)) :
    ∃ old, machine.memory.readInt target = .ok old ∧
      machine.Puts target (old.toInt + change.toInt) next := by
  obtain ⟨hadd, hmoved⟩ := stored_of_advance h
  obtain ⟨old, hold, hwrite⟩ := addTo_eq_ok_iff.mp hadd
  exact ⟨old, hold, .of_sets hmoved (.writeInt (old + change)) hwrite
    fun _ hbytes => Integer.wrap_add hbytes old change⟩

private theorem outcome_of_call {function : UInt32} {operands : List Operand} {host : HostFunction}
    (hf : machine.functions.get? function.toNat = some host)
    (h : machine.call function operands = .ok (.next next)) :
    ((host.body operands).run machine.memory).result = .ok () ∧
      next = { machine with
        memory := ((host.body operands).run machine.memory).memory
        trace := machine.trace ++ ((host.body operands).run machine.memory).trace
        pc := machine.pc + 1 } := by
  rw [call, hf] at h
  dsimp only at h
  split at h
  · next hr =>
    cases h
    exact ⟨hr, rfl⟩
  · cases h

/-- A call of a function that reads two operands and then stores has made that one store. -/
theorem put_of_call {function : UInt32} {first second : Operand} {extra : List Operand}
    {host : HostFunction} {body : Int64 → Int64 → Operand → Routine Unit}
    (store : Int64 → Int64 → Store) (hf : machine.functions.get? function.toNat = some host)
    (hbody : host.body = (Builtin.withPair · body))
    (hstore : ∀ left right, (body left right target).run machine.memory =
      { result := (machine.memory.commit (machine.memory.put (store left right))).1
        memory := (machine.memory.commit (machine.memory.put (store left right))).2 })
    (h : machine.call function (first :: second :: target :: extra) = .ok (.next next)) :
    ∃ left right, machine.memory.readInt first = .ok left ∧
      machine.memory.readInt second = .ok right ∧
      machine.memory.put (store left right) = .ok next.memory ∧
      next = { machine with memory := next.memory, pc := machine.pc + 1 } := by
  obtain ⟨hr, hnext⟩ := outcome_of_call hf h
  rw [hbody] at hr hnext
  obtain ⟨left, right, hleft, hright, hrun⟩ := Builtin.run_withPair hr
  rw [hrun, hstore] at hr hnext
  have hput := Registers.commit_granted hr
  subst hnext
  refine ⟨left, right, hleft, hright, hput, ?_⟩
  simp

private theorem puts_of_call {function : UInt32} {first second : Operand} {extra : List Operand}
    {kind : Builtin.Calculation} (hb : machine.functions.HasBuiltin function.toNat kind.name)
    (h : machine.call function (first :: second :: target :: extra) = .ok (.next next)) :
    ∃ left right, machine.memory.readInt first = .ok left ∧
      machine.memory.readInt second = .ok right ∧
      machine.Puts target (kind.exact left.toInt right.toInt) next := by
  obtain ⟨host, hf, hbody⟩ := hb.exists_body kind.mem_table
  obtain ⟨left, right, hleft, hright, hput, hmoved⟩ :=
    put_of_call (fun left right => .writeInt target (kind.inWords left right)) hf hbody
      (fun _ _ => rfl) h
  exact ⟨left, right, hleft, hright, .of_sets hmoved (.writeInt _) hput
    fun _ hbytes => kind.wrap_inWords hbytes left right⟩

private theorem puts_of_call_less {function : UInt32} {first second : Operand}
    {extra : List Operand} (hb : machine.functions.HasBuiltin function.toNat "less")
    (h : machine.call function (first :: second :: target :: extra) = .ok (.next next)) :
    ∃ left right, machine.memory.readInt first = .ok left ∧
      machine.memory.readInt second = .ok right ∧
      machine.Puts target (if left.toInt < right.toInt then 1 else 0) next ∧
      ∀ layout, machine.memory.layout target = .ok layout → 1 ≤ layout.elementSize.toNat →
        ¬ target.IndexedBy target →
        next.memory.readBool target = .ok (decide (left.toInt < right.toInt)) := by
  obtain ⟨host, hf, hbody⟩ := hb.exists_body Builtin.less_mem_table
  obtain ⟨left, right, hleft, hright, hput, hmoved⟩ :=
    put_of_call (fun left right => .writeBool target (left < right)) hf hbody (fun _ _ => rfl) h
  have hlt : decide (left < right) = decide (left.toInt < right.toInt) :=
    decide_eq_decide.mpr Int64.lt_iff_toInt_lt
  have hnumber : (Truth.number (left < right)).toInt =
      if left.toInt < right.toInt then 1 else 0 := by
    rw [hlt]
    by_cases hless : left.toInt < right.toInt <;> simp [Truth.number, hless]
  have hsets : (Store.writeBool target (left < right)).Sets target _ := .writeBool _
  refine ⟨left, right, hleft, hright, .of_sets hmoved hsets hput ?_, ?_⟩
  · intro bytes _
    rw [hnumber]
  · intro layout hl hsize hi
    rw [(hsets.reads_truth hput hi hl hsize).1, hlt]

/-- A machine that counts down where another has counted up has the memory of before. -/
theorem step_undoes (h : addTo memory target 1 = .ok machine.memory)
    (hi : ¬ target.IndexedBy target) {layout : Layout} (hl : memory.layout target = .ok layout)
    (hsize : layout.elementSize.toNat ≤ 8)
    (hat : machine.program.instruction? machine.pc = some instruction)
    (hop : instruction.op = .decrement target) :
    ∃ final, machine.step = .ok (.next final) ∧ final.memory = memory := by
  refine ⟨{ machine with memory, pc := machine.pc + 1 }, ?_, rfl⟩
  rw [step_eq_perform hat, perform, hop]
  dsimp only
  rw [addTo_neg h hi hl hsize]
  rfl

/-- A slice of one instruction that has nothing to tell has carried it out. -/
theorem exists_next_of_cycle_running (h : (machine.cycle 1).1 = .running) :
    ∃ next, machine.step = .ok (.next next) := by
  rw [cycle] at h
  split at h
  · next next hs => exact ⟨next, hs⟩
  · cases h
  · cases h
  · cases h

/-- Machine arithmetic is that of the integers, reduced to the width of what the result goes to.
This holds of counting up and down and of the built-in functions on integers, whether or not the
result replaces one of the operands; a comparison is shown as it is, if there is a byte for it.
Nothing but the element that the result goes to is changed. Counting up is undone by counting down
where an element shows all of its bytes. -/
theorem step_calculates (hi : machine.program.instruction? machine.pc = some instruction)
    (hs : machine.step = .ok (.next next)) :
    (∀ target, instruction.op = .increment target → ∃ old,
      machine.memory.readInt target = .ok old ∧ machine.Puts target (old.toInt + 1) next) ∧
    (∀ target, instruction.op = .decrement target → ∃ old,
      machine.memory.readInt target = .ok old ∧ machine.Puts target (old.toInt - 1) next) ∧
    (∀ function (kind : Builtin.Calculation) first second target extra,
      instruction.op = .execute function →
      instruction.operands = first :: second :: target :: extra →
      machine.functions.HasBuiltin function.toNat kind.name → ∃ left right,
        machine.memory.readInt first = .ok left ∧ machine.memory.readInt second = .ok right ∧
        machine.Puts target (kind.exact left.toInt right.toInt) next) ∧
    (∀ function first second target extra, instruction.op = .execute function →
      instruction.operands = first :: second :: target :: extra →
      machine.functions.HasBuiltin function.toNat "less" → ∃ left right,
        machine.memory.readInt first = .ok left ∧ machine.memory.readInt second = .ok right ∧
        machine.Puts target (if left.toInt < right.toInt then 1 else 0) next ∧
        ∀ layout, machine.memory.layout target = .ok layout → 1 ≤ layout.elementSize.toNat →
          ¬ target.IndexedBy target →
          next.memory.readBool target = .ok (decide (left.toInt < right.toInt))) ∧
    ∀ target layout, instruction.op = .increment target →
      machine.memory.layout target = .ok layout → layout.elementSize.toNat ≤ 8 →
      ¬ target.IndexedBy target → ∀ (later : Machine) (back : Instruction),
        later.memory = next.memory → later.program.instruction? later.pc = some back →
        back.op = .decrement target →
        ∃ final, later.step = .ok (.next final) ∧ final.memory = machine.memory := by
  rw [step_eq_perform hi] at hs
  unfold perform at hs
  refine ⟨?_, ?_, ?_, ?_, ?_⟩
  · intro target hop
    rw [hop] at hs
    exact puts_of_addTo hs
  · intro target hop
    rw [hop] at hs
    exact puts_of_addTo hs
  · intro function kind first second target extra hop hoperands hbuiltin
    rw [hop, hoperands] at hs
    exact puts_of_call hbuiltin hs
  · intro function first second target extra hop hoperands hbuiltin
    rw [hop, hoperands] at hs
    exact puts_of_call_less hbuiltin hs
  · intro target layout hop hl hsize hindex later back hmemory hback hdown
    rw [hop] at hs
    have hup := (stored_of_advance hs).1
    rw [← hmemory] at hup
    exact step_undoes hup hindex hl hsize hback hdown

/-- The sum of an element of one byte and a wider one goes to the first and is cut there. Counting
up from the greatest value of a byte gives the least, and counting down leads back. -/
theorem step_calculates_byte :
    let code : Code :=
      { buffer := [3, 0, 0, 0, 0, 0, 0, 0, 0, 0, 0, 0, 0, 0, 0, 0, 1, 0, 0, 0, 0, 0,
          0, 0, 0, 0, 0, 0, 0, 0, 69, 0, 0, 0, 0, 0, 0, 0, 0, 0, 70, 0, 0, 0, 0, 0, 0, 0, 0, 0],
        count := 3 }
    let short : Layout := { elementSize := 1, elementCount := 1 }
    let memory (byte : UInt8) : Registers :=
      { work := #[{ layout := short, bytes := [byte] },
          { layout := .integer, bytes := 100 :: List.replicate 7 0 }] }
    ∃ program, Program.ofCode code = .ok program ∧
      let machine (byte : UInt8) := create program Builtin.table (memory byte) 1
      (∃ next found, ((machine 100).startAt 0).step = .ok (.next next) ∧
        next.memory.readInt (.work 0) = .ok found ∧ found.toInt = -56) ∧
      ∃ next found final, ((machine 127).startAt 1).step = .ok (.next next) ∧
        next.memory.readInt (.work 0) = .ok found ∧ found.toInt = -128 ∧
        next.step = .ok (.next final) ∧ final.memory = memory 127 := by
  intro code short memory
  have hlayout (byte : UInt8) : (memory byte).layout (.work 0) = .ok short := rfl
  obtain ⟨program, hp⟩ :=
    Outcome.isOk_iff.mp (show (Program.ofCode code).isOk = true by decide +kernel)
  have hfacts : (Program.ofCode code).map (fun program =>
      decide (program.instruction? 0 =
          some { op := .execute 0, operands := [.work 0, .work 1, .work 0] } ∧
        program.instruction? 1 = some { op := .increment (.work 0) } ∧
        program.instruction? 2 = some { op := .decrement (.work 0) } ∧
        (((create program Builtin.table (memory 100) 1).startAt 0).cycle 1).1 = .running)) =
          .ok true := by decide +kernel
  rw [hp] at hfacts
  simp only [Except.map, Except.ok.injEq, decide_eq_true_eq] at hfacts
  obtain ⟨hadd, hup, hdown, hsum⟩ := hfacts
  refine ⟨program, hp, ?_, ?_⟩
  · obtain ⟨next, hs⟩ := exists_next_of_cycle_running hsum
    obtain ⟨left, right, hleft, hright, hputs⟩ :=
      (step_calculates hadd hs).2.2.1 0 .add (.work 0) (.work 1) (.work 0) [] rfl rfl
        ⟨_, _, rfl, Builtin.Calculation.add.mem_table, rfl, rfl⟩
    cases (show (memory 100).readInt (.work 0) = .ok 100 by decide).symm.trans hleft
    cases (show (memory 100).readInt (.work 1) = .ok 100 by decide).symm.trans hright
    obtain ⟨layout, found, hfits, hfound, hint⟩ := hputs.shows (by decide)
    cases (hlayout 100).symm.trans hfits
    exact ⟨next, found, hs, hfound, hint.trans (by decide)⟩
  · let next : Machine :=
      { (create program Builtin.table (memory 127) 1).startAt 1 with memory := memory 128, pc := 2 }
    have hs : ((create program Builtin.table (memory 127) 1).startAt 1).step =
        .ok (.next next) := by
      rw [step_eq_perform hup]
      change advance _ (addTo (memory 127) (.work 0) 1) = _
      rw [show addTo (memory 127) (.work 0) 1 = .ok (memory 128) by decide]
      rfl
    obtain ⟨hincrement, -, -, -, hundone⟩ := step_calculates hup hs
    obtain ⟨old, hold, hputs⟩ := hincrement (.work 0) rfl
    cases (show (memory 127).readInt (.work 0) = .ok 127 by decide).symm.trans hold
    obtain ⟨layout, found, hfits, hfound, hint⟩ := hputs.shows (by decide)
    cases (hlayout 127).symm.trans hfits
    obtain ⟨final, hback, hmemory⟩ :=
      hundone (.work 0) short rfl (hlayout 127) (by decide) (by decide) next _ rfl hdown rfl
    exact ⟨next, found, final, hs, hfound, hint.trans (by decide), hback, hmemory⟩

end Machine

end RegisterMachine
