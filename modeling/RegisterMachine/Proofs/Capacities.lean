import RegisterMachine.Proofs.Allocations
import RegisterMachine.Proofs.Layouts

/-!
# Registers stay backed

A register is backed when its bytes are enough for its layout. Requests keep memory backed, since none
takes bytes away and none gives a register a layout that is too large for it. So a compiler that never
declares more bytes than a register has is never told, while its code runs, that a layout is too large.
Of registers that are backed the layout alone says which elements there are.
-/

namespace RegisterMachine

/-! ### Layouts and their bytes -/

namespace Layout

variable {layout : Layout} {capacity : Nat}

theorem fitsIn_iff :
    layout.fitsIn capacity = true ↔ ∃ size, layout.footprint? = some size ∧ size ≤ capacity := by
  unfold fitsIn
  cases layout.footprint? with
  | none => simp
  | some size => simp

private theorem fitsIn_of_le {more : Nat} (h : layout.fitsIn capacity = true)
    (hle : capacity ≤ more) :
    layout.fitsIn more = true := by
  obtain ⟨size, hs, hsize⟩ := fitsIn_iff.mp h
  exact fitsIn_iff.mpr ⟨size, hs, Nat.le_trans hsize hle⟩

private theorem bytes_le_of_fitsIn (h : layout.fitsIn capacity = true) :
    layout.bytes ≤ capacity := by
  obtain ⟨size, hs, hsize⟩ := fitsIn_iff.mp h
  unfold footprint? at hs
  split at hs
  · cases hs
    exact hsize
  · cases hs

end Layout

/-- The layout has a footprint, and there are as many bytes. -/
def Register.Backed (register : Register) : Prop :=
  ∃ size, register.layout.footprint? = some size ∧ size ≤ register.capacity

def Registers.Backed (memory : Registers) : Prop :=
  ∀ bank, ∀ register ∈ memory.bank bank, register.Backed

private theorem Register.Backed.fitsIn {register : Register} (h : register.Backed) :
    register.layout.fitsIn register.capacity = true := Layout.fitsIn_iff.mpr h

private theorem Registers.Backed.register {memory : Registers} (h : memory.Backed)
    {operand : Operand} {register : Register} (hr : memory.register operand = .ok register) :
    register.Backed :=
  h operand.bank register (Array.mem_of_getElem? (register_eq_ok_iff.mp hr))

/-- A request keeps memory backed. -/
theorem Registers.Change.backed {memory next : Registers} (hc : Change memory next)
    (h : memory.Backed) : next.Backed := by
  cases hc with
  | none => exact h
  | @update operand register f hw hr hcapacity hlayout =>
    intro bank found hmem
    obtain ⟨index, hi⟩ := Array.mem_iff_getElem?.mp hmem
    rw [lookup_update] at hi
    split at hi
    · next hs =>
      -- The register that was changed: its bytes are as many as before.
      obtain ⟨rfl, rfl⟩ := hs
      rw [register_eq_ok_iff.mp hr, Option.map_some] at hi
      cases hi
      rw [Register.Backed, hcapacity, ← Layout.fitsIn_iff]
      rcases hlayout with hsame | hfits
      · rw [hsame]
        exact (h.register hr).fitsIn
      · exact hfits
    · exact h bank found (Array.mem_of_getElem? hi)

/-! ### Elements that are not there -/

/-- What the bytes of a backed register have no room for, its layout does not have either. -/
theorem Register.Backed.elementSpan_eq {register : Register} (h : register.Backed) (index : Int) :
    register.elementSpan index =
      if 0 ≤ index ∧ index < register.layout.elements then
        .ok { start := index.toNat * register.layout.elementSize.toNat,
              size := register.layout.elementSize.toNat }
      else Fault.raise .elementOutOfRange := by
  unfold elementSpan
  dsimp only
  by_cases hi : 0 ≤ index ∧ index < register.layout.elements
  · have hcount : index.toNat + 1 ≤ register.layout.elements := by omega
    have hroom : (index.toNat + 1) * register.layout.elementSize.toNat ≤ register.capacity :=
      calc (index.toNat + 1) * register.layout.elementSize.toNat
          ≤ register.layout.bytes := Nat.mul_le_mul_right _ hcount
        _ ≤ register.capacity := Layout.bytes_le_of_fitsIn h.fitsIn
    rw [if_pos hi, if_pos ⟨hi.1, hi.2, hroom⟩]
  · rw [if_neg hi, if_neg fun h => hi ⟨h.1, h.2.1⟩]

namespace Outcome

variable {α β : Type} {p q : Prop}

def RefusedFor (cause : Fault.Cause) (x : Except Fault α) : Prop :=
  ∃ fault, x = .error fault ∧ fault.cause = cause

/-- The computation is refused for a missing element if `p` holds, and succeeds if not. -/
def MissesIf (p : Prop) (x : Except Fault α) : Prop :=
  (p ∧ x = Fault.raise .elementOutOfRange) ∨ (¬ p ∧ ∃ a, x = .ok a)

theorem MissesIf.bind {x : Except Fault α} {f : α → Except Fault β} (hx : MissesIf p x)
    (hf : ∀ a, x = .ok a → MissesIf q (f a)) : MissesIf (p ∨ q) (x >>= f) := by
  rcases hx with ⟨hp, rfl⟩ | ⟨hp, a, rfl⟩
  · exact .inl ⟨.inl hp, rfl⟩
  · rcases hf a rfl with ⟨hq, hfa⟩ | ⟨hq, b, hfa⟩
    · exact .inl ⟨.inr hq, hfa⟩
    · exact .inr ⟨not_or.mpr ⟨hp, hq⟩, b, hfa⟩

theorem MissesIf.bind_ok {x : Except Fault α} {f : α → Except Fault β} (hx : MissesIf p x)
    (hf : ∀ a, x = .ok a → ∃ b, f a = .ok b) : MissesIf p (x >>= f) := by
  have hboth : MissesIf (p ∨ False) (x >>= f) := hx.bind fun a ha => .inr ⟨not_false, hf a ha⟩
  rwa [or_false] at hboth

/-- What is left to do behind it may be refused for other causes. -/
theorem MissesIf.refusedFor_bind_iff {x : Except Fault α} {f : α → Except Fault β}
    (hx : MissesIf p x) (hf : ∀ a, RefusedFor .elementOutOfRange (f a) ↔ q) :
    RefusedFor .elementOutOfRange (x >>= f) ↔ p ∨ q := by
  rcases hx with ⟨hp, rfl⟩ | ⟨hp, a, rfl⟩
  · exact ⟨fun _ => .inl hp, fun _ => ⟨_, rfl, rfl⟩⟩
  · refine (hf a).trans ⟨.inr, ?_⟩
    rintro (h | h)
    · exact absurd h hp
    · exact h

theorem MissesIf.refusedFor_iff {x : Except Fault α} (hx : MissesIf p x) :
    RefusedFor .elementOutOfRange x ↔ p := by
  rcases hx with ⟨hp, rfl⟩ | ⟨hp, a, rfl⟩
  · exact ⟨fun _ => hp, fun _ => ⟨_, rfl, rfl⟩⟩
  · exact ⟨nofun, fun h => absurd h hp⟩

end Outcome

namespace Registers

open Outcome

variable {memory : Registers} {operand : Operand}

/-- The register that the operand names is there, and its element stands for an index. -/
structure Resolves (memory : Registers) (operand : Operand) : Prop where
  register : ∃ register, memory.register operand = .ok register
  index : ∃ index, memory.index operand.element = .ok index

/-- The index that the operand stands for is none of an element of its register. -/
def Lacks (memory : Registers) (operand : Operand) : Prop :=
  ∃ register index, memory.register operand = .ok register ∧
    memory.index operand.element = .ok index ∧
    (index < 0 ∨
      (register.layout.elementCount.toNat * max register.layout.sliceCount.toNat 1 : Nat) ≤ index)

private theorem Backed.element_missesIf (h : memory.Backed) (hr : memory.Resolves operand) :
    MissesIf (memory.Lacks operand) (memory.element operand) := by
  obtain ⟨⟨register, hregister⟩, index, hindex⟩ := hr
  have hspan := (h.register hregister).elementSpan_eq index
  have helement : memory.element operand = register.elementSpan index := by
    simp only [Registers.element, hregister, hindex, bind, Except.bind]
  have hlacks : memory.Lacks operand ↔ ¬ (0 ≤ index ∧ index < register.layout.elements) := by
    simp only [Lacks, hregister, hindex, Except.ok.injEq, existsAndEq, true_and, Layout.elements]
    omega
  rw [helement, hspan, hlacks]
  by_cases hi : 0 ≤ index ∧ index < register.layout.elements
  · rw [if_pos hi]
    exact .inr ⟨not_not.mpr hi, _, rfl⟩
  · rw [if_neg hi]
    exact .inl ⟨hi, rfl⟩

/-- The whole of a backed register is always given out. -/
theorem Backed.region_missesIf (h : memory.Backed) (hr : memory.Resolves operand) :
    MissesIf (operand.element ≠ .whole ∧ memory.Lacks operand) (memory.region operand) := by
  unfold region
  split
  · next hwhole =>
    obtain ⟨register, hregister⟩ := hr.register
    refine .inr ⟨fun hn => hn.1 hwhole, { start := 0, size := register.layout.bytes }, ?_⟩
    simp only [hregister, bind, Except.bind, Register.wholeSpan, (h.register hregister).fitsIn,
      if_true]
  · next hwhole =>
    have helement := h.element_missesIf hr
    rcases helement with ⟨hp, hx⟩ | ⟨hp, hx⟩
    · exact .inl ⟨⟨hwhole, hp⟩, hx⟩
    · exact .inr ⟨fun hn => hp hn.2, hx⟩

private theorem Backed.elementBytes_missesIf (h : memory.Backed) (hr : memory.Resolves operand) :
    MissesIf (memory.Lacks operand) (memory.elementBytes operand) := by
  apply (h.element_missesIf hr).bind_ok
  intro span _
  obtain ⟨register, hregister⟩ := hr.register
  exact ⟨register.slice span, by rw [hregister]; rfl⟩

private theorem Backed.regionBytes_missesIf (h : memory.Backed) (hr : memory.Resolves operand) :
    MissesIf (operand.element ≠ .whole ∧ memory.Lacks operand) (memory.regionBytes operand) := by
  apply (h.region_missesIf hr).bind_ok
  intro span _
  obtain ⟨register, hregister⟩ := hr.register
  exact ⟨register.slice span, by rw [hregister]; rfl⟩

/-- Behind what it resolves to, a store can only be refused for its bank. -/
theorem refusedFor_overwrite_iff {p : Prop} {resolved : Except Fault Span}
    {content : Span → List UInt8} (h : MissesIf p resolved) :
    RefusedFor .elementOutOfRange (do
      let span ← resolved
      checkWritable operand
      return memory.store operand span.start (content span)) ↔ p := by
  have hrest : ∀ span, RefusedFor .elementOutOfRange (do
      checkWritable operand
      return memory.store operand span.start (content span)) ↔ False := by
    intro span
    unfold checkWritable
    split
    · exact ⟨by rintro ⟨_, ⟨⟩, ⟨⟩⟩, False.elim⟩
    · exact ⟨nofun, False.elim⟩
  exact (h.refusedFor_bind_iff hrest).trans (or_iff_left not_false)

theorem refusedFor_changeType_iff (hr : memory.Resolves operand) (layout : Layout) :
    RefusedFor .elementOutOfRange (memory.changeType operand layout) ↔ False := by
  obtain ⟨register, hregister⟩ := hr.register
  unfold changeType checkWritable
  rw [hregister]
  split
  · exact ⟨by rintro ⟨_, ⟨⟩, ⟨⟩⟩, False.elim⟩
  · cases hf : layout.fitsIn register.capacity with
    | true => simp [RefusedFor, hf, bind, Except.bind, pure, Except.pure]
    | false => simp [RefusedFor, hf, bind, Except.bind]

theorem refusedFor_commit_iff {cause : Fault.Cause} {stored : Except Fault Registers} :
    RefusedFor cause (memory.commit stored).1 ↔ RefusedFor cause stored := by
  cases stored with
  | ok next => simp [RefusedFor, commit]
  | error fault => simp [RefusedFor, commit]

end Registers

namespace Request

/-- The operands that are given with a request. -/
def operands : Request → List Operand
  | .layout operand | .capacity operand | .readBool operand | .writeBool operand _
  | .readInt operand | .writeInt operand _ | .zero operand | .changeType operand _ => [operand]
  | .copy first second | .equals first second => [first, second]

/-- Those of them that a single element is reached by. -/
def elements : Request → List Operand
  | .readBool operand | .writeBool operand _ | .readInt operand | .writeInt operand _ => [operand]
  | .zero operand => [operand].filter (·.element ≠ .whole)
  | .copy first second | .equals first second => [first, second].filter (·.element ≠ .whole)
  | .layout _ | .capacity _ | .changeType _ _ => []

end Request

open Outcome in
/-- Where memory is backed, a request whose operands resolve is refused for a missing element exactly
when one of the elements that it reaches is none of its register's. -/
theorem Registers.Backed.refusedFor_iff {memory : Registers} (h : memory.Backed) (request : Request)
    (hr : ∀ operand ∈ request.operands, memory.Resolves operand) :
    RefusedFor .elementOutOfRange (memory.serve request).1 ↔
      ∃ operand ∈ request.elements, memory.Lacks operand := by
  cases request with
  | layout operand =>
    obtain ⟨register, hregister⟩ := (hr operand List.mem_cons_self).register
    simp [serve, layout, hregister, RefusedFor, Request.elements, bind, Except.bind, pure,
      Except.pure]
  | capacity operand =>
    obtain ⟨register, hregister⟩ := (hr operand List.mem_cons_self).register
    simp [serve, capacity, hregister, RefusedFor, Request.elements, bind, Except.bind, pure,
      Except.pure]
  | readBool operand =>
    have hbytes := h.elementBytes_missesIf (hr operand List.mem_cons_self)
    refine (hbytes.bind_ok fun bytes _ => ⟨_, rfl⟩).refusedFor_iff.trans ?_
    simp [Request.elements]
  | readInt operand =>
    have hbytes := h.elementBytes_missesIf (hr operand List.mem_cons_self)
    refine (hbytes.bind_ok fun bytes _ => ⟨_, rfl⟩).refusedFor_iff.trans ?_
    simp [Request.elements]
  | writeBool operand value =>
    have hspan := h.element_missesIf (hr operand List.mem_cons_self)
    refine refusedFor_commit_iff.trans ((refusedFor_overwrite_iff hspan).trans ?_)
    simp [Request.elements]
  | writeInt operand value =>
    have hspan := h.element_missesIf (hr operand List.mem_cons_self)
    refine refusedFor_commit_iff.trans ((refusedFor_overwrite_iff hspan).trans ?_)
    simp [Request.elements]
  | zero operand =>
    have hspan := h.region_missesIf (hr operand List.mem_cons_self)
    refine refusedFor_commit_iff.trans ((refusedFor_overwrite_iff hspan).trans ?_)
    simp [Request.elements]
  | copy source target =>
    have hbytes := h.regionBytes_missesIf (hr source List.mem_cons_self)
    have hspan := h.region_missesIf (hr target (List.mem_cons_of_mem _ List.mem_cons_self))
    refine refusedFor_commit_iff.trans ?_
    refine (hbytes.refusedFor_bind_iff fun bytes => refusedFor_overwrite_iff hspan).trans ?_
    simp [Request.elements, or_and_right, exists_or]
  | equals left right =>
    have hleft := h.regionBytes_missesIf (hr left List.mem_cons_self)
    have hright := h.regionBytes_missesIf (hr right (List.mem_cons_of_mem _ List.mem_cons_self))
    have hboth := hleft.bind fun bytes _ => hright.bind_ok fun others _ => ⟨bytes == others, rfl⟩
    refine hboth.refusedFor_iff.trans ?_
    simp [Request.elements, or_and_right, exists_or]
  | changeType operand layout =>
    refine refusedFor_commit_iff.trans ?_
    rw [refusedFor_changeType_iff (hr operand List.mem_cons_self)]
    simp [Request.elements]

/-! ### Layouts that are too large -/

/-- Not a refusal of a layout that is too large. -/
def Fault.NotTooLarge (fault : Fault) : Prop := fault.cause ≠ .layoutTooLarge

namespace Registers

open Outcome

variable {memory next : Registers} {Q : Fault → Prop}

private theorem Backed.refusesFor (h : memory.Backed) : memory.RefusesFor Fault.NotTooLarge where
  own := by simp [Fault.NotTooLarge]
  whole operand register hr := by
    unfold Register.wholeSpan
    rw [if_pos (h.register hr).fitsIn]
    exact faults_ok _

private theorem faults_commit {stored : Except Fault Registers} (h : Faults Q stored) :
    Faults Q (memory.commit stored).1 := by
  cases stored with
  | ok next => exact faults_ok _
  | error fault => exact faults_error (h fault rfl)

/-- A layout that fits is not refused, and nothing else is refused for its layout. -/
theorem RefusesFor.serve (h : memory.RefusesFor Q) (request : Request)
    (hfits : ∀ operand layout register, request = .changeType operand layout →
      memory.register operand = .ok register → layout.fitsIn register.capacity = true) :
    Faults Q (memory.serve request).1 := by
  cases request with
  | layout operand => exact (h.register operand).bind fun _ => faults_ok _
  | capacity operand => exact (h.register operand).bind fun _ => faults_ok _
  | readBool operand => exact h.readBool operand
  | writeBool operand value => exact faults_commit (h.writeBool operand value)
  | readInt operand => exact h.readInt operand
  | writeInt operand value => exact faults_commit (h.writeInt operand value)
  | zero operand => exact faults_commit (h.zero operand)
  | copy source target => exact faults_commit (h.copy source target)
  | equals left right => exact h.equals left right
  | changeType operand layout =>
    apply faults_commit
    apply h.changeType operand layout
    intro register hr
    exact .inl (hfits operand layout register rfl hr)

private theorem Backed.serve (h : memory.Backed) (request : Request) :
    (memory.serve request).2.Backed :=
  (change_serve memory request).backed h

/-- Backed, with the literals and the allocations of other memory. -/
structure BackedAs (memory next : Registers) : Prop where
  backed : next.Backed
  storage : SameStorage memory next

private theorem BackedAs.serve (h : memory.BackedAs next) (request : Request) :
    memory.BackedAs (next.serve request).2 :=
  ⟨h.backed.serve request, h.storage.serve request⟩

private theorem SameStorage.register (h : SameStorage memory next) {operand : Operand}
    {register : Register} (hr : next.register operand = .ok register) :
    ∃ found, memory.register operand = .ok found ∧ found.capacity = register.capacity := by
  have hcapacity := h.capacity_eq operand.bank operand.register.toNat
  rw [register_eq_ok_iff.mp hr, Option.map_some] at hcapacity
  obtain ⟨found, hf, hsame⟩ := Option.map_eq_some_iff.mp hcapacity.symm
  exact ⟨found, register_eq_ok_iff.mpr hf, hsame⟩

end Registers

/-- A routine that, run on memory that is backed, does not fail for a layout that is too large. -/
def Routine.NotTooLarge {α : Type} (routine : Routine α) : Prop :=
  ∀ memory : Registers, memory.Backed → Outcome.Faults Fault.NotTooLarge (routine.run memory).result

theorem Routine.NotTooLarge.bind {α β : Type} {routine : Routine α} {next : α → Routine β}
    (hr : routine.NotTooLarge) (hn : ∀ a, (next a).NotTooLarge) : (routine >>= next).NotTooLarge := by
  intro memory hm
  have hkept := routine.run_keeps (fun _ request hb => hb.serve request) hm
  have hfaults := hr memory hm
  rw [run_bind]
  cases hresult : (routine.run memory).result with
  | ok a => exact hn a _ hkept
  | error fault => exact Outcome.faults_error (hfaults fault hresult)

private theorem Builtin.closed_notTooLarge : Closed Routine.NotTooLarge where
  done _ _ := Outcome.faults_ok _
  writeInt target value _ hm := Registers.faults_commit (hm.refusesFor.writeInt target value)
  writeBool target value _ hm := Registers.faults_commit (hm.refusesFor.writeBool target value)
  log _ _ h := h
  operand operands position _ h := by
    refine Routine.NotTooLarge.bind ?_ h
    intro memory _
    unfold operand
    split
    · exact Outcome.faults_ok _
    · exact Outcome.faults_error nofun
  readInt operand _ h :=
    Routine.NotTooLarge.bind (fun _ hm => hm.refusesFor.readInt operand) h

/-! ### What compilers declare -/

/-- The change of type was emitted for a declared number of bytes, and the register that it names, if
there is one, has as many. -/
def Retyping.Declared (memory : Registers) (retyping : Retyping) : Prop :=
  ∃ (code next : Code) (offset capacity : Nat),
    code.add (.changeType retyping.arg retyping.layout capacity) = .ok (offset, next) ∧
    ∀ register, memory.register retyping.arg = .ok register → capacity ≤ register.capacity

def Program.Declared (memory : Registers) (program : Program) : Prop :=
  ∀ index instruction retyping, program.instruction? index = some instruction →
    instruction.op = .changeType retyping → retyping.Declared memory

/-- A table of built-in functions, in any order and under any names. -/
def FunctionTable.BuiltIn (functions : FunctionTable) : Prop :=
  ∀ function ∈ functions.functions, ∃ builtin ∈ Builtin.table.functions,
    function.body = builtin.body

private theorem Code.fitsIn_of_add {code next : Code} {arg : Operand} {layout : Layout}
    {capacity offset : Nat} (h : code.add (.changeType arg layout capacity) = .ok (offset, next)) :
    layout.fitsIn capacity = true := by
  obtain ⟨instruction, hi, -⟩ := Outcome.bind_eq_ok.mp h
  simp only [Directive.instruction] at hi
  split at hi
  · next hf => exact hf
  · cases hi

private theorem Retyping.Declared.fitsIn {memory next : Registers} {retyping : Retyping}
    (h : retyping.Declared memory) (hs : Registers.SameStorage memory next) {register : Register}
    (hr : next.register retyping.arg = .ok register) :
    retyping.layout.fitsIn register.capacity = true := by
  obtain ⟨code, _, offset, capacity, hadd, hle⟩ := h
  obtain ⟨found, hfound, hsame⟩ := hs.register hr
  have hcapacity := hle found hfound
  exact Layout.fitsIn_of_le (Code.fitsIn_of_add hadd) (by omega)

/-! ### What compilers emit -/

namespace Directive

private theorem exists_asks_of_mem {directives : List Directive}
    {emissions : List (Op × List Operand)} (h : List.Forall₂ Asks directives emissions)
    {emission : Op × List Operand} (hm : emission ∈ emissions) :
    ∃ directive ∈ directives, directive.Asks emission := by
  induction h with
  | nil => cases hm
  | @cons directive first _ _ hask _ ih =>
    rcases List.mem_cons.mp hm with rfl | hm
    · exact ⟨directive, List.mem_cons_self, hask⟩
    · obtain ⟨found, hfound, hasked⟩ := ih hm
      exact ⟨found, List.mem_cons_of_mem _ hfound, hasked⟩

private theorem Asks.eq_changeType {directive : Directive} {emission : Op × List Operand}
    (h : directive.Asks emission) {retyping : Retyping} (he : emission.1 = .changeType retyping) :
    ∃ capacity, directive = .changeType retyping.arg retyping.layout capacity := by
  cases h with
  | changeType arg layout capacity =>
    cases he
    exact ⟨capacity, rfl⟩
  | _ => cases he

end Directive

namespace Code

private theorem add_of_mem_carriedOut {code : Code} {edits : List Edit} {directive : Directive}
    (h : directive ∈ code.carriedOut edits) :
    ∃ (before next : Code) (offset : Nat), before.add directive = .ok (offset, next) := by
  induction edits generalizing code with
  | nil => cases h
  | cons edit rest ih =>
    rw [carriedOut] at h
    dsimp only at h
    split at h
    · next found offset hreply =>
      rcases List.mem_cons.mp h with rfl | h
      · exact ⟨code, _, offset, add_of_respond_written hreply⟩
      · exact ih h
    · exact ih h

/-- A program has the instructions that its code lays out. -/
theorem Lays.instructions_eq {code : Code} {instructions : List Instruction}
    (h : Lays code instructions) {program : Program} (hp : Program.ofCode code = .ok program) :
    program.linked.instructions.toList = instructions := by
  obtain ⟨linked, hl, hp⟩ := Outcome.bind_eq_ok.mp hp
  cases hp
  obtain ⟨-, records, hr, hlink⟩ := finalize_eq_ok_iff.mp hl
  cases h.records.symm.trans hr
  obtain ⟨-, hdecodes, -⟩ := linkRecords_decodes hlink
  have hrecords : (instructions.map Instruction.record).map Record.instruction =
      instructions.map .ok := by
    rw [List.map_map]
    apply List.map_congr_left
    intro instruction hi
    exact (h.counted instruction hi).instruction_record
  rw [Record.map_instruction_relayAll, hrecords] at hdecodes
  exact (List.map_injective_iff.mpr (fun _ _ => Except.ok.inj) hdecodes).symm

end Code

/-- What a compiler has built of nothing is declared, if it has declared no register larger than it
is. -/
theorem Program.declared_of_after {edits : List Code.Edit} {program : Program} {memory : Registers}
    (hp : Program.ofCode (({} : Code).after edits) = .ok program)
    (hc : ∀ arg layout capacity, .changeType arg layout capacity ∈ ({} : Code).carriedOut edits →
      ∀ register, memory.register arg = .ok register → capacity ≤ register.capacity) :
    program.Declared memory := by
  intro index instruction retyping hi hop
  obtain ⟨instructions, hasks, hlays⟩ := Code.lays_after edits
  have hmem : instruction ∈ instructions := by
    rw [← hlays.instructions_eq hp]
    exact Array.mem_toList_iff.mpr (Array.mem_of_getElem? hi)
  obtain ⟨directive, hcarried, hask⟩ := Directive.exists_asks_of_mem hasks
    (List.mem_map_of_mem (f := fun instruction => (instruction.op, instruction.operands)) hmem)
  obtain ⟨capacity, rfl⟩ := hask.eq_changeType hop
  obtain ⟨before, next, offset, hadd⟩ := Code.add_of_mem_carriedOut hcarried
  exact ⟨before, next, offset, capacity, hadd, hc _ _ capacity hcarried⟩

namespace Machine

/-- Requests keep memory backed and its allocations what they were when the changes of type were
declared, so that these still fit. -/
theorem minds_of_declared {memory : Registers} {op : Op}
    (h : ∀ retyping, op = .changeType retyping → retyping.Declared memory) :
    Minds memory.BackedAs Fault.NotTooLarge op where
  keeps _ request hm := hm.serve request
  faults _ request hm hmay := by
    apply hm.backed.refusesFor.serve
    intro operand layout register hrequest hr
    exact (h _ (hmay operand layout hrequest)).fitsIn hm.storage hr
  own _ hcause htoo := by simp [htoo] at hcause

namespace Reachable

variable {origin machine final : Machine} {budget : Nat} {fault : Fault}

private theorem backedAs (h : Reachable origin machine) (hbacked : origin.memory.Backed) :
    origin.memory.BackedAs machine.memory :=
  h.memory (fun _ request hm => hm.serve request) ⟨hbacked, .refl origin.memory⟩

private theorem faulted_notTooLarge (h : Reachable origin machine) (hbacked : origin.memory.Backed)
    (hdeclared : origin.program.Declared origin.memory)
    (hend : machine.execute budget = (.faulted fault, final)) : fault.NotTooLarge := by
  obtain ⟨spent, before, cause, -, hrun, hstep, rfl, -⟩ := execute_eq_faulted hend
  have hbefore := h.of_execute hrun
  have hminds : ∀ instruction, before.program.instruction? before.pc = some instruction →
      Minds origin.memory.BackedAs Fault.NotTooLarge instruction.op := by
    -- The program has not changed, so the instruction that was refused is one of the declared ones.
    intro instruction hi
    rw [hbefore.program_eq] at hi
    exact minds_of_declared fun retyping => hdeclared _ instruction retyping hi
  exact faults_step hminds (hbefore.backedAs hbacked) cause hstep

private theorem hostError_notTooLarge (h : Reachable origin machine)
    (hbacked : origin.memory.Backed) (hbuiltIn : origin.functions.BuiltIn)
    (hend : machine.execute budget = (.hostError fault, final)) : fault.NotTooLarge := by
  obtain ⟨spent, before, -, hrun, -, hstep⟩ := execute_eq_hostError hend
  have hbefore := h.of_execute hrun
  obtain ⟨instruction, function, host, cause, -, -, hget, hresult, rfl, -⟩ :=
    call_of_step_hostError hstep
  rw [hbefore.functions_eq] at hget
  obtain ⟨builtin, hmem, hbody⟩ := hbuiltIn host (FunctionTable.mem_of_get? hget)
  rw [hbody] at hresult
  exact Builtin.closed_notTooLarge.body hmem instruction.operands before.memory
    (hbefore.backedAs hbacked).backed cause hresult

/-- Where every register is backed, every change of type declared and every host function built in,
every register stays backed, no slice ends because a layout is too large, and a request whose operands
resolve is refused for a missing element exactly when its index is negative or none of the layout's. -/
theorem stays_backed (hbacked : origin.memory.Backed)
    (hdeclared : origin.program.Declared origin.memory) (hbuiltIn : origin.functions.BuiltIn)
    (h : Reachable origin machine) :
    machine.memory.Backed ∧
    (∀ budget fault final, machine.execute budget = (.faulted fault, final) ∨
      machine.execute budget = (.hostError fault, final) → fault.cause ≠ .layoutTooLarge) ∧
    ∀ request : Request, (∀ operand ∈ request.operands, machine.memory.Resolves operand) →
      (Outcome.RefusedFor .elementOutOfRange (machine.memory.serve request).1 ↔
        ∃ operand ∈ request.elements, machine.memory.Lacks operand) := by
  have hstays := (h.backedAs hbacked).backed
  refine ⟨hstays, ?_, hstays.refusedFor_iff⟩
  rintro budget fault final (hend | hend)
  · exact h.faulted_notTooLarge hbacked hdeclared hend
  · exact h.hostError_notTooLarge hbacked hbuiltIn hend

/-- An integer is taken apart into two slices of four bytes. What follows fails for other reasons: a
sum lacks its operands, a register is not there, and there is no ninth byte. -/
theorem stays_backed_two_slices :
    let bytes : Layout := { elementSize := 1, elementCount := 4, sliceCount := 2 }
    let edits : List Code.Edit :=
      [.add (.changeType (.work 0) bytes 8), .add (.execute 0 []),
        .add (.changeType (.work 1) bytes 100)]
    let memory : Registers :=
      { work := #[{ layout := .integer, bytes := [1, 2, 3, 4, 5, 6, 7, 8] }] }
    ∃ program, Program.ofCode (({} : Code).after edits) = .ok program ∧
      let machine := (create program Builtin.table memory).after [.startAt 0, .execute 5]
      machine.memory = { work := #[{ layout := bytes, bytes := [1, 2, 3, 4, 5, 6, 7, 8] }] } ∧
      machine.memory.Backed ∧
      (∃ fault final, machine.execute 5 = (.faulted fault, final) ∧
        fault.cause = .invalidRegister ∧ fault.cause ≠ .layoutTooLarge) ∧
      Outcome.RefusedFor .elementOutOfRange
        (machine.memory.serve (.readInt ((Operand.work 0).elementAt 8))).1 := by
  intro bytes edits memory
  obtain ⟨program, hp⟩ := Outcome.isOk_iff.mp
    (show (Program.ofCode (({} : Code).after edits)).isOk = true by decide +kernel)
  have hbacked : memory.Backed := by
    intro bank register hr
    cases bank with
    | work =>
      obtain rfl : register = _ := by simpa [Registers.bank, memory] using hr
      exact ⟨8, rfl, Nat.le_refl 8⟩
    | literal => simp [Registers.bank, memory] at hr
    | external => simp [Registers.bank, memory] at hr
  have hdeclared : program.Declared memory := by
    apply Program.declared_of_after hp
    have hcarried : ({} : Code).carriedOut edits = [.changeType (.work 0) bytes 8, .execute 0 [],
        .changeType (.work 1) bytes 100] := by decide +kernel
    intro arg layout capacity hc register hr
    rw [hcarried] at hc
    simp only [List.mem_cons, Directive.changeType.injEq, reduceCtorEq, List.not_mem_nil, false_or,
      or_false] at hc
    rcases hc with ⟨rfl, rfl, rfl⟩ | ⟨rfl, rfl, rfl⟩
    · cases hr
      exact Nat.le_refl 8
    · cases hr
  have hfacts : (Program.ofCode (({} : Code).after edits)).map (fun program =>
      let machine := (create program Builtin.table memory).after [.startAt 0, .execute 5]
      (machine.memory, (machine.execute 5).1)) =
        .ok ({ work := #[{ layout := bytes, bytes := [1, 2, 3, 4, 5, 6, 7, 8] }] },
          .faulted { cause := .invalidRegister, instruction := some 2 }) := by decide +kernel
  rw [hp] at hfacts
  obtain ⟨hmemory, hevent⟩ := Prod.mk.inj (Except.ok.inj hfacts)
  have hreach : Reachable (create program Builtin.table memory)
      ((create program Builtin.table memory).after [.startAt 0, .execute 5]) :=
    .respond (.respond .refl (.startAt 0)) (.execute 5)
  have hstays := hreach.stays_backed hbacked hdeclared fun function h => ⟨function, h, rfl⟩
  refine ⟨program, hp, hmemory, hstays.1, ?_, ?_⟩
  · have hend : ((create program Builtin.table memory).after
        [.startAt 0, .execute 5]).execute 5 = (.faulted _, _) := Prod.ext hevent rfl
    exact ⟨_, _, hend, rfl, hstays.2.1 5 _ _ (.inl hend)⟩
  · apply (hstays.2.2 (.readInt ((Operand.work 0).elementAt 8)) _).mpr
    · refine ⟨(Operand.work 0).elementAt 8, List.mem_cons_self, ?_⟩
      rw [hmemory]
      exact ⟨_, 8, rfl, rfl, .inr (by decide)⟩
    · intro operand hoperand
      rw [List.mem_singleton.mp hoperand, hmemory]
      exact ⟨⟨_, rfl⟩, 8, rfl⟩

end Reachable

end Machine

end RegisterMachine
