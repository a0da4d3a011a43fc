import RegisterMachine.Proofs.Windows

/-!
# Copies

A copy puts into one window what another showed before, as far as both go, whether they lie in one
register or in two. Two windows of one register that are of one size are the same or lie apart, since
every window begins at a multiple of the size of an element. So behind a copy between windows of one
size both show the same, and copying once more changes nothing.
-/

namespace RegisterMachine

/-! ### Windows of one register -/

namespace Register

variable {register : Register}

/-- The window shows all elements of the register or one of them. -/
def Shows (register : Register) (span : Span) : Prop :=
  span = { start := 0, size := register.layout.bytes } ∨
    ∃ index < register.layout.elements,
      span = { start := index * register.layout.elementSize.toNat,
               size := register.layout.elementSize.toNat }

private theorem shows_of_wholeSpan {span : Span} (h : register.wholeSpan = .ok span) :
    register.Shows span := by
  unfold wholeSpan at h
  split at h
  · cases h
    exact .inl rfl
  · cases h

private theorem shows_of_elementSpan {index : Int} {span : Span}
    (h : register.elementSpan index = .ok span) :
    register.Shows span := by
  unfold elementSpan at h
  dsimp only at h
  split at h
  · next hi =>
    cases h
    exact .inr ⟨index.toNat, by omega, rfl⟩
  · cases h

/-- All elements take as much room as one of them only where that one begins where they do. -/
theorem start_eq_zero_of_bytes_eq {index : Nat} (hi : index < register.layout.elements)
    (h : register.layout.bytes = register.layout.elementSize.toNat) :
    index * register.layout.elementSize.toNat = 0 := by
  have hle : (index + 1) * register.layout.elementSize.toNat ≤ register.layout.bytes :=
    Nat.mul_le_mul_right _ hi
  rw [h, Nat.add_mul, Nat.one_mul] at hle
  omega

private theorem Shows.eq_or_apart {first second : Span} (hf : register.Shows first)
    (hs : register.Shows second) (hsize : first.size = second.size) :
    first = second ∨ first.start + first.size ≤ second.start ∨
      second.start + second.size ≤ first.start := by
  rcases hf with rfl | ⟨i, hi, rfl⟩
  · rcases hs with rfl | ⟨j, hj, rfl⟩
    · exact .inl rfl
    · rw [start_eq_zero_of_bytes_eq hj hsize]
      exact .inl (congrArg (Span.mk 0) hsize)
  · rcases hs with rfl | ⟨j, hj, rfl⟩
    · rw [start_eq_zero_of_bytes_eq hi hsize.symm]
      exact .inl (congrArg (Span.mk 0) hsize)
    · rcases Nat.lt_trichotomy i j with hlt | rfl | hlt
      · have hle := Nat.mul_le_mul_right register.layout.elementSize.toNat (Nat.succ_le_of_lt hlt)
        rw [Nat.succ_mul] at hle
        exact .inr (.inl hle)
      · exact .inl rfl
      · have hle := Nat.mul_le_mul_right register.layout.elementSize.toNat (Nat.succ_le_of_lt hlt)
        rw [Nat.succ_mul] at hle
        exact .inr (.inr hle)

end Register

namespace Registers

variable {memory next : Registers} {source target : Operand}

private theorem shows_of_region {operand : Operand} {span : Span} {register : Register}
    (h : memory.region operand = .ok span) (hr : memory.register operand = .ok register) :
    register.Shows span := by
  unfold region at h
  split at h
  · obtain ⟨found, hf, h⟩ := Outcome.bind_eq_ok.mp h
    cases hr.symm.trans hf
    exact Register.shows_of_wholeSpan h
  · obtain ⟨found, hf, h⟩ := Outcome.bind_eq_ok.mp h
    obtain ⟨index, -, h⟩ := Outcome.bind_eq_ok.mp h
    cases hr.symm.trans hf
    exact Register.shows_of_elementSpan h

/-! ### What a copy comes to -/

theorem update_eq_self {operand : Operand} {register : Register}
    (hr : memory.register operand = .ok register) {f : Register → Register}
    (h : f register = register) : memory.update operand f = memory := by
  apply ext_lookup
  intro bank index
  rw [lookup_update]
  split
  · next hs =>
    obtain ⟨rfl, rfl⟩ := hs
    rw [register_eq_ok_iff.mp hr, Option.map_some, h]
  · rfl

/-- The bytes that a copy between two windows moves. -/
def moved (origin goal : Span) (read : Register) : List UInt8 :=
  read.slice { origin with size := min origin.size goal.size }

private theorem moved_of_size_eq {origin goal : Span} (h : origin.size = goal.size)
    (read : Register) :
    moved origin goal read = read.slice origin := by
  rw [moved, ← h, Nat.min_self]

/-- The windows of a copy that is carried out, in the registers as they are before. -/
structure Copying (memory : Registers) (source target : Operand) (origin goal : Span)
    (read before : Register) : Prop where
  origin : memory.region source = .ok origin
  goal : memory.region target = .ok goal
  read : memory.register source = .ok read
  before : memory.register target = .ok before
  writable : checkWritable target = .ok ()

namespace Copying

private theorem of_copy (h : memory.copy source target = .ok next) :
    ∃ origin goal read before, memory.Copying source target origin goal read before := by
  obtain ⟨bytes, hb, h⟩ := Outcome.bind_eq_ok.mp h
  obtain ⟨goal, hg, h⟩ := Outcome.bind_eq_ok.mp h
  obtain ⟨_, hw, -⟩ := Outcome.bind_eq_ok.mp h
  obtain ⟨origin, ho, hb⟩ := Outcome.bind_eq_ok.mp hb
  obtain ⟨read, hread, -⟩ := Outcome.bind_eq_ok.mp hb
  obtain ⟨before, hbefore, -⟩ := region_eq_ok hg
  exact ⟨origin, goal, read, before, ho, hg, hread, hbefore, hw⟩

variable {origin goal : Span} {read before : Register}
  (h : memory.Copying source target origin goal read before)

include h

private theorem copy_eq : memory.copy source target =
    .ok (memory.store target goal.start (moved origin goal read)) := by
  rw [moved, ← slice_take]
  simp only [Registers.copy, regionBytes, h.origin, h.goal, h.read, h.writable, bind, Except.bind,
    pure, Except.pure]

private theorem origin_le : origin.start + origin.size ≤ read.capacity := by
  obtain ⟨register, hr, hle⟩ := region_eq_ok h.origin
  cases h.read.symm.trans hr
  exact hle

private theorem goal_le : goal.start + goal.size ≤ before.capacity := by
  obtain ⟨register, hr, hle⟩ := region_eq_ok h.goal
  cases h.before.symm.trans hr
  exact hle

private theorem length_moved : (moved origin goal read).length = min origin.size goal.size := by
  have hle := h.origin_le
  apply Register.length_slice
  dsimp only
  omega

private theorem room : goal.start + (moved origin goal read).length ≤ before.capacity := by
  have hle := h.goal_le
  rw [h.length_moved]
  omega

/-- What the source showed before stands in the target, as far as both windows go. -/
theorem getElem?_inside {position : Nat} (hp : position < min origin.size goal.size) :
    ∃ byte, read.bytes[origin.start + position]? = some byte ∧
      (before.splice goal.start (moved origin goal read)).bytes[goal.start + position]? =
        some byte := by
  have hin : origin.start + position < read.bytes.length := by
    have hle := h.origin_le
    simp only [Register.capacity] at hle
    omega
  have hbyte := List.getElem?_eq_getElem hin
  refine ⟨_, hbyte, ?_⟩
  rw [Register.getElem?_splice h.room, h.length_moved, if_pos (by omega), Nat.add_sub_cancel_left,
    moved, Register.getElem?_slice, if_pos hp]
  exact hbyte

private theorem getElem?_outside {position : Nat}
    (hp : position < goal.start ∨ goal.start + min origin.size goal.size ≤ position) :
    (before.splice goal.start (moved origin goal read)).bytes[position]? =
      before.bytes[position]? := by
  rw [Register.getElem?_splice h.room, h.length_moved, if_neg (by omega)]

/-! ### Windows of one size -/

variable (hsize : origin.size = goal.size)

include hsize

/-- Behind the copy the target shows what the source showed. -/
theorem slice_goal :
    (before.splice goal.start (moved origin goal read)).slice goal = read.slice origin := by
  rw [moved_of_size_eq hsize]
  exact Register.slice_splice h.goal_le ((Register.length_slice h.origin_le).trans hsize)

/-- So does the source, which may lie in the same register. -/
theorem slice_origin {found : Register}
    (hf : (memory.store target goal.start (moved origin goal read)).register source = .ok found) :
    found.slice origin = read.slice origin := by
  rw [store, register_update, h.read] at hf
  split at hf
  · next hsame =>
    cases hf
    obtain rfl : before = read :=
      Except.ok.inj (h.before.symm.trans ((register_of_sameRegister hsame).symm.trans h.read))
    rcases (shows_of_region h.origin h.read).eq_or_apart (shows_of_region h.goal h.before) hsize
      with rfl | hapart
    · exact h.slice_goal rfl
    · apply Register.slice_splice_of_apart h.room
      rw [h.length_moved]
      omega
  · cases hf
    rfl

/-- Behind the copy the same windows are found, unless it moved one of their indices, and they show
the same. -/
theorem again (hs : ¬ source.IndexedBy target) (ht : ¬ target.IndexedBy target) :
    ∃ found after,
      (memory.store target goal.start (moved origin goal read)).Copying source target origin goal
        found after ∧
      found.slice origin = after.slice goal := by
  have hkeeps := keepsShape_store h.before h.room
  obtain ⟨found, hfound, -⟩ := register_update_sameShape hkeeps h.read
  refine ⟨found, _, ⟨(region_update hs hkeeps).trans h.origin, (region_update ht hkeeps).trans h.goal,
    hfound, register_store h.before _ _, h.writable⟩, ?_⟩
  rw [h.slice_origin hsize hfound, h.slice_goal hsize]

/-- Where the windows show the same, a copy changes nothing. -/
theorem copy_eq_self (hb : read.slice origin = before.slice goal) :
    memory.copy source target = .ok memory := by
  have hself : before.splice goal.start (before.slice goal) = before :=
    Register.splice_slice h.goal_le
  rw [h.copy_eq, moved_of_size_eq hsize, hb]
  exact congrArg Except.ok (update_eq_self h.before hself)

omit hsize in
private theorem equals_eq (hb : read.slice origin = before.slice goal) :
    memory.equals source target = .ok true := by
  simp only [equals, regionBytes, h.origin, h.goal, h.read, h.before, hb, bind, Except.bind, pure,
    Except.pure, beq_self_eq_true]

end Copying

theorem run_copyInPlace_eq_ok_iff :
    (copyInPlace source target).run memory = .ok () next ↔ memory.copy source target = .ok next := by
  rw [run_copyInPlace]
  cases memory.copy source target with
  | ok stored => exact ⟨fun h => by cases h; rfl, fun h => by cases h; rfl⟩
  | error fault => exact ⟨nofun, nofun⟩

/-- A copy that is carried out puts into the target, as far as both windows go, what the source showed
before, and leaves all else alone. If the windows are of one size and neither is found by an index in
the register that is written, then both show the same behind it, and a second copy changes nothing. -/
theorem copy_takes_snapshot (h : (copyInPlace source target).run memory = .ok () next) :
    memory.copy source target = .ok next ∧
    ∃ origin goal read before after,
      memory.region source = .ok origin ∧ memory.region target = .ok goal ∧
      memory.register source = .ok read ∧ memory.register target = .ok before ∧
      next.register target = .ok after ∧
      (∀ position < min origin.size goal.size, ∃ byte,
        read.bytes[origin.start + position]? = some byte ∧
          after.bytes[goal.start + position]? = some byte) ∧
      (∀ position,
        position < goal.start ∨ goal.start + min origin.size goal.size ≤ position →
        after.bytes[position]? = before.bytes[position]?) ∧
      after.layout = before.layout ∧
      (∀ (bank : Bank) (index : Nat), ¬ (bank = target.bank ∧ index = target.register.toNat) →
        (next.bank bank)[index]? = (memory.bank bank)[index]?) ∧
      (origin.size = goal.size → ¬ source.IndexedBy target → ¬ target.IndexedBy target →
        next.equals source target = .ok true ∧
          (copyInPlace source target).run next = .ok () next) := by
  have hcopy := run_copyInPlace_eq_ok_iff.mp h
  obtain ⟨origin, goal, read, before, hc⟩ := Copying.of_copy hcopy
  cases hc.copy_eq.symm.trans hcopy
  refine ⟨hcopy, origin, goal, read, before, _, hc.origin, hc.goal, hc.read, hc.before,
    register_store hc.before _ _, fun _ => hc.getElem?_inside, fun _ => hc.getElem?_outside, rfl,
    ?_, ?_⟩
  · intro bank index hne
    rw [store, lookup_update, if_neg fun hs => hne ⟨hs.1.symm, hs.2.symm⟩]
  · intro hsize hs ht
    obtain ⟨found, after, hagain, hb⟩ := hc.again hsize hs ht
    exact ⟨hagain.equals_eq hb, run_copyInPlace_eq_ok_iff.mpr (hagain.copy_eq_self hsize hb)⟩

/-- Two elements of one register, the second found by an index in another: behind the copy they are
equal. -/
theorem copy_takes_snapshot_within :
    let pair : Layout := { elementSize := 2, elementCount := 2 }
    let memory : Registers :=
      { work := #[{ layout := pair, bytes := [1, 2, 3, 4, 5] },
          { layout := .integer, bytes := [1, 0, 0, 0, 0, 0, 0, 0] }] }
    let next : Registers :=
      { work := #[{ layout := pair, bytes := [1, 2, 1, 2, 5] },
          { layout := .integer, bytes := [1, 0, 0, 0, 0, 0, 0, 0] }] }
    let source : Operand := { bank := .work, register := 0, element := .fixed 0 }
    let target : Operand := { bank := .work, register := 0, element := .indirect 1 }
    (copyInPlace source target).run memory = .ok () next ∧
      next.equals source target = .ok true ∧ (copyInPlace source target).run next = .ok () next := by
  intro pair memory next source target
  have hcopy : (copyInPlace source target).run memory = .ok () next :=
    run_copyInPlace_eq_ok_iff.mpr (by decide)
  obtain ⟨-, origin, goal, read, before, after, horigin, hgoal, -, -, -, -, -, -, -, hsame⟩ :=
    copy_takes_snapshot hcopy
  cases (show memory.region source = .ok { start := 0, size := 2 } by decide).symm.trans horigin
  cases (show memory.region target = .ok { start := 2, size := 2 } by decide).symm.trans hgoal
  exact ⟨hcopy, hsame rfl (by decide) (by decide)⟩

end Registers

end RegisterMachine
