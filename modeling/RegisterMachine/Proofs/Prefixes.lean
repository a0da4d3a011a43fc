import RegisterMachine.Proofs.Images

/-!
# Cut and extended images

Each reader of the loader takes its bytes from the front and decides on nothing but them. Whatever
follows is passed on, and without the last of its bytes it runs out before it has anything else to
object to. Reading one part behind the other is again such a reader, so an image can be neither cut
nor extended: no accepted image begins with another.
-/

namespace RegisterMachine

namespace Image

variable {α β : Type}

/-- The bytes came to an end before the reader did. -/
def RunsOut (outcome : Except Fault α) : Prop :=
  ∃ fault, outcome = .error fault ∧ fault.cause = .truncatedByteCode

/-- The reader takes these bytes for this value, whatever follows them, and runs out on fewer. -/
structure Takes (x : Reader α) (taken : List UInt8) (a : α) : Prop where
  reads : ∀ more, x (taken ++ more) = .ok (a, more)
  runsOut : ∀ front tail, taken = front ++ tail → tail ≠ [] → RunsOut (x front)

/-- A reader that decides on nothing but the bytes that it takes. -/
def TakesFront (x : Reader α) : Prop :=
  ∀ bytes a rest, x bytes = .ok (a, rest) → ∃ taken, bytes = taken ++ rest ∧ Takes x taken a

/-! ### One part behind the other -/

theorem RunsOut.bind {outcome : Except Fault α} (h : RunsOut outcome) (next : α → Except Fault β) :
    RunsOut (outcome >>= next) := by
  obtain ⟨fault, rfl, hf⟩ := h
  exact ⟨fault, rfl, hf⟩

theorem bind_of_reads {x : Reader α} {f : α → Reader β} {bytes mid : List UInt8} {a : α}
    (h : x bytes = .ok (a, mid)) : (x >>= f) bytes = f a mid := by
  change (x bytes >>= fun p => f p.1 p.2) = f a mid
  rw [h]
  rfl

private theorem Takes.nothing {x : Reader α} {a : α} (h : ∀ bytes, x bytes = .ok (a, bytes)) :
    Takes x [] a where
  reads := h
  runsOut _ _ hcut hne := absurd (List.append_eq_nil_iff.mp hcut.symm).2 hne

theorem Takes.bind {x : Reader α} {f : α → Reader β} {first second : List UInt8} {a : α} {b : β}
    (hx : Takes x first a) (hf : Takes (f a) second b) : Takes (x >>= f) (first ++ second) b where
  reads more := by
    rw [List.append_assoc, bind_of_reads (hx.reads _)]
    exact hf.reads more
  runsOut front tail hcut hne := by
    rcases List.append_eq_append_iff.mp hcut with ⟨read, rfl, hsecond⟩ | ⟨missing, hfirst, htail⟩
    · -- The first part is whole, and the cut lies in the second.
      rw [bind_of_reads (hx.reads read)]
      exact hf.runsOut read tail hsecond hne
    · cases missing with
      | nil =>
        -- The cut lies between the two.
        obtain rfl : first = front := hfirst.trans (List.append_nil front)
        have hread := hx.reads []
        rw [List.append_nil] at hread
        rw [bind_of_reads hread]
        exact hf.runsOut [] tail htail.symm hne
      | cons byte missing =>
        exact (hx.runsOut front _ hfirst (List.cons_ne_nil byte missing)).bind _

theorem TakesFront.bind {x : Reader α} {f : α → Reader β} (hx : TakesFront x)
    (hf : ∀ a, TakesFront (f a)) : TakesFront (x >>= f) := by
  intro bytes b rest h
  obtain ⟨a, mid, ha, hb⟩ := bind_eq_ok_iff.mp h
  obtain ⟨first, rfl, hfirst⟩ := hx bytes a mid ha
  obtain ⟨second, rfl, hsecond⟩ := hf a mid b rest hb
  exact ⟨first ++ second, (List.append_assoc first second rest).symm, hfirst.bind hsecond⟩

private theorem takesFront_pure (a : α) : TakesFront (pure a) := by
  intro bytes b rest h
  obtain ⟨rfl, rfl⟩ := pure_eq_ok_iff.mp h
  exact ⟨[], rfl, .nothing fun _ => rfl⟩

theorem TakesFront.map {x : Reader α} (hx : TakesFront x) (f : α → β) : TakesFront (f <$> x) := by
  rw [← bind_pure_comp]
  exact hx.bind fun a => takesFront_pure (f a)

/-! ### The parts of an image -/

private theorem takesFront_take (n : Nat) : TakesFront (take n) := by
  intro bytes front rest h
  obtain ⟨rfl, rfl⟩ := take_eq_ok_iff.mp h
  refine ⟨front, rfl, fun more => take_eq_ok_iff.mpr ⟨rfl, rfl⟩, ?_⟩
  rintro short tail rfl hne
  have hlt : (short.take (short ++ tail).length).length < (short ++ tail).length := by
    have hpos := List.length_pos_of_ne_nil hne
    simp only [List.length_take, List.length_append]
    omega
  refine ⟨{ cause := .truncatedByteCode }, ?_, rfl⟩
  simp only [take, if_pos hlt]

private theorem takesFront_takeHalf : TakesFront takeHalf := (takesFront_take 2).map _

private theorem takesFront_takeWord : TakesFront takeWord := (takesFront_take 4).map _

private theorem takesFront_throw (fault : Fault) : TakesFront (throw fault : Reader α) := nofun

private theorem takesFront_require (condition : Bool) (cause : Fault.Cause) (note : String) :
    TakesFront (require condition cause note) := by
  unfold require
  split
  · exact takesFront_pure ()
  · exact takesFront_throw _

private theorem takesFront_takeEntry : TakesFront takeEntry := by
  apply takesFront_takeHalf.bind
  intro size
  apply (takesFront_take size.toNat).bind
  intro spelled
  cases nameOfBytes? spelled with
  | none => exact takesFront_throw _
  | some name => exact takesFront_takeWord.bind fun _ => takesFront_pure _

private theorem takesFront_takeEntries (n : Nat) : TakesFront (takeEntries n) := by
  induction n with
  | zero => exact takesFront_pure []
  | succ n ih =>
    apply takesFront_takeEntry.bind
    intro entry
    exact ih.bind fun entries => takesFront_pure (entry :: entries)

private theorem takesFront_takeHeader : TakesFront takeHeader := by
  apply (takesFront_take magic.length).bind
  intro front
  apply (takesFront_require _ _ _).bind
  intro _
  apply takesFront_takeHalf.bind
  intro version
  apply (takesFront_require _ _ _).bind
  intro _
  apply (takesFront_take 2).bind
  intro pair
  exact (takesFront_require _ _ _).bind fun _ => takesFront_pure _

private theorem takesFront_takeBuffer : TakesFront takeBuffer := by
  apply takesFront_takeWord.bind
  intro checksum
  apply takesFront_takeWord.bind
  intro size
  apply (takesFront_take size.toNat).bind
  intro buffer
  exact (takesFront_require _ _ _).bind fun _ => takesFront_pure buffer

/-- All parts of an image, which may have bytes behind it. -/
def takeFields : Reader (Nat × List UInt8 × List Entry) := do
  let alignment ← takeHeader
  let buffer ← takeBuffer
  let count ← takeWord
  let entries ← takeEntries count.toNat
  return (alignment, buffer, entries)

private theorem takesFront_takeFields : TakesFront takeFields := by
  apply takesFront_takeHeader.bind
  intro alignment
  apply takesFront_takeBuffer.bind
  intro buffer
  apply takesFront_takeWord.bind
  intro count
  exact (takesFront_takeEntries count.toNat).bind fun entries =>
    takesFront_pure (alignment, buffer, entries)

/-- The loader reads all parts and then looks whether anything is left. -/
theorem takeParts_eq_takeFields :
    takeParts = do
      let fields ← takeFields
      require (← get).isEmpty .truncatedByteCode "TRAILING BYTES"
      return fields := by
  simp only [takeParts_eq, takeTable, takeFields, bind_assoc, pure_bind]

private theorem takeFields_of_takeParts {bytes rest : List UInt8}
    {fields : Nat × List UInt8 × List Entry} (h : takeParts bytes = .ok (fields, rest)) :
    takeFields bytes = .ok (fields, []) := by
  rw [takeParts_eq_takeFields] at h
  simp only [bind_eq_ok_iff, get_eq_ok_iff, require_eq_ok_iff, pure_eq_ok_iff,
    List.isEmpty_iff] at h
  obtain ⟨_, _, hfields, _, _, ⟨rfl, rfl⟩, _, _, ⟨rfl, rfl⟩, rfl, rfl⟩ := h
  exact hfields

private theorem takeParts_of_runsOut {bytes : List UInt8} (h : RunsOut (takeFields bytes)) :
    RunsOut (takeParts bytes) := by
  rw [takeParts_eq_takeFields]
  exact h.bind _

private theorem takeParts_of_trailing {bytes more : List UInt8}
    {fields : Nat × List UInt8 × List Entry} (h : takeFields bytes = .ok (fields, more))
    (hm : more ≠ []) :
    takeParts bytes = Fault.raise .truncatedByteCode "TRAILING BYTES" := by
  obtain ⟨byte, more, rfl⟩ := List.exists_cons_of_ne_nil hm
  rw [takeParts_eq_takeFields, bind_of_reads h]
  rfl

end Image

namespace Code

open Image

private theorem takes_of_load {bytes : List UInt8} {code : Code} (h : load bytes = .ok code) :
    ∃ fields, Takes takeFields bytes fields := by
  obtain ⟨⟨fields, rest⟩, hparts, -⟩ := Outcome.bind_eq_ok.mp h
  obtain ⟨taken, htaken, htakes⟩ :=
    takesFront_takeFields _ _ _ (takeFields_of_takeParts hparts)
  rw [List.append_nil] at htaken
  exact ⟨fields, htaken ▸ htakes⟩

/-- No part of an image that ends before it is one, for want of bytes, and nothing that goes on
behind it is one, for having too many. -/
theorem load_neither_cut_nor_extended {bytes : List UInt8} {code : Code}
    (h : load bytes = .ok code) :
    (∀ front, front <+: bytes → front ≠ bytes →
      ∃ fault, load front = .error fault ∧ fault.cause = .truncatedByteCode) ∧
    ∀ more, more ≠ [] → load (bytes ++ more) =
      .error { cause := .truncatedByteCode, note := "TRAILING BYTES" } := by
  obtain ⟨fields, htakes⟩ := takes_of_load h
  constructor
  · rintro front ⟨tail, rfl⟩ hne
    have htail : tail ≠ [] := by
      rintro rfl
      exact hne (List.append_nil front).symm
    exact (takeParts_of_runsOut (htakes.runsOut front tail rfl htail)).bind _
  · intro more hm
    rw [load, takeParts_of_trailing (htakes.reads more) hm]
    rfl

/-- An image with one entry, cut inside the name of that and extended by one byte. -/
theorem load_neither_cut_nor_extended_named :
    let bytes : List UInt8 := [71, 86, 66, 67, 1, 0, 4, 9, 180, 7, 232, 56, 4, 0, 0, 0, 80, 2, 7, 7,
      1, 0, 0, 0, 2, 0, 195, 169, 1, 0, 0, 0]
    (load bytes).isOk = true ∧
      (∃ fault, load (bytes.take 27) = .error fault ∧ fault.cause = .truncatedByteCode) ∧
      load (bytes ++ [0]) = .error { cause := .truncatedByteCode, note := "TRAILING BYTES" } := by
  intro bytes
  have hok : (load bytes).isOk = true := by decide +kernel
  obtain ⟨code, h⟩ := Outcome.isOk_iff.mp hok
  obtain ⟨hcut, hextended⟩ := load_neither_cut_nor_extended h
  exact ⟨hok, hcut _ (List.take_prefix 27 bytes) (by decide), hextended [0] (by decide)⟩

end Code

end RegisterMachine
