import RegisterMachine.Text.Column

/-!
# Legible texts

When one text is written behind another, a reader can find the seam if the first cannot go on with
the character that the second begins with. A text is `Legible` when a value can then be told from
it. Numbers are, up to the next character that is no digit, whether or not they are set in a column.
-/

namespace RegisterMachine

namespace Text

/-- Not begun with a character of this kind. -/
def Stops (kind : Char → Bool) : List Char → Prop
  | [] => True
  | c :: _ => kind c = false

@[simp] theorem stops_nil (kind : Char → Bool) : Stops kind [] := trivial

@[simp] theorem stops_cons (kind : Char → Bool) (c : Char) (rest : List Char) :
    Stops kind (c :: rest) ↔ kind c = false := Iff.rfl

/-- Whatever is written behind such a text, if it does not begin with a character of this kind, the
value can be told from the whole and so can the rest. -/
def Legible {α : Type} (kind : Char → Bool) (text : α → String) : Prop :=
  ∀ ⦃a b : α⦄ ⦃rest other : List Char⦄, (text a).toList ++ rest = (text b).toList ++ other →
    Stops kind rest → Stops kind other → a = b ∧ rest = other

theorem Legible.injective {α : Type} {kind : Char → Bool} {text : α → String}
    (h : Legible kind text) : Function.Injective text := by
  intro a b hab
  exact (h (congrArg (·.toList ++ []) hab) (stops_nil kind) (stops_nil kind)).1

/-- These words begin with a character that is not of this kind. -/
def breaks (kind : Char → Bool) (words : String) : Bool := words.toList.head?.any (!kind ·)

theorem stops_of_breaks {kind : Char → Bool} {words : String} (h : breaks kind words = true)
    (rest : List Char) : Stops kind (words.toList ++ rest) := by
  unfold breaks at h
  cases hc : words.toList with
  | nil => simp [hc] at h
  | cons c chars => simpa [hc] using h

/-- A value with fixed words behind it. -/
theorem Legible.peel {α : Type} {kind : Char → Bool} {text : α → String} (h : Legible kind text)
    {words : String} {a b : α} {rest other : List Char}
    (hab : (text a).toList ++ (words.toList ++ rest) = (text b).toList ++ (words.toList ++ other))
    (hw : breaks kind words = true) : a = b ∧ rest = other := by
  obtain ⟨rfl, hrest⟩ := h hab (stops_of_breaks hw rest) (stops_of_breaks hw other)
  exact ⟨rfl, List.append_cancel_left hrest⟩

theorem takeWhile_append_of_stops {kind : Char → Bool} {chars rest : List Char}
    (h : ∀ c ∈ chars, kind c = true) (hr : Stops kind rest) :
    (chars ++ rest).takeWhile kind = chars := by
  rw [List.takeWhile_append_of_pos h]
  cases rest with
  | nil => simp
  | cons c rest => simp [List.takeWhile, (stops_cons kind c rest).mp hr]

/-- Two rows of characters of one kind that are followed by none of it. -/
theorem append_inj_of_stops {kind : Char → Bool} {chars others rest other : List Char}
    (hc : ∀ c ∈ chars, kind c = true) (hk : ∀ c ∈ others, kind c = true)
    (hr : Stops kind rest) (ho : Stops kind other) (h : chars ++ rest = others ++ other) :
    chars = others ∧ rest = other := by
  have hsame : chars = others := by
    rw [← takeWhile_append_of_stops hc hr, h, takeWhile_append_of_stops hk ho]
  subst hsame
  exact ⟨rfl, List.append_cancel_left h⟩

/-! ### Numbers -/

private theorem toList_numeral (n : Nat) : (toString n).toList = Nat.toDigits 10 n := by
  rw [Nat.toString_eq_ofList_toDigits, String.toList_ofList]

theorem isDigit_of_mem_numeral {n : Nat} {c : Char} (h : c ∈ (toString n).toList) :
    c.isDigit = true := by
  rw [toList_numeral] at h
  exact Nat.isDigit_of_mem_toDigits (by decide) (by decide) h

private theorem numeral_eq_cons (n : Nat) :
    ∃ first rest, (toString n).toList = first :: rest ∧ first.isDigit = true := by
  obtain ⟨first, rest, h⟩ := List.exists_cons_of_ne_nil (Nat.toDigits_ne_nil (n := n) (b := 10))
  rw [← toList_numeral] at h
  exact ⟨first, rest, h, isDigit_of_mem_numeral (h ▸ List.mem_cons_self)⟩

theorem numeral_injective : Function.Injective fun n : Nat => (toString n).toList := by
  intro m n h
  simp only [toList_numeral] at h
  rw [← Nat.ofDigitChars_ten_toDigits (n := m), h, Nat.ofDigitChars_ten_toDigits]

theorem legible_numeral : Legible Char.isDigit fun n : Nat => toString n := by
  intro m n rest other h hr ho
  obtain ⟨hn, hrest⟩ := append_inj_of_stops (fun _ => isDigit_of_mem_numeral)
    (fun _ => isDigit_of_mem_numeral) hr ho h
  exact ⟨numeral_injective hn, hrest⟩

theorem numeral_append_ne_cons {n : Nat} {c : Char} (hc : c.isDigit = false)
    (rest other : List Char) : (toString n).toList ++ rest ≠ c :: other := by
  obtain ⟨first, digits, hn, hd⟩ := numeral_eq_cons n
  intro h
  rw [hn, List.cons_append] at h
  obtain ⟨rfl, -⟩ := List.cons.inj h
  rw [hd] at hc
  cases hc

end Text

namespace Column

open Text

theorem toList_blanks (width : Nat) (text : String) :
    (blanks width text).toList = List.replicate (width - text.length) ' ' := by
  have hpush (n : Nat) : ("".pushn ' ' n).toList = List.replicate n ' ' := by
    induction n with
    | zero => rfl
    | succ n ih =>
      rw [String.pushn_eq_repeat_push] at ih ⊢
      rw [Nat.repeat, String.toList_push, ih, ← List.replicate_succ']
  exact hpush _

private theorem dropWhile_right (width n : Nat) (rest : List Char) :
    ((right width (toString n)).toList ++ rest).dropWhile (· == ' ') =
      (toString n).toList ++ rest := by
  obtain ⟨first, digits, hn, hd⟩ := numeral_eq_cons n
  have hblank : (first == ' ') = false := by
    rw [beq_eq_false_iff_ne]
    rintro rfl
    cases hd
  rw [right, String.toList_append, toList_blanks, List.append_assoc,
    List.dropWhile_append_of_pos (by simp), hn, List.cons_append, List.dropWhile_cons, hblank]
  rfl

/-- The blanks before a number do not hide it. -/
theorem legible_right (width : Nat) :
    Legible Char.isDigit fun n : Nat => right width (toString n) := by
  intro m n rest other h hr ho
  have hd := congrArg (List.dropWhile (· == ' ')) h
  rw [dropWhile_right, dropWhile_right] at hd
  exact legible_numeral hd hr ho

end Column

end RegisterMachine
