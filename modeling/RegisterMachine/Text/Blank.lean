/-!
# Blanks and words

The blanks are the characters with the property White_Space. Words are what stands between blanks.
-/

namespace RegisterMachine.Text

/-- The code points of the blanks, as ranges with both ends included. -/
def blankRanges : List (Nat × Nat) :=
  [(0x9, 0xD), (0x20, 0x20), (0x85, 0x85), (0xA0, 0xA0), (0x1680, 0x1680), (0x2000, 0x200A),
    (0x2028, 0x2029), (0x202F, 0x202F), (0x205F, 0x205F), (0x3000, 0x3000)]

def isBlank (c : Char) : Bool :=
  blankRanges.any fun (first, last) => first ≤ c.toNat && c.toNat ≤ last

def wordsOf (chars : List Char) : List String :=
  match h : chars.dropWhile isBlank with
  | [] => []
  | first :: rest =>
    have : (rest.dropWhile (!isBlank ·)).length < chars.length := by
      have hs := (List.dropWhile_sublist isBlank (l := chars)).length_le
      have ht := (List.dropWhile_sublist (!isBlank ·) (l := rest)).length_le
      rw [h, List.length_cons] at hs
      omega
    String.ofList (first :: rest.takeWhile (!isBlank ·)) :: wordsOf (rest.dropWhile (!isBlank ·))
termination_by chars.length

def words (line : String) : List String := wordsOf line.toList

/-- A text without the blanks at its ends. -/
def trim (chars : List Char) : List Char :=
  ((chars.dropWhile isBlank).reverse.dropWhile isBlank).reverse

/-- A text with its ASCII letters in upper case. -/
def upper (text : String) : String := text.map Char.toUpper

end RegisterMachine.Text
