/-!
# Blanks

The characters with the White_Space property. They may stand anywhere between the lexemes of an
expression; `compact` removes them all and `trim` those at the two ends.
-/

namespace Reckon.Text

/-- The code points with the White_Space property, by ranges. -/
def blanks : List (Nat × Nat) := [
  (0x9, 0xd), (0x20, 0x20), (0x85, 0x85), (0xa0, 0xa0), (0x1680, 0x1680), (0x2000, 0x200a),
  (0x2028, 0x2029), (0x202f, 0x202f), (0x205f, 0x205f), (0x3000, 0x3000)]

/-- Whether a character lies in one of some ranges of code points. -/
def inRanges (ranges : List (Nat × Nat)) (c : Char) : Bool :=
  ranges.any fun (first, last) => first ≤ c.toNat && c.toNat ≤ last

/-- Whether a character has the White_Space property. -/
def isBlank (c : Char) : Bool := inRanges blanks c

/-- A text without its blanks. -/
def compact (s : String) : String := String.ofList (s.toList.filter (!isBlank ·))

@[simp] theorem toList_compact (s : String) :
    (compact s).toList = s.toList.filter (!isBlank ·) := String.toList_ofList

/-- A text without the blanks at its ends. -/
def trim (s : String) : String :=
  String.ofList ((s.toList.dropWhile isBlank).reverse.dropWhile isBlank).reverse

end Reckon.Text
