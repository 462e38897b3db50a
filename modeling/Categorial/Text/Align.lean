/-!
# Alignment

Placing a text in the middle of a field of given width. When the blanks cannot be shared evenly,
the odd one goes to the left exactly if the width is odd.

* `length_center`: a centred text fills its field, unless it is wider than the field.
-/

namespace Categorial.Text

/-- A run of spaces. -/
def spaces (n : Nat) : List Char :=
  List.replicate n ' '

/-- The number of spaces in front of a text of `length` characters in a field of `width`. -/
def leftMargin (width length : Nat) : Nat :=
  let margin := width - length
  margin / 2 + (if margin % 2 = 1 ∧ width % 2 = 1 then 1 else 0)

/-- The text in the middle of a field. -/
def center (width : Nat) (cs : List Char) : List Char :=
  let left := leftMargin width cs.length
  spaces left ++ cs ++ spaces (width - cs.length - left)

theorem leftMargin_le (width length : Nat) : leftMargin width length ≤ width - length := by
  simp only [leftMargin]
  split <;> omega

theorem length_center (width : Nat) (cs : List Char) :
    (center width cs).length = max width cs.length := by
  have := leftMargin_le width cs.length
  simp only [center, spaces, List.length_append, List.length_replicate]
  omega

end Categorial.Text
