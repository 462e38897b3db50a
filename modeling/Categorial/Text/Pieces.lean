/-!
# Pieces of a text

Cutting a text at every separator. There is one piece more than there are separators, and a piece
may be empty.

* `pieces_cons`: how the first character of a text shows in its pieces.
-/

namespace Categorial.Text

/-- Puts a character in front of the first piece. -/
def consFirst (c : Char) : List (List Char) → List (List Char)
  | [] => [[c]]
  | piece :: rest => (c :: piece) :: rest

/-- The pieces between the separators. -/
def pieces (isSeparator : Char → Bool) (cs : List Char) : List (List Char) :=
  cs.foldr (fun c rest => if isSeparator c then [] :: rest else consFirst c rest) [[]]

@[simp] theorem pieces_nil (p : Char → Bool) : pieces p [] = [[]] :=
  rfl

theorem pieces_cons (p : Char → Bool) (c : Char) (cs : List Char) :
    pieces p (c :: cs) = if p c then [] :: pieces p cs else consFirst c (pieces p cs) :=
  rfl

theorem pieces_ne_nil (p : Char → Bool) (cs : List Char) : pieces p cs ≠ [] := by
  cases cs with
  | nil => simp
  | cons c cs =>
    rw [pieces_cons]
    split
    · simp
    · cases pieces p cs <;> simp [consFirst]

end Categorial.Text
