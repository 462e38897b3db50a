import Categorial.Text.Pieces

/-!
# Lines

A line ends with a line feed, a carriage return, or a carriage return and a line feed, which count
as one end. Text after the last line end is a line of its own; nothing after it is none.

* `lines`: the lines of a text.
* `finishedLines`: the lines of a text of which only the front is known.
* `unifyLineEnds_eq_self`: a text without carriage returns is left as it is.
-/

namespace Categorial.Text

/-- The text behind a character with its line ends unified, and that character. -/
def unifyStep (c : Char) (behind : List Char × Option Char) : List Char × Option Char :=
  (if c = '\r' then (if behind.2 = some '\n' then behind.1 else '\n' :: behind.1)
    else c :: behind.1, some c)

/-- The text with every line end written as a single line feed. -/
def unifyLineEnds (cs : List Char) : List Char :=
  (cs.foldr unifyStep ([], none)).1

/-- The parts of a text that line feeds end, without the line feeds. -/
def splitLines (cs : List Char) : List (List Char) :=
  let parts := pieces (· == '\n') cs
  if parts.getLast? = some [] then parts.dropLast else parts

/-- The lines of a text, without their ends. -/
def lines (text : String) : List (List Char) :=
  splitLines (unifyLineEnds text.toList)

/-- The lines of a text that are known to be complete from its front. Of a carriage return at the
end of the front it is not yet known whether it ends a line alone. -/
def finishedLines (front : String) : List (List Char) :=
  let cs := front.toList
  let known := if cs.getLast? = some '\r' then cs.dropLast else cs
  (pieces (· == '\n') (unifyLineEnds known)).dropLast

theorem unifyLineEnds_eq_self {cs : List Char} (h : '\r' ∉ cs) : unifyLineEnds cs = cs := by
  induction cs with
  | nil => rfl
  | cons c cs ih =>
    simp only [List.mem_cons, not_or] at h
    rw [unifyLineEnds, List.foldr_cons, unifyStep, if_neg (Ne.symm h.1)]
    exact congrArg (c :: ·) (ih h.2)

end Categorial.Text
