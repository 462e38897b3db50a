import Categorial.Category.Printer
import Categorial.Text.Blank
import Categorial.Text.Quoted

/-!
# Reading categories

The reader takes a text one character at a time. Slashes associate to the left, so `S\NP/NP` is
`(S\NP)/NP`. A modality stands directly behind its slash, in the usual sign or in ASCII; blanks may
stand between the parts, but neither inside an atom nor in front of a modality.

The state of the reader is what it is in the middle of (`Focus`), together with one entry for each
bracket that is still open. A text is read by folding `Reading.step` over its characters, so the
state after a prefix of the text depends on nothing that follows it.

* `Category.parse`: the category that a text denotes, or the cause and the place of the failure.
* `run_append`: reading a text in two parts.
-/

namespace Categorial

/-! ## Failures -/

/-- Why a text denotes no category. -/
inductive ReadCause
  | endOfInput
  | trailingInput
  | noCategory
  | noBracket
  | noFeatureEnd
  | unknownAtom (name : String)
  | featureRefused (name : String)
  | unknownFeature
  deriving DecidableEq

/-- What is wrong, in words. -/
def ReadCause.message : ReadCause → String
  | endOfInput => "unexpected end of input"
  | trailingInput => "unexpected trailing input"
  | noCategory => "expected a category"
  | noBracket => "expected \")\""
  | noFeatureEnd => "expected \"]\""
  | unknownAtom name => "unknown atomic category \"" ++ name ++ "\""
  | featureRefused name => "\"" ++ name ++ "\" does not take a feature"
  | unknownFeature => "unknown sentence feature"

/-- A cause and the number of characters in front of the place where it arises. -/
structure Fault where
  cause : ReadCause
  position : Nat
  deriving DecidableEq

/-- A text that denotes no category. -/
structure ReadError where
  cause : ReadCause
  text : String
  position : Nat
  deriving DecidableEq

/-- The place of a failure, with the whole text. -/
def atPosition (what text : String) (position : Nat) : String :=
  what ++ " at position " ++ toString position ++ ": " ++ Text.quote text

/-- The failure in words, with its place and the text. -/
def ReadError.message (e : ReadError) : String :=
  atPosition e.cause.message e.text e.position

namespace Reading

/-! ## States -/

/-- A result and a slash that wait for the argument, if one has been read at this level. -/
abbrev Pending := Option (Category × Slash)

/-- What the reader is in the middle of. -/
inductive Focus
  /-- A category has to start. -/
  | operand (left : Pending)
  /-- The last character was a slash. -/
  | slash (result : Category) (direction : Direction)
  /-- The last two characters were a slash and `<`. -/
  | angle (result : Category) (direction : Direction)
  /-- Inside a name, whose letters are held last first. -/
  | name (left : Pending) (letters : List Char)
  /-- Inside a feature, whose letters are held last first. -/
  | feature (left : Pending) (letters : List Char)
  /-- A category has been read. -/
  | value (c : Category)
  deriving DecidableEq

/-- The state of the reader: the number of characters read, what stood in front of each bracket
that is still open, and what the reader is in the middle of. -/
structure State where
  position : Nat
  opened : List Pending
  focus : Focus
  deriving DecidableEq

/-- The state in front of the first character. -/
def start : State :=
  ⟨0, [], .operand none⟩

/-! ## Transitions -/

/-- The modality of a sign of one character. -/
def modality? : Char → Option Modality
  | '◇' => some .orderPreserving
  | '★' | '*' => some .applicationOnly
  | '×' | 'x' => some .permutationLimiting
  | '𝑖' | 'i' => some .raising
  | _ => none

/-- The side to which a slash points. -/
def direction? : Char → Option Direction
  | '/' => some .forward
  | '\\' => some .backward
  | _ => none

/-- A letter of a name. -/
def isNameLetter (c : Char) : Bool :=
  'A' ≤ c && c ≤ 'Z'

/-- A letter of a feature. -/
def isFeatureLetter (c : Char) : Bool :=
  'a' ≤ c && c ≤ 'z'

/-- A category together with what stood in front of it at its level. -/
def attach (left : Pending) (c : Category) : Category :=
  match left with
  | none => c
  | some (r, d) => .functor r d c

/-- The category that a name without feature stands for. -/
def named? (name : String) : Option Category :=
  if name = "X" then some .var
  else (Primitive.ofSymbol? name).map fun b => .atom (.bare b)

/-- The text of letters held last first. -/
def spell (letters : List Char) : String :=
  String.ofList letters.reverse

/-- The next focus where a category has to start. -/
def stepOperand (position : Nat) (opened : List Pending) (left : Pending) (c : Char) :
    Except Fault State :=
  if Text.isBlank c then .ok ⟨position + 1, opened, .operand left⟩
  else if c = '(' then .ok ⟨position + 1, left :: opened, .operand none⟩
  else if isNameLetter c then .ok ⟨position + 1, opened, .name left [c]⟩
  else .error ⟨.noCategory, position⟩

/-- The next focus behind a category. -/
def stepValue (position : Nat) (opened : List Pending) (v : Category) (c : Char) :
    Except Fault State :=
  if Text.isBlank c then .ok ⟨position + 1, opened, .value v⟩
  else match direction? c with
    | some d => .ok ⟨position + 1, opened, .slash v d⟩
    | none =>
      match opened with
      | [] => .error ⟨.trailingInput, position⟩
      | left :: opened =>
        if c = ')' then .ok ⟨position + 1, opened, .value (attach left v)⟩
        else .error ⟨.noBracket, position⟩

/-- The category that a completed name stands for. -/
def closeName (position : Nat) (left : Pending) (letters : List Char) :
    Except Fault Category :=
  match named? (spell letters) with
  | some v => .ok (attach left v)
  | none => .error ⟨.unknownAtom (spell letters), position - letters.length⟩

/-- The form that the letters of a feature stand for. -/
def closeFeature (position : Nat) (letters : List Char) : Except Fault ClauseForm :=
  match ClauseForm.ofSymbol? (spell letters) with
  | some f => .ok f
  | none => .error ⟨.unknownFeature, position - letters.length⟩

/-- The next focus behind the letters of a name. Behind a symbol a square bracket opens a feature,
which only the sentence takes; behind the variable it is a character like any other. -/
def stepName (position : Nat) (opened : List Pending) (left : Pending) (letters : List Char)
    (c : Char) : Except Fault State :=
  if isNameLetter c then .ok ⟨position + 1, opened, .name left (c :: letters)⟩
  else do
    let v ← closeName position left letters
    if c = '[' && letters ≠ ['X'] then
      if letters = ['S'] then .ok ⟨position + 1, opened, .feature left []⟩
      else .error ⟨.featureRefused (spell letters), position⟩
    else stepValue position opened v c

/-- The next focus behind the letters of a feature. -/
def stepFeature (position : Nat) (opened : List Pending) (left : Pending) (letters : List Char)
    (c : Char) : Except Fault State :=
  if isFeatureLetter c then .ok ⟨position + 1, opened, .feature left (c :: letters)⟩
  else do
    let f ← closeFeature position letters
    if c = ']' then .ok ⟨position + 1, opened, .value (attach left (.atom (.clause f)))⟩
    else .error ⟨.noFeatureEnd, position⟩

/-- The state after one more character. -/
def step (s : State) (c : Char) : Except Fault State :=
  match s.focus with
  | .operand left => stepOperand s.position s.opened left c
  | .value v => stepValue s.position s.opened v c
  | .name left letters => stepName s.position s.opened left letters c
  | .feature left letters => stepFeature s.position s.opened left letters c
  | .slash r d =>
    if c = '<' then .ok ⟨s.position + 1, s.opened, .angle r d⟩
    else match modality? c with
      | some m => .ok ⟨s.position + 1, s.opened, .operand (some (r, ⟨d, m⟩))⟩
      | none => stepOperand s.position s.opened (some (r, ⟨d, .permissive⟩)) c
  | .angle r d =>
    if c = '>' then .ok ⟨s.position + 1, s.opened, .operand (some (r, ⟨d, .orderPreserving⟩))⟩
    else .error ⟨.noCategory, s.position - 1⟩

/-- The category at the end of the text, if no bracket is open. -/
def finishValue (s : State) (v : Category) : Except Fault Category :=
  match s.opened with
  | [] => .ok v
  | _ :: _ => .error ⟨.noBracket, s.position⟩

/-- The category at the end of the text. -/
def finish (s : State) : Except Fault Category :=
  match s.focus with
  | .operand _ | .slash _ _ => .error ⟨.endOfInput, s.position⟩
  | .angle _ _ => .error ⟨.noCategory, s.position - 1⟩
  | .value v => finishValue s v
  | .name left letters => do finishValue s (← closeName s.position left letters)
  | .feature _ letters => do
    let _ ← closeFeature s.position letters
    .error ⟨.noFeatureEnd, s.position⟩

/-- The state after the given characters. -/
def run (s : State) (cs : List Char) : Except Fault State :=
  cs.foldlM step s

@[simp] theorem run_nil (s : State) : run s [] = .ok s :=
  rfl

theorem run_cons (s : State) (c : Char) (cs : List Char) :
    run s (c :: cs) = (step s c).bind fun t => run t cs := by
  simp only [run, List.foldlM_cons]
  rfl

theorem run_append (s : State) (cs ds : List Char) :
    run s (cs ++ ds) = (run s cs).bind fun t => run t ds := by
  simp only [run, List.foldlM_append]
  rfl

/-- The category that the characters denote. -/
def read (cs : List Char) : Except Fault Category :=
  (run start cs).bind finish

end Reading

/-- The category that a text denotes. -/
def Category.parse (text : String) : Except ReadError Category :=
  match Reading.read text.toList with
  | .ok c => .ok c
  | .error f => .error ⟨f.cause, text, f.position⟩

end Categorial
