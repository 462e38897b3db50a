import Categorial.Json.Reader
import Categorial.Lexicon.Basic
import Categorial.Text.Encoding
import Categorial.Text.Lines

/-!
# Lexicon files

A lexicon is kept in a file in one of two forms. A JSON object has the words as its keys and lists
of categories as its values. Any other text has a word and a category on each line, where a number
sign starts a comment and lines without content are skipped. Such lines are read one after the
other, so that a mistake in a line comes before bytes behind it that encode no text.

* `significantLines`: the lines of a text that have content, with their numbers.
* `Lexicon.ofText`: the lexicon that a text holds.
* `Lexicon.ofFile`: the lexicon in a file of given name and content.
* `Lexicon.ofFile_toUTF8`: of a file that encodes a text only the text matters.
-/

namespace Categorial

/-- Why the content of a file cannot be dealt with at all. -/
inductive Unreadable
  /-- Its bytes encode no text. -/
  | undecodable
  /-- It has a JSON number with more digits than are read. -/
  | tooManyDigits (digits : Nat)
  /-- A value of its JSON object lists no texts. Arrays with items that are no texts belong here as
  well: no lexicon of categories is made of them. -/
  | notCategories (word : String)
  deriving DecidableEq

/-- What is wrong, in words, if there are any. -/
def Unreadable.message : Unreadable → Option String
  | undecodable | notCategories _ => none
  | tooManyDigits digits =>
    some ("Exceeds the limit (" ++ toString Decimal.digitLimit ++ " digits) for integer string " ++
      "conversion: value has " ++ toString digits ++ " digits; use " ++
      "sys.set_int_max_str_digits() to increase the limit")

/-- A mistake in a file with a lexicon. -/
inductive LexiconError
  /-- A JSON text that is no object. -/
  | notAnObject (file : String)
  /-- A line with a word alone. -/
  | noCategory (file : String) (line : Nat) (text : String)
  /-- A malformed category, with the number of its line if the file is not JSON. -/
  | category (file : String) (line : Option Nat) (error : ReadError)
  deriving DecidableEq

/-- Why no lexicon is read from a file. -/
inductive LexiconFault
  | unreadable (e : Unreadable)
  | mistake (e : LexiconError)
  deriving DecidableEq

/-- The file and the line of an error. -/
def inFile (file : String) (line : Option Nat) : String :=
  match line with
  | none => file ++ ": "
  | some n => file ++ ":" ++ toString n ++ ": "

/-- What is wrong, in words. -/
def LexiconError.message : LexiconError → String
  | notAnObject file => "expected a JSON object in " ++ file
  | noCategory file line text =>
    inFile file (some line) ++ "expected a word and a category: " ++ text
  | category file line e => atPosition (inFile file line ++ "invalid category") e.text e.position

/-! ## Lines -/

/-- A line without comment and without blanks around it. -/
def removeComment (line : List Char) : List Char :=
  Text.strip (line.takeWhile (· != '#'))

/-- The lines with content, without comments, each with its number among the given lines. -/
def numberedLines (lines : List (List Char)) : List (Nat × List Char) :=
  ((lines.zipIdx 1).map fun (line, k) => (k, removeComment line)).filter (!·.2.isEmpty)

/-- The lines of a text with content, without comments, each with its number among all lines. -/
def significantLines (text : String) : List (Nat × List Char) :=
  numberedLines (Text.lines text)

/-- Adds the word and the category of a line. -/
def Lexicon.addLine (file : String) (l : Lexicon) (line : Nat × List Char) :
    Except LexiconError Lexicon :=
  match Text.firstField line.2 with
  | (_, []) => .error (.noCategory file line.1 (String.ofList line.2))
  | (word, category) =>
    (l.changedBy (addSource (String.ofList word) (.text (String.ofList category)))).mapError
      (.category file (some line.1))

/-- The lexicon of numbered lines with a word and a category on each. -/
def Lexicon.ofLines (file : String) (lines : List (Nat × List Char)) :
    Except LexiconError Lexicon :=
  lines.foldlM (Lexicon.addLine file) Lexicon.empty

/-! ## JSON -/

/-- The text of a JSON string. -/
def Json.text? : Json → Option String
  | .string t => some t
  | _ => none

/-- The categories that a value gives: those in the strings of an array, those in the keys of an
object, or that in a string alone. An array with anything else in it gives none. -/
def Json.categories? : Json → Option CategoryEntry
  | .string t => some (.one (.text t))
  | .array items => (items.mapM Json.text?).map fun ts => .several (ts.map .text)
  | .object members => some (.several (members.map fun m => .text m.1))
  | _ => none

/-- Adds a word with the categories of its value. -/
def Lexicon.addMember (file : String) (l : Lexicon) (member : String × Json) :
    Except LexiconFault Lexicon :=
  match member.2.categories? with
  | none => .error (.unreadable (.notCategories member.1))
  | some given =>
    (l.changedBy (addEntries [(member.1, given)])).mapError fun e =>
      .mistake (.category file none e)

/-- The lexicon of a JSON value. -/
def Lexicon.ofJson (file : String) : Json → Except LexiconFault Lexicon
  | .object members => members.foldlM (Lexicon.addMember file) Lexicon.empty
  | _ => .error (.mistake (.notAnObject file))

/-! ## Files -/

/-- The lexicon that a text holds, which is the content of the file of the given name. -/
def Lexicon.ofText (file text : String) : Except LexiconFault Lexicon :=
  match Json.parse text.toList with
  | .ok v => Lexicon.ofJson file v
  | .error .malformed => (Lexicon.ofLines file (significantLines text)).mapError .mistake
  | .error (.tooManyDigits digits) => .error (.unreadable (.tooManyDigits digits))

/-- The lexicon in a file of the given name and content. If the bytes encode no text, they are no
JSON text either, and the lines in front are read first. -/
def Lexicon.ofFile (file : String) (bytes : ByteArray) : Except LexiconFault Lexicon :=
  match Text.decode? bytes with
  | some text => Lexicon.ofText file text
  | none =>
    let known := numberedLines (Text.finishedLines (Text.decodedFront bytes))
    match Lexicon.ofLines file known with
    | .error e => .error (.mistake e)
    | .ok _ => .error (.unreadable .undecodable)

theorem Lexicon.ofFile_toUTF8 (file text : String) :
    Lexicon.ofFile file text.toUTF8 = Lexicon.ofText file text := by
  rw [ofFile, Text.decode?_toUTF8]

end Categorial
