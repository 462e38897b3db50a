import Categorial.Text.Digit

/-!
# Arguments of a command

How the words behind the name of a command are read. An option is a word that starts with a dash. It
may be cut short as long as only one option is meant; its value is the next word, or stands behind
an equals sign, or directly behind the letter of a short option. Several short options without value
may share a dash. Behind a lone `--` no word is an option; a negative number, a word with a space
and a lone dash are none anywhere. A `--` behind an equals sign or a letter is no value: the option
is used without one.

* `classify`: what a word is.
* `scan`: the options and other words of a command, up to the first mistake.
-/

namespace Categorial.Arguments

/-- An option of a command: what it is for, its names with their dashes, and whether it has a
value. -/
structure Spec (κ : Type) where
  key : κ
  names : List String
  hasValue : Bool

/-- A mistake in the use of a command. -/
inductive UsageError
  | ambiguous (word : String)
  | missingValue (name : String)
  | superfluousValue (name : String)
  | invalidValue (name value : String)
  | missing (name : String)
  | unrecognized (words : List String)
  | unknownCommand (name : String)
  deriving DecidableEq

/-- What a word is. -/
inductive Word (κ : Type)
  | operand (text : String)
  | separator
  /-- A known option under one of its names, with the text that is attached to it. -/
  | known (spec : Spec κ) (name : String) (attached : Option String)
  | unknown (text : String)

variable {κ : Type}

/-- The names of the options of a command, each with its option. -/
def names (specs : List (Spec κ)) : List (String × Spec κ) :=
  specs.flatMap fun s => s.names.map (·, s)

/-- The option of a name. -/
def find? (specs : List (Spec κ)) (name : String) : Option (Spec κ) :=
  ((names specs).find? (·.1 == name)).map (·.2)

/-- The part of a word in front of the first equals sign and the part behind it, if there is one. -/
def splitAssignment (word : String) : String × Option String :=
  let cs := word.toList
  let front := cs.takeWhile (· != '=')
  match cs.dropWhile (· != '=') with
  | [] => (word, none)
  | _ :: value => (String.ofList front, some (String.ofList value))

/-- Whether a text starts with another. -/
def startsWith (text start : String) : Bool :=
  start.toList.isPrefixOf text.toList

/-- The options that a word may stand for. A word with two dashes may be the start of a name; one
with a single dash may be a short option with something attached, or the start of a name. -/
def candidates (specs : List (Spec κ)) (word : String) :
    List (Spec κ × String × Option String) :=
  if startsWith word "--" then
    let (start, value) := splitAssignment word
    (names specs).filterMap fun (name, s) =>
      if startsWith name start then some (s, name, value) else none
  else
    let short := String.ofList (word.toList.take 2)
    let rest := String.ofList (word.toList.drop 2)
    (names specs).filterMap fun (name, s) =>
      if name == short then some (s, name, some rest)
      else if startsWith name word then some (s, name, none)
      else none

/-- Whether a word is a dash and a number in digits, with or without a decimal point; a line feed
may follow. -/
def isNegativeNumber (word : String) : Bool :=
  let isDigit := fun c => (Text.digitValue? c).isSome
  match word.toList with
  | '-' :: cs =>
    let cs := if cs.getLast? = some '\n' then cs.dropLast else cs
    match cs.dropWhile isDigit with
    | [] => !cs.isEmpty
    | '.' :: fraction => !fraction.isEmpty && fraction.all isDigit
    | _ => false
  | _ => false

/-- What a word is that is not behind a separator. -/
def classify (specs : List (Spec κ)) (word : String) : Except UsageError (Word κ) :=
  if !startsWith word "-" || word == "-" then .ok (.operand word)
  else match find? specs word with
    | some s => .ok (.known s word none)
    | none =>
      let assigned := match splitAssignment word with
        | (name, some value) =>
          (find? specs name).map fun s => Word.known s name (some value)
        | (_, none) => none
      match assigned with
      | some w => .ok w
      | none =>
        match candidates specs word with
        | [(s, name, attached)] => .ok (.known s name attached)
        | _ :: _ :: _ => .error (.ambiguous word)
        | [] =>
          if isNegativeNumber word || word.toList.contains ' ' then .ok (.operand word)
          else .ok (.unknown word)

/-- What the words of a command are; behind the first separator all are operands. -/
def classifyAll (specs : List (Spec κ)) : List String → Except UsageError (List (Word κ))
  | [] => .ok []
  | word :: words =>
    if word == "--" then .ok (.separator :: words.map .operand)
    else do return (← classify specs word) :: (← classifyAll specs words)

/-- An option that was used, with the value that it was given. -/
structure Use (κ : Type) where
  key : κ
  name : String
  value : Option String

/-- An option that still lacks its value, with the uses of options that stand in the same word. -/
structure Waiting (κ : Type) where
  before : List (Use κ)
  spec : Spec κ
  name : String

/-- What the words read so far amount to: the uses of options in order, the other words in order,
the words that look like options but are none, whether there was a separator, the option whose value
has to come next, and the mistake that ended the scan, if one did. -/
structure Scan (κ : Type) where
  uses : List (Use κ)
  operands : List String
  unknown : List String
  separated : Bool
  waiting : Option (Waiting κ)
  mistake : Option UsageError

namespace Scan

/-- The scan of no words. -/
def nothing : Scan κ :=
  ⟨[], [], [], false, none, none⟩

/-- The scan with an option that is given a value, or none. -/
def addValue (s : Scan κ) (before : List (Use κ)) (spec : Spec κ) (name : String)
    (value : Option String) : Scan κ :=
  { s with uses := s.uses ++ before ++ [⟨spec.key, name, value⟩] }

/-- The scan with one more option, which may still lack its value. -/
def addOption (s : Scan κ) (before : List (Use κ)) (spec : Spec κ) (name : String) : Scan κ :=
  if spec.hasValue then { s with waiting := some ⟨before, spec, name⟩ }
  else s.addValue before spec name none

/-- The scan that ends with a mistake. -/
def fail (s : Scan κ) (e : UsageError) : Scan κ :=
  { s with mistake := some e }

/-- The value that is attached to an option, unless it is a separator. -/
def attachedValue (text : String) : Option String :=
  if text = "--" then none else some text

/-- The scan with what the text behind an option in the same word amounts to: the value of the
option, or further short options without a dash of their own. -/
def addAttached (specs : List (Spec κ)) (s : Scan κ) (before : List (Use κ)) (spec : Spec κ)
    (name : String) : List Char → Scan κ
  | [] =>
    if spec.hasValue then s.addValue before spec name (some "")
    else s.fail (.superfluousValue name)
  | c :: cs =>
    if spec.hasValue then s.addValue before spec name (attachedValue (String.ofList (c :: cs)))
    else
      let short := String.ofList ['-', c]
      match startsWith name "--", find? specs short with
      | false, some next =>
        let before := before ++ [⟨spec.key, name, none⟩]
        match cs with
        | [] => s.addOption before next short
        | cs => addAttached specs s before next short cs
      | _, _ => s.fail (.superfluousValue name)

/-- The scan with one more word. -/
def addWord (specs : List (Spec κ)) (s : Scan κ) (w : Word κ) : Scan κ :=
  match s.mistake, s.waiting, w with
  | some _, _, _ => s
  | none, some o, .operand value =>
    { s.addValue o.before o.spec o.name (some value) with waiting := none }
  | none, some o, _ => s.fail (.missingValue o.name)
  | none, none, .operand text => { s with operands := s.operands ++ [text] }
  | none, none, .separator => { s with separated := true }
  | none, none, .unknown text => { s with unknown := s.unknown ++ [text] }
  | none, none, .known spec name none => s.addOption [] spec name
  | none, none, .known spec name (some text) => addAttached specs s [] spec name text.toList

/-- The scan at the end of the words. -/
def close (s : Scan κ) : Scan κ :=
  match s.mistake, s.waiting with
  | none, some o => s.fail (.missingValue o.name)
  | _, _ => s

end Scan

/-- The scan of the words of a command. -/
def scan (specs : List (Spec κ)) (words : List String) : Scan κ :=
  match classifyAll specs words with
  | .error e => Scan.nothing.fail e
  | .ok ws => (ws.foldl (Scan.addWord specs) .nothing).close

end Categorial.Arguments
