import Categorial.Command.Arguments
import Categorial.Decimal.Reading
import Categorial.Export.Report

/-!
# Commands

The two commands and their options. `parse` reads a lexicon and sentences and prints derivations;
`category` reads categories and prints them. Asking for help counts unless a mistake is in front of
it; a word that cannot be interpreted at all counts only at the end. An option that is used without
a value is no mistake by itself: its setting is empty, which matters only where it is needed.

* `Invocation.ofArguments`: what a list of arguments asks for.
-/

namespace Categorial

open Arguments

/-- How sentences are parsed. -/
inductive ParseMode
  | exhaustive
  | deterministic
  | best
  deriving DecidableEq

namespace ParseMode

/-- The name by which a mode is chosen. -/
def name : ParseMode → String
  | exhaustive => "exhaustive"
  | deterministic => "deterministic"
  | best => "best"

/-- The mode of a name. -/
def ofName? (name : String) : Option ParseMode :=
  [exhaustive, deterministic, best].find? (·.name == name)

end ParseMode

/-- What an option is set to; nothing if it is used without a value. -/
abbrev Setting (α : Type) := Option α

/-- What the `parse` command is asked to do. The input and the roots may be left open. -/
structure ParseOptions where
  lexicon : Setting String
  input : Option (Setting String)
  format : Setting Export.Format
  mode : ParseMode
  count : Setting Int
  penalty : Setting Float
  maxSteps : Setting Int
  roots : Option (Setting String)
  full : Bool
  silent : Bool

/-- What the program is asked to do. -/
inductive Invocation
  /-- To show how it is used; `asked` tells whether by an option or for want of a command. -/
  | help (asked : Bool)
  | parse (options : ParseOptions)
  | category (expressions : List String)

/-- What an option is for. -/
inductive OptionKey
  | help
  | lexicon
  | input
  | format
  | mode
  | count
  | penalty
  | maxSteps
  | roots
  | full
  | silent
  deriving DecidableEq

/-- The option that asks for help, which every command has. -/
def helpSpec : Spec OptionKey :=
  ⟨.help, ["-h", "--help"], false⟩

/-- The options of the `parse` command. -/
def parseSpecs : List (Spec OptionKey) :=
  [helpSpec, ⟨.lexicon, ["-l", "--lexicon"], true⟩, ⟨.input, ["-i", "--input"], true⟩,
    ⟨.format, ["-f", "--format"], true⟩, ⟨.mode, ["--mode"], true⟩,
    ⟨.count, ["--nbest"], true⟩, ⟨.penalty, ["--raise-penalty"], true⟩,
    ⟨.maxSteps, ["--max-step"], true⟩, ⟨.roots, ["--root-cats"], true⟩,
    ⟨.full, ["--full-categories"], false⟩, ⟨.silent, ["--silent"], false⟩]

/-- The values of the options of the `parse` command so far; the lexicon may still be missing. -/
structure ParseChoices where
  lexicon : Option (Setting String)
  options : ParseOptions

/-- The values of the options that are not used. -/
def ParseChoices.standard : ParseChoices :=
  ⟨none, ⟨none, none, some .diagram, .exhaustive, some 1, some 0.1, some 10000000, none, false,
    false⟩⟩

/-- The setting that the use of an option gives, or the mistake that its value means nothing. -/
def setting {α : Type} (u : Use OptionKey) (read : String → Option α) :
    Except UsageError (Setting α) :=
  match u.value with
  | none => .ok none
  | some value =>
    match read value with
    | some a => .ok (some a)
    | none => .error (.invalidValue u.name value)

/-- The choices after one more use of an option. The mode is exhaustive unless another one is
named. -/
def ParseChoices.use (c : ParseChoices) (u : Use OptionKey) : Except UsageError ParseChoices :=
  match u.key with
  | .help => .ok c
  | .lexicon => .ok { c with lexicon := some u.value }
  | .input => .ok { c with options.input := some u.value }
  | .format => do return { c with options.format := ← setting u Export.Format.ofName? }
  | .mode => do
    return { c with options.mode := (← setting u ParseMode.ofName?).getD .exhaustive }
  | .count => do return { c with options.count := ← setting u Decimal.readInt? }
  | .penalty => do return { c with options.penalty := ← setting u Decimal.readFloat? }
  | .maxSteps => do return { c with options.maxSteps := ← setting u Decimal.readInt? }
  | .roots => .ok { c with options.roots := some u.value }
  | .full => .ok { c with options.full := true }
  | .silent => .ok { c with options.silent := true }

/-- The choices after all uses of options, unless one of them asks for help. -/
def ParseChoices.useAll (c : ParseChoices) : List (Use OptionKey) →
    Except UsageError (Option ParseChoices)
  | [] => .ok (some c)
  | u :: us =>
    if u.key = .help then .ok none
    else do (← c.use u).useAll us

/-- Nothing, or the mistake that the words have no place in the command. -/
def refuse (words : List String) : Except UsageError Unit :=
  if words.isEmpty then .ok () else .error (.unrecognized words)

/-- Nothing, unless a scan ended with a mistake. -/
def raiseMistake (s : Scan OptionKey) : Except UsageError Unit :=
  match s.mistake with
  | none => .ok ()
  | some e => .error e

/-- What the words behind `parse` ask for; `extra` are words in front of it that have no place. -/
def parseInvocation (extra words : List String) : Except UsageError Invocation := do
  let s := scan parseSpecs words
  match ← ParseChoices.standard.useAll s.uses with
  | none => return .help true
  | some c =>
    raiseMistake s
    let some lexicon := c.lexicon | .error (.missing "--lexicon")
    refuse (extra ++ s.unknown ++ (if s.separated then ["--"] else []) ++ s.operands)
    return .parse { c.options with lexicon := lexicon }

/-- What the words behind `category` ask for. -/
def categoryInvocation (extra words : List String) : Except UsageError Invocation := do
  let s := scan [helpSpec] words
  if s.uses.isEmpty then
    raiseMistake s
    if s.operands.isEmpty then .error (.missing "EXPRESSION")
    refuse (extra ++ s.unknown)
    return .category s.operands
  else return .help true

/-- What the arguments ask for, given the words in front that look like options but are none. -/
def invocationFrom (extra : List String) : List String → Except UsageError Invocation
  | [] => if extra.isEmpty then .ok (.help false) else .error (.unrecognized extra)
  | word :: words =>
    if word = "--" then .error (.unknownCommand word)
    else do
      match ← classify [helpSpec] word with
      | .operand name =>
        if name = "parse" then parseInvocation extra words
        else if name = "category" then categoryInvocation extra words
        else .error (.unknownCommand name)
      | .unknown text => invocationFrom (extra ++ [text]) words
      | .known spec name attached =>
        let s := Scan.nothing.addWord [helpSpec] (.known spec name attached)
        raiseMistake s
        return .help true
      | .separator => .error (.unknownCommand word)

/-- What the arguments of the program ask for. -/
def Invocation.ofArguments (arguments : List String) : Except UsageError Invocation :=
  invocationFrom [] arguments

end Categorial
