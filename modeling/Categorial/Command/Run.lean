import Categorial.Chart.Greedy
import Categorial.Command.Options
import Categorial.Lexicon.File
import Categorial.Search.BestFirst

/-!
# Running a command

What the program does with its arguments, as a function of the files it finds and its standard
input: what it prints, what it reports, and how it ends.

* `Command.run`: a run of the program.
-/

namespace Categorial

/-- A line of what the program reports. -/
inductive Report
  | event (e : Event)
  | text (t : String)
  /-- How the program is used. -/
  | usage

/-- Why a name leads to no file. -/
inductive FileError
  /-- Nothing has the name. -/
  | missing
  /-- It is the name of a directory. -/
  | directory
  /-- It goes on behind the name of a file as if that were a directory. -/
  | notDirectory
  /-- It holds a NUL, as no name does. -/
  | malformed
  deriving DecidableEq

/-- What is wrong with a name, in words. -/
def FileError.message (name : String) : FileError → String
  | missing => "[Errno 2] No such file or directory: " ++ Text.quote name
  | directory => "[Errno 21] Is a directory: " ++ Text.quote name
  | notDirectory => "[Errno 20] Not a directory: " ++ Text.quote name
  | malformed => "embedded null byte"

/-- Why a run breaks off. -/
inductive Failure
  /-- The setting of an option is needed, but it was used without a value. -/
  | noValue (key : OptionKey)
  | file (name : String) (e : FileError)
  | unreadable (e : Unreadable)
  | search (e : SearchError Empty)
  | markup (e : Export.MarkupError)

/-- What is wrong, in words, if there are any. -/
def Failure.message : Failure → Option String
  | noValue _ => none
  | file name e => some (e.message name)
  | unreadable e => e.message
  | search e => some (e.message Empty.elim)
  | markup e => some e.message

/-- How a run ends. -/
inductive Exit
  | status (n : Nat)
  /-- Only the usage was shown, for want of a command. -/
  | unasked
  | failed (e : Failure)

/-- What a run prints: a text, or how the program is used. -/
inductive Printed
  | text (t : String)
  | usage

/-- The outcome of a run. -/
structure Transcript where
  printed : Printed
  reports : List Report
  exit : Exit

/-- The world of a run: the contents of the files by name, and the standard input. -/
structure Surroundings where
  file : String → Except FileError ByteArray
  input : ByteArray

namespace Command

/-- The value that an option is set to. -/
def demand {α : Type} (key : OptionKey) : Setting α → Except Failure α
  | some a => .ok a
  | none => .error (.noValue key)

/-- The content of a file. -/
def readFile (w : Surroundings) (name : String) : Except Failure ByteArray :=
  if name.toList.contains '\x00' then .error (.file name .malformed)
  else (w.file name).mapError (.file name)

/-- The text that bytes encode. -/
def decode (bytes : ByteArray) : Except Failure String :=
  match Text.decode? bytes with
  | some text => .ok text
  | none => .error (.unreadable .undecodable)

/-- The text with the sentences: that of a file, or the standard input. -/
def readInput (w : Surroundings) (options : ParseOptions) : Except Failure String := do
  match options.input with
  | some name => decode (← readFile w (← demand .input name))
  | none => decode w.input

/-- The lexicon and the name of its file, or the mistake in it. -/
def readLexicon (w : Surroundings) (options : ParseOptions) :
    Except Failure (Except LexiconError (String × Lexicon)) := do
  let name ← demand .lexicon options.lexicon
  match Lexicon.ofFile name (← readFile w name) with
  | .ok l => return .ok (name, l)
  | .error (.mistake e) => return .error e
  | .error (.unreadable e) => .error (.unreadable e)

/-- The sentences of a text, one on each line that is not blank, as lists of words. -/
def sentences (text : String) : List (List String) :=
  ((Text.lines text).map fun line => (Text.fields line).map String.ofList).filter
    (!·.isEmpty)

/-- The categories separated by bars. -/
def rootsOf (text : String) : Except ReadError (List Category) :=
  (Text.pieces (· == '|') text.toList).mapM fun piece => Category.parse (String.ofList piece)

/-- The categories that a derivation of a sentence may have, if they are limited, or the mistake in
them. -/
def readRoots (options : ParseOptions) :
    Except Failure (Except ReadError (Option (List Category))) := do
  match options.roots with
  | none => return .ok none
  | some text => return (rootsOf (← demand .roots text)).map some

/-- Whether a derivation may have its category. -/
def admits (roots : Option (List Category)) (d : Derivation) : Bool :=
  match roots, d.category with
  | none, _ => true
  | some cs, some c => cs.contains c
  | some _, none => false

/-- The outcome of the best-first search for a sentence. The number of derivations is needed only if
there is something to search, and the number of steps only if a derivation is asked for; a search
for no derivation shows the former. -/
def bestOutcome (options : ParseOptions) (roots : Option (List Category)) (lexicon : Lexicon)
    (words : List String) : Except Failure (Outcome Float) := do
  let penalty ← demand .penalty options.penalty
  let outcome (count maxSteps : Int) :=
    (search uniformScorer lexicon.lookup ⟨count, maxSteps, penalty, roots⟩ words).mapError
      Failure.search
  let trial ← outcome 0 0
  if trial.ending ≠ .finished then return trial
  let count ← demand .count options.count
  if count ≤ 0 then return trial
  outcome count (← demand .maxSteps options.maxSteps)

/-- The derivations of a sentence in the given mode, and the events on the way. -/
def parseSentence (options : ParseOptions) (roots : Option (List Category)) (lexicon : Lexicon)
    (words : List String) : Except Failure (List (Scored Float) × List Event) :=
  let unscored := fun ds => (ds.filter (admits roots)).map fun d => Scored.mk d (0 : Float)
  match options.mode with
  | .exhaustive =>
    .ok (unscored (parse lexicon.lookup words), parseEvents lexicon.lookup words)
  | .deterministic =>
    .ok (unscored (parseGreedy lexicon.lookup words).toList, greedyEvents lexicon.lookup words)
  | .best => (bestOutcome options roots lexicon words).map fun o => (o.results, o.events)

/-- The derivations of all sentences with the events on the way, up to the sentence at which the run
breaks off. -/
def parseSentences (options : ParseOptions) (roots : Option (List Category)) (lexicon : Lexicon) :
    List (List String) → Except Failure (List (List (Scored Float))) × List Event
  | [] => (.ok [], [])
  | words :: rest =>
    match parseSentence options roots lexicon words with
    | .error e => (.error e, [])
    | .ok (ds, events) =>
      let events := if ds.isEmpty then events ++ [.noDerivation words] else events
      let (results, more) := parseSentences options roots lexicon rest
      (results.map (ds :: ·), events ++ more)

/-- Whether an event is reported: not if it is a detail, and none at all if the run is silent. -/
def isReported (silent : Bool) (e : Event) : Bool :=
  !silent && e.level != .debug

/-- The reports of events. -/
def reports (silent : Bool) (events : List Event) : List Report :=
  (events.filter (isReported silent)).map .event

/-- The results of a run as the list that is reported. -/
def reported (results : List (List (Scored Float))) : List Export.Reported :=
  results.map fun ds => .list (ds.map .scored)

/-- The text that is printed for the results of a run. -/
def print (options : ParseOptions) (results : List (List (Scored Float))) :
    Except Failure String := do
  let format ← demand .format options.format
  match Export.render format options.full
      ((Export.sentences? (reported results)).getD results) with
  | .ok text => .ok (text ++ "\n")
  | .error e => .error (.markup e)

/-- A run that prints nothing. -/
def quiet (rs : List Report) (exit : Exit) : Transcript :=
  ⟨.text "", rs, exit⟩

/-- A run of the `parse` command once lexicon and roots are known. -/
def runSentences (options : ParseOptions) (roots : Option (List Category)) (lexicon : Lexicon)
    (earlier : List Report) (text : String) : Transcript :=
  let ss := sentences text
  let (results, events) := parseSentences options roots lexicon ss
  let rs := earlier ++ reports options.silent (.parsing ss.length :: events)
  match results.bind (print options) with
  | .ok text => ⟨.text text, rs, .status 0⟩
  | .error e => quiet rs (.failed e)

/-- A run of the `parse` command. -/
def runParse (w : Surroundings) (options : ParseOptions) : Transcript :=
  match readLexicon w options with
  | .error e => quiet [] (.failed e)
  | .ok (.error e) => quiet [.text e.message] (.status 1)
  | .ok (.ok (name, lexicon)) =>
    let rs := reports options.silent [.lexiconLoaded lexicon.size name]
    match readRoots options with
    | .error e => quiet rs (.failed e)
    | .ok (.error e) => quiet (rs ++ [.text e.message]) (.status 1)
    | .ok (.ok roots) =>
      match readInput w options with
      | .error e => quiet rs (.failed e)
      | .ok text => runSentences options roots lexicon rs text

/-- A run of the `category` command. -/
def runCategory (expressions : List String) : Transcript :=
  let read := expressions.map Category.parse
  let lines := read.filterMap fun r => r.toOption.map fun c => c.render ++ "\n"
  let errors := read.filterMap fun
    | .ok _ => none
    | .error e => some (Report.text e.message)
  ⟨.text (String.join lines), errors, .status (if errors.isEmpty then 0 else 1)⟩

/-- A run of the program. -/
def run (w : Surroundings) (arguments : List String) : Transcript :=
  match Invocation.ofArguments arguments with
  | .error _ => ⟨.text "", [.usage], .status 2⟩
  | .ok (.help asked) => ⟨.usage, [], if asked then .status 0 else .unasked⟩
  | .ok (.parse options) => runParse w options
  | .ok (.category expressions) => runCategory expressions

end Command

end Categorial
