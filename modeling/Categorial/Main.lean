import Std.Time.Format
import Categorial.Command.Run

/-!
# Command line

The program: it reads the files and the standard input that a run needs, and prints what the run
prints and reports.
-/

namespace Categorial

/-- How the program is used. -/
def usageText : String :=
  "usage: easierccg [-h] \x7bparse,category\x7d ..."

/-- The time as reports show it. -/
def timeStamp : IO String := do
  let now ← Std.Time.PlainDateTime.now
  return now.format "uuuu-MM-dd HH:mm:ss,SSS"

/-- The names of the files that the arguments mention, and whether the standard input is needed. -/
def neededInputs (arguments : List String) : List String × Bool :=
  match Invocation.ofArguments arguments with
  | .ok (.parse options) =>
    (options.lexicon.toList ++ options.input.join.toList, options.input.isNone)
  | _ => ([], false)

/-- The content of the file of the given name. -/
def readFile (name : String) : IO (Except FileError ByteArray) := do
  try
    return .ok (← IO.FS.readBinFile name)
  catch
    | .inappropriateType none .. => return .error .directory
    | .inappropriateType .. => return .error .notDirectory
    | _ => return .error .missing

/-- The contents of the files of the given names. -/
def readFiles (names : List String) : IO (List (String × Except FileError ByteArray)) :=
  names.mapM fun name => return (name, ← readFile name)

/-- The lines of a report. -/
def reportText : Report → IO String
  | .event e => return e.line (← timeStamp)
  | .text t => return t
  | .usage => return usageText

/-- Why a run breaks off, in words. -/
def failureText (e : Failure) : String :=
  e.message.getD <| match e with
    | .noValue _ => "an option has no value"
    | .unreadable (.notCategories word) => "no categories for word: " ++ word
    | _ => "the text is not valid UTF-8"

/-- The status with which a run ends; a run that breaks off says why. -/
def exitStatus : Exit → IO UInt32
  | .status n => return n.toUInt32
  | .unasked => return 0
  | .failed e => do
    IO.eprintln (failureText e)
    return 1

end Categorial

open Categorial in
/-- Runs the program with its arguments. -/
def main (arguments : List String) : IO UInt32 := do
  let (names, needsInput) := neededInputs arguments
  let files ← readFiles names
  let input ← if needsInput then (← IO.getStdin).readBinToEnd else pure .empty
  let w : Surroundings := ⟨fun name => (files.lookup name).getD (.error .missing), input⟩
  let t := Command.run w arguments
  for r in t.reports do
    IO.eprintln (← reportText r)
  match t.printed with
  | .text s => IO.print s
  | .usage => IO.println usageText
  exitStatus t.exit
