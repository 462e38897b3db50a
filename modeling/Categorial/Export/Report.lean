import Categorial.Decimal.Shortest
import Categorial.Export.Auto
import Categorial.Export.Bracketed
import Categorial.Export.Diagram
import Categorial.Export.Markup
import Categorial.Export.Record
import Categorial.Json.Writer

/-!
# Reports

The derivations of several sentences as one text, in one of six formats. In JSON and XML the text is
one document; in the other formats each derivation follows a line with the number of its sentence
and its score.

What is reported is either a list of the derivations of one sentence or a list with such a list for
each sentence; the list without elements counts as one sentence without derivations.

* `sentences?`: which of the two a list is.
* `report`: the text of a list in the format of a given name.
-/

namespace Categorial.Export

/-- The formats of a report. -/
inductive Format
  | auto
  | autoExtended
  | diagram
  | bracketed
  | json
  | xml
  deriving DecidableEq

namespace Format

/-- The name by which a format is chosen. -/
def name : Format → String
  | auto => "auto"
  | autoExtended => "auto_extended"
  | diagram => "deriv"
  | bracketed => "ptb"
  | json => "json"
  | xml => "xml"

/-- Every format. -/
def all : List Format :=
  [auto, autoExtended, diagram, bracketed, json, xml]

/-- The format of a name. -/
def ofName? (name : String) : Option Format :=
  all.find? (·.name == name)

end Format

/-- An element of what is to be reported. -/
inductive Reported
  | scored (d : Scored Float)
  | unscored (d : Derivation)
  | list (elements : List Reported)

/-- Why there is no report. -/
inductive ReportError
  | wrongElements
  | unknownFormat (name : String)
  | markup (e : MarkupError)

/-- What is wrong, in words. -/
def ReportError.message : ReportError → String
  | wrongElements => "invalid argument type for stringifying trees"
  | unknownFormat name => "unsupported format type: " ++ name
  | markup e => e.message

/-- The derivation with its score, if the element is one. -/
def Reported.scored? : Reported → Option (Scored Float)
  | scored d => some d
  | _ => none

/-- The derivations of a sentence, if the element is a list of them. -/
def Reported.sentence? : Reported → Option (List (Scored Float))
  | list elements => elements.mapM Reported.scored?
  | _ => none

/-- The derivations of each sentence. -/
def sentences? (elements : List Reported) : Option (List (List (Scored Float))) :=
  match elements.mapM Reported.scored? with
  | some ds => some [ds]
  | none => elements.mapM Reported.sentence?

/-- A score as a JSON number. -/
def scoreNumber (x : Float) : Json :=
  .number <| match Decimal.decode x with
    | .notANumber => "NaN"
    | .infinite negative => Decimal.sign negative ++ "Infinity"
    | .finite .. => Decimal.render x

/-- A derivation with its score as a JSON object. -/
def scoredRecord (full : Bool) (d : Scored Float) : Json :=
  .object (recordMembers full d.derivation ++ [("log_prob", scoreNumber d.score)])

/-- The derivations of each sentence as a JSON object, by the number of the sentence. -/
def records (full : Bool) (sentences : List (List (Scored Float))) : Json :=
  .object ((sentences.zipIdx 1).map fun (ds, k) =>
    (toString k, .array (ds.map (scoredRecord full))))

/-- The line in front of a derivation. -/
def header (sentence : Nat) (score : Float) : String :=
  "ID=" ++ toString sentence ++ ", log probability=" ++ Decimal.renderFixed 8 score

/-- The derivations of each sentence, each behind a line with number and score. -/
def listing (format : Derivation → String) (sentences : List (List (Scored Float))) : String :=
  String.join ((sentences.zipIdx 1).flatMap fun (ds, k) =>
    ds.map fun d => header k d.score ++ "\n" ++ format d.derivation ++ "\n")

/-- The text of the derivations of each sentence in a format. -/
def render (format : Format) (full : Bool) (sentences : List (List (Scored Float))) :
    Except MarkupError String :=
  match format with
  | .auto => .ok (listing auto sentences)
  | .autoExtended => .ok (listing autoExtended sentences)
  | .diagram => .ok (listing diagram sentences)
  | .bracketed => .ok (listing bracketed sentences)
  | .json => .ok (records full sentences).render
  | .xml => (markup sentences).map Xml.Element.render

/-- The text of a list in the format of a given name. -/
def report (format : String) (full : Bool) (elements : List Reported) :
    Except ReportError String :=
  match sentences? elements with
  | none => .error .wrongElements
  | some sentences =>
    match Format.ofName? format with
    | none => .error (.unknownFormat format)
    | some f => (render f full sentences).mapError .markup

end Categorial.Export
