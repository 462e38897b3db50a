import Categorial.Category.Printer
import Categorial.Grammar.Rule

/-!
# Events

What the parsers and the command line report while they work, apart from their results. An event
has a level, the channel on which it is reported, and a wording. Giving up is the only warning.

* `Event.line`: an event as a line of a protocol.
-/

namespace Categorial

/-- How much an event matters. -/
inductive Level
  | debug
  | info
  | warning
  deriving DecidableEq

/-- The level as reports name it. -/
def Level.name : Level → String
  | debug => "DEBUG"
  | info => "INFO"
  | warning => "WARNING"

/-- The part of the program that reports an event. -/
inductive Channel
  | chart
  | search
  | lexicon
  | command
  deriving DecidableEq

/-- The channel as reports name it. -/
def Channel.name : Channel → String
  | chart => "easierccg.chart"
  | search => "easierccg.astar"
  | lexicon => "easierccg.lexicon"
  | command => "easierccg.__main__"

/-- Something worth a report. -/
inductive Event
  /-- A word without categories, found by the parser of the given channel. -/
  | unknownWord (channel : Channel) (word : String)
  /-- A span of at least two words has been filled with so many derivations. -/
  | spanFilled (start stop count : Nat)
  /-- Of several rules for two categories the first was chosen. -/
  | ambiguous (left right : Category) (chosen : Rule) (others : List Rule)
  /-- The search was cut off after so many steps. -/
  | gaveUp (steps : Nat)
  /-- The search has ended with so many derivations. -/
  | searched (found steps : Nat)
  /-- A lexicon of so many words was read from a file. -/
  | lexiconLoaded (size : Nat) (file : String)
  /-- So many sentences are going to be parsed. -/
  | parsing (count : Nat)
  /-- A sentence without derivation. -/
  | noDerivation (words : List String)
  deriving DecidableEq

namespace Event

/-- The level of an event. -/
def level : Event → Level
  | unknownWord .. | lexiconLoaded .. | parsing .. | noDerivation .. => .info
  | spanFilled .. | ambiguous .. | searched .. => .debug
  | gaveUp .. => .warning

/-- The channel of an event. -/
def channel : Event → Channel
  | unknownWord c _ => c
  | spanFilled .. | ambiguous .. => .chart
  | gaveUp .. | searched .. => .search
  | lexiconLoaded .. => .lexicon
  | parsing .. | noDerivation .. => .command

/-- The wording of an event. -/
def message : Event → String
  | unknownWord _ word => "no lexical entry for word: " ++ word
  | spanFilled i j n =>
    "span (" ++ toString i ++ ", " ++ toString j ++ "): " ++ toString n ++ " derivations"
  | ambiguous x y chosen others =>
    "ambiguous combination of " ++ x.render ++ " and " ++ y.render ++ ": choosing " ++
      chosen.name ++ " over " ++ ", ".intercalate (others.map Rule.name)
  | gaveUp n => "giving up parsing after " ++ toString n ++ " steps"
  | searched found n =>
    "found " ++ toString found ++ " derivations in " ++ toString n ++ " steps"
  | lexiconLoaded n file => "loaded " ++ toString n ++ " words from " ++ file
  | parsing n => "parsing " ++ toString n ++ " sentences"
  | noDerivation words => "no derivation for: " ++ " ".intercalate words

/-- The event as a line of a protocol, at the given time. -/
def line (e : Event) (time : String) : String :=
  time ++ " - " ++ e.level.name ++ " - " ++ e.channel.name ++ " - " ++ e.message

end Event

end Categorial
