/-!
# Categories

The syntactic types of a categorial grammar. A category is the variable `X`, an atom such as `NP`
or `S[dcl]`, or a functor that looks for its argument on the side its slash points to. A slash
also has a modality, which says which rules of combination the functor may take part in.

Only the sentence symbol carries a feature, so an atom is either a bare symbol or a clause of a
given form. Two clause forms are written alike, `S[b]`, and stay different categories.

* `substitute_of_closed`: substitution leaves a category without variable as it is.
* `hasVariable_substitute`: a variable remains exactly if both the category and the target have one.
-/

namespace Categorial

/-! ## Symbols -/

/-- The atomic symbols. -/
inductive Primitive
  | sentence
  | noun
  | preposition
  | verb
  | nounPhrase
  | prepositionalPhrase
  | verbPhrase
  deriving DecidableEq, Hashable

namespace Primitive

/-- The symbol as it is written. -/
def symbol : Primitive → String
  | sentence => "S"
  | noun => "N"
  | preposition => "P"
  | verb => "V"
  | nounPhrase => "NP"
  | prepositionalPhrase => "PP"
  | verbPhrase => "VP"

/-- Every primitive, in the order of definition. -/
def all : List Primitive :=
  [sentence, noun, preposition, verb, nounPhrase, prepositionalPhrase, verbPhrase]

/-- The primitive with the given symbol. -/
def ofSymbol? (symbol : String) : Option Primitive :=
  all.find? (·.symbol == symbol)

end Primitive

/-- The forms of a clause. The last six describe the form of the verb that heads it. -/
inductive ClauseForm
  | declarative
  | whQuestion
  | yesNoQuestion
  | embeddedQuestion
  | embeddedSentence
  | subjunctiveEmbedded
  | subjunctive
  | fragment
  | forClause
  | interjection
  | ellipticalInversion
  | adjective
  | bareInfinitive
  | toInfinitive
  | passiveParticiple
  | activeParticiple
  | presentParticiple
  deriving DecidableEq, Hashable

namespace ClauseForm

/-- The form as it is written between the brackets. -/
def symbol : ClauseForm → String
  | declarative => "dcl"
  | whQuestion => "wq"
  | yesNoQuestion => "q"
  | embeddedQuestion => "qem"
  | embeddedSentence => "em"
  | subjunctiveEmbedded => "bem"
  | subjunctive => "b"
  | fragment => "frg"
  | forClause => "for"
  | interjection => "intj"
  | ellipticalInversion => "inv"
  | adjective => "adj"
  | bareInfinitive => "b"
  | toInfinitive => "to"
  | passiveParticiple => "pss"
  | activeParticiple => "pt"
  | presentParticiple => "ng"

/-- Whether the form is that of a verb and not of the clause as a whole. -/
def isLexical : ClauseForm → Bool
  | adjective | bareInfinitive | toInfinitive => true
  | passiveParticiple | activeParticiple | presentParticiple => true
  | _ => false

/-- Every form, those of the whole clause first. -/
def all : List ClauseForm :=
  [declarative, whQuestion, yesNoQuestion, embeddedQuestion, embeddedSentence,
    subjunctiveEmbedded, subjunctive, fragment, forClause, interjection, ellipticalInversion,
    adjective, bareInfinitive, toInfinitive, passiveParticiple, activeParticiple,
    presentParticiple]

/-- The form with the given symbol; of two forms written alike, that of the whole clause. -/
def ofSymbol? (symbol : String) : Option ClauseForm :=
  all.find? (·.symbol == symbol)

end ClauseForm

/-! ## Slashes -/

/-- The side on which a functor looks for its argument. -/
inductive Direction
  | forward
  | backward
  deriving DecidableEq, Hashable

namespace Direction

/-- The slash that points to the side. -/
def symbol : Direction → String
  | forward => "/"
  | backward => "\\"

/-- The other side. -/
def inverse : Direction → Direction
  | forward => backward
  | backward => forward

@[simp] theorem inverse_inverse (d : Direction) : d.inverse.inverse = d := by
  cases d <;> rfl

end Direction

/-- The modality of a slash: the rules of combination that a functor may take part in. -/
inductive Modality
  /-- No composition at all. -/
  | applicationOnly
  /-- Harmonic composition. -/
  | orderPreserving
  /-- Crossing composition. -/
  | permutationLimiting
  /-- Harmonic composition; the modality of a bare slash. -/
  | permissive
  /-- The modality of the slashes that type raising makes. -/
  | raising
  deriving DecidableEq, Hashable

namespace Modality

/-- The modality as it is written behind the slash. -/
def symbol : Modality → String
  | applicationOnly => "★"
  | orderPreserving => "◇"
  | permutationLimiting => "×"
  | permissive => ""
  | raising => "𝑖"

/-- The modality as records of a category call it. -/
def name : Modality → String
  | applicationOnly => "APPLICATION_ONLY"
  | orderPreserving => "ORDER_PRESERVING"
  | permutationLimiting => "PERMUTATION_LIMITING"
  | permissive => "PERMISSIVE"
  | raising => "VARIABLE"

/-- Whether the modality allows harmonic composition. -/
def isHarmonic : Modality → Bool
  | permissive | orderPreserving => true
  | _ => false

end Modality

/-- A slash with its modality. -/
structure Slash where
  direction : Direction
  modality : Modality
  deriving DecidableEq, Hashable

/-! ## Atoms and categories -/

/-- An atomic category. Only sentences have a form. -/
inductive Atom
  | bare (base : Primitive)
  | clause (form : ClauseForm)
  deriving DecidableEq, Hashable

/-- A feature on a symbol that carries none. -/
structure FeatureError where
  base : Primitive
  form : ClauseForm

namespace Atom

/-- The symbol of the atom. -/
def base : Atom → Primitive
  | bare b => b
  | clause _ => .sentence

/-- The feature of the atom. -/
def form? : Atom → Option ClauseForm
  | bare _ => none
  | clause f => some f

/-- The atom with the given symbol and feature. -/
def ofParts : Primitive → Option ClauseForm → Except FeatureError Atom
  | b, none => .ok (bare b)
  | .sentence, some f => .ok (clause f)
  | b, some f => .error ⟨b, f⟩

theorem ofParts_base_form? (a : Atom) :
    (ofParts a.base a.form?).toOption = some a := by
  cases a <;> rfl

end Atom

/-- A category of the grammar. -/
inductive Category
  | var
  | atom (a : Atom)
  | functor (result : Category) (slash : Slash) (argument : Category)
  deriving DecidableEq, Hashable

namespace Category

/-- The sentence symbol. -/
def s : Category := atom (.bare .sentence)

/-- The noun symbol. -/
def n : Category := atom (.bare .noun)

/-- The noun phrase symbol. -/
def np : Category := atom (.bare .nounPhrase)

/-- The prepositional phrase symbol. -/
def pp : Category := atom (.bare .prepositionalPhrase)

/-- The functor `result/argument` with a bare slash. -/
def forward (result argument : Category) : Category :=
  functor result ⟨.forward, .permissive⟩ argument

/-- The functor `result\argument` with a bare slash. -/
def backward (result argument : Category) : Category :=
  functor result ⟨.backward, .permissive⟩ argument

/-- Whether the category takes an argument. -/
def isFunctor : Category → Bool
  | functor .. => true
  | _ => false

/-- Whether the category is the variable. -/
def isVariable : Category → Bool
  | var => true
  | _ => false

/-- The slash in front of the outermost argument. -/
def slash? : Category → Option Slash
  | functor _ d _ => some d
  | _ => none

/-- The number of arguments up to the innermost result. -/
def arity : Category → Nat
  | functor r _ _ => r.arity + 1
  | _ => 0

/-- Whether the variable occurs in the category. -/
def hasVariable : Category → Bool
  | var => true
  | atom _ => false
  | functor r _ x => r.hasVariable || x.hasVariable

/-- The category with the target for every occurrence of the variable. -/
def substitute : Category → Category → Category
  | var, target => target
  | atom a, _ => atom a
  | functor r d x, target => functor (r.substitute target) d (x.substitute target)

theorem substitute_of_closed (target : Category) {c : Category} (h : c.hasVariable = false) :
    c.substitute target = c := by
  induction c with
  | var => cases h
  | atom => rfl
  | functor r d x ihr ihx =>
    simp only [hasVariable, Bool.or_eq_false_iff] at h
    rw [substitute, ihr h.1, ihx h.2]

theorem hasVariable_substitute (target c : Category) :
    (c.substitute target).hasVariable = (c.hasVariable && target.hasVariable) := by
  induction c with
  | var => rfl
  | atom => rfl
  | functor r d x ihr ihx =>
    simp only [substitute, hasVariable, ihr, ihx, Bool.and_or_distrib_right]

end Category

end Categorial
