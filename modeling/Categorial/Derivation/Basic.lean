import Categorial.Category.Printer
import Categorial.Grammar.Raising
import Categorial.Text.Quoted

/-!
# Derivations

A derivation is a word with one of its categories, a raised category, or two derivations combined
by a rule. A raised category records its source and the right neighbour it is raised against, and
as a rule also the derivation of its source. The category of a derivation is computed from its
parts; a derivation whose rule does not apply to its parts has none.

* `category_node`: the category of a combination, from those of its parts.
* `leaves_ne_nil`: a derivation has a leaf.
-/

namespace Categorial

/-- A derivation, licensed by the grammar or not. -/
inductive Derivation
  /-- A word with one of its categories. -/
  | leaf (category : Category) (word : Option String)
  /-- A raised category without the derivation of its source. -/
  | raisedLeaf (source neighbor : Category)
  /-- A raised category above the derivation of its source. -/
  | raised (source neighbor : Category) (child : Derivation)
  /-- Two derivations combined by a rule. -/
  | node (rule : Rule) (left right : Derivation)
  deriving DecidableEq, Hashable

/-- A derivation with the logarithm of its probability. -/
structure Scored (α : Type) where
  derivation : Derivation
  score : α

namespace Derivation

/-- The category of a derivation, if its rules apply to their parts. -/
def category : Derivation → Option Category
  | leaf c _ => some c
  | raisedLeaf x y => raiseAgainst x y
  | raised x y _ => raiseAgainst x y
  | node r left right => do combine r (← left.category) (← right.category)

theorem category_node (r : Rule) (left right : Derivation) :
    (node r left right).category =
      left.category.bind fun x => right.category.bind fun y => combine r x y :=
  rfl

/-! ## Shape -/

/-- The immediate parts of a derivation. -/
def children : Derivation → List Derivation
  | leaf .. | raisedLeaf .. => []
  | raised _ _ child => [child]
  | node _ left right => [left, right]

/-- Whether a derivation has no parts. -/
def isLeaf (d : Derivation) : Bool :=
  d.children.isEmpty

/-- Whether a derivation has exactly one part. -/
def isUnary (d : Derivation) : Bool :=
  d.children.length == 1

/-- The parts without parts of their own, from left to right. -/
def leaves : Derivation → List Derivation
  | raised _ _ child => child.leaves
  | node _ left right => left.leaves ++ right.leaves
  | d => [d]

theorem leaves_ne_nil (d : Derivation) : d.leaves ≠ [] := by
  induction d with
  | leaf | raisedLeaf => simp [leaves]
  | raised _ _ _ ih => exact ih
  | node _ _ _ ihl _ => simp [leaves, ihl]

/-- The word of a leaf. -/
def token : Derivation → Option String
  | leaf _ w => w
  | _ => none

/-- The words of the leaves; a leaf may be without a word. -/
def words (d : Derivation) : List (Option String) :=
  d.leaves.map token

/-- A word as it is shown, with `_` for a missing or empty one. -/
def shownWord : Option String → String
  | none => "_"
  | some w => if w = "" then "_" else w

/-- The words of the leaves as they are shown, with a space between two of them. -/
def sentence (d : Derivation) : String :=
  " ".intercalate (d.words.map shownWord)

/-- The word that stands for a derivation: that of a leaf with its absence, else the sentence. -/
def word : Derivation → Option String
  | leaf _ w => w
  | d => some d.sentence

/-- A missing part of a derivation. -/
inductive PartError
  | noChild
  | noRightChild
  deriving DecidableEq

/-- What is missing, in words. -/
def PartError.message : PartError → String
  | noChild => "This node is leaf and does not have any child!"
  | noRightChild => "This node does not have right child!"

/-- The first part. -/
def leftChild (d : Derivation) : Except PartError Derivation :=
  match d.children with
  | [] => .error .noChild
  | left :: _ => .ok left

/-- The second part. -/
def rightChild (d : Derivation) : Except PartError Derivation :=
  match d.children with
  | [] => .error .noChild
  | [_] => .error .noRightChild
  | _ :: right :: _ => .ok right

/-- Where the head of a derivation is found. -/
inductive Head
  | itself
  | left
  | right
  deriving DecidableEq

/-- The head of a derivation: for a binary rule the part with the functor that the rule is named
after, else the derivation itself. -/
def head : Derivation → Head
  | node r _ _ => if r.isTypeRaising then .itself else if r.isForward then .left else .right
  | _ => .itself

/-- Whether the left part counts as the head in printed trees. -/
def headIsLeft : Derivation → Bool
  | node r _ _ => r.isForward
  | _ => true

/-- The short name of the step that ends the derivation. -/
def code : Derivation → String
  | leaf .. => "lex"
  | raisedLeaf .. | raised .. => Rule.code .forwardTypeRaise
  | node r _ _ => r.code

/-- The sign of the step that ends the derivation. -/
def symbol : Derivation → String
  | leaf .. => "<lex>"
  | raisedLeaf .. | raised .. => Rule.symbol .forwardTypeRaise
  | node r _ _ => r.symbol

/-! ## Written forms -/

/-- The written form of a category that may be missing. -/
def renderCategory? : Option Category → String
  | none => "?"
  | some c => c.render

/-- The label of a raised category: its source and what becomes of it. -/
def raisedLabel (x y : Category) : String :=
  x.render ++ Rule.symbol .forwardTypeRaise ++ renderCategory? (raiseAgainst x y)

/-- The label of a derivation: its category, and for a raised one also its source. -/
def label : Derivation → String
  | raisedLeaf x y => raisedLabel x y
  | raised x y _ => raisedLabel x y
  | d => renderCategory? d.category

/-- The derivation in one line: labels, and in brackets the parts and the sign of each rule. -/
def outline : Derivation → String
  | node r left right =>
    "(" ++ left.outline ++ ";" ++ right.outline ++ "--" ++ r.symbol ++
      (node r left right).label ++ ")"
  | d => d.label

/-- The derivation as a term over its constructors. -/
def term : Derivation → String
  | leaf c w => "Leaf(" ++ c.render ++ ", " ++ (w.map Text.quote).getD "None" ++ ")"
  | raisedLeaf x y => "RaisedLeaf(" ++ x.render ++ ", " ++ y.render ++ ")"
  | raised x y _ => "RaisedLeaf(" ++ x.render ++ ", " ++ y.render ++ ")"
  | node r left right => "Node(" ++ left.term ++ ", " ++ right.term ++ ", " ++ r.name ++ ")"

end Derivation

end Categorial
