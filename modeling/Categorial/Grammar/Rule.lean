/-!
# Rules

The names of the rules by which a derivation grows: application and composition, each forward and
backward, and type raising. Application and composition combine two neighbours.

* `mem_binary_iff`: the rules that combine two neighbours are all but the two of type raising.
-/

namespace Categorial

/-- The rules of the grammar. -/
inductive Rule
  | forwardApply
  | backwardApply
  | forwardCompose
  | backwardCompose
  | forwardCrossCompose
  | backwardCrossCompose
  | forwardTypeRaise
  | backwardTypeRaise
  deriving DecidableEq, Hashable

namespace Rule

/-- The short name of the rule in the records of a derivation. -/
def code : Rule → String
  | forwardApply => "fa"
  | backwardApply => "ba"
  | forwardCompose => "fc"
  | backwardCompose => "bc"
  | forwardCrossCompose => "fx"
  | backwardCrossCompose => "bx"
  | forwardTypeRaise => "ftr"
  | backwardTypeRaise => "btr"

/-- The sign of the rule in a drawn derivation. -/
def symbol : Rule → String
  | forwardApply => ">"
  | backwardApply => "<"
  | forwardCompose => ">B"
  | backwardCompose => "<B"
  | forwardCrossCompose => ">Bx"
  | backwardCrossCompose => "<Bx"
  | forwardTypeRaise => ">T"
  | backwardTypeRaise => "<T"

/-- The full name of the rule. -/
def name : Rule → String
  | forwardApply => "FORWARD_APPLY"
  | backwardApply => "BACKWARD_APPLY"
  | forwardCompose => "FORWARD_COMPOSE"
  | backwardCompose => "BACKWARD_COMPOSE"
  | forwardCrossCompose => "FORWARD_CROSS_COMPOSE"
  | backwardCrossCompose => "BACKWARD_CROSS_COMPOSE"
  | forwardTypeRaise => "FORWARD_TYPE_RAISE"
  | backwardTypeRaise => "BACKWARD_TYPE_RAISE"

/-- Whether the rule is one of the forward rules, in which the left part is the head. -/
def isForward : Rule → Bool
  | forwardApply | forwardCompose | forwardCrossCompose | forwardTypeRaise => true
  | _ => false

/-- Whether the rule raises the type of a single category. -/
def isTypeRaising : Rule → Bool
  | forwardTypeRaise | backwardTypeRaise => true
  | _ => false

/-- Application and harmonic composition, in the order in which they are tried. -/
def basic : List Rule :=
  [forwardApply, backwardApply, forwardCompose, backwardCompose]

/-- The rules that combine two neighbours, in the order in which they are tried. -/
def binary : List Rule :=
  basic ++ [forwardCrossCompose, backwardCrossCompose]

theorem mem_binary_iff (r : Rule) : r ∈ binary ↔ r.isTypeRaising = false := by
  cases r <;> decide

end Rule

end Categorial
