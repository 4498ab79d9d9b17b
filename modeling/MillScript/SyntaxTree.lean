import MillScript.Location

/-! # Syntax trees

    The tree of a script as written: every node carries the rule it comes
    from, its text if it is a leaf, and its position.  A chain of operands
    with one operand is that operand, and parentheses leave no node. -/

namespace MillScript

/-- The rule of the grammar that a node comes from. -/
inductive Rule where
  | program
  | forLoop
  | block
  | statement
  | assign
  | sum
  | product
  | negation
  | power
  | factorial
  | call
  | params
  | positionalParam
  | namedParam
  | string
  | unitlessNumber
  | unitNumber
  | identifier
  | operator
deriving DecidableEq

namespace Rule

/-- The name of the rule in listings and messages. -/
def name : Rule → String
  | .program => "program"
  | .forLoop => "forLoop"
  | .block => "block"
  | .statement => "statement"
  | .assign => "assign"
  | .sum => "mathExpr"
  | .product => "term"
  | .negation => "negation"
  | .power => "power"
  | .factorial => "factorial"
  | .call => "funcCall"
  | .params => "params"
  | .positionalParam => "positionalParam"
  | .namedParam => "namedParam"
  | .string => "string"
  | .unitlessNumber => "unitless_number"
  | .unitNumber => "unit_number"
  | .identifier => "ident"
  | .operator => "operator"

/-- All rules. -/
def all : List Rule :=
  [.program, .forLoop, .block, .statement, .assign, .sum, .product, .negation, .power,
    .factorial, .call, .params, .positionalParam, .namedParam, .string, .unitlessNumber,
    .unitNumber, .identifier, .operator]

/-- The rule of a name. -/
def ofName? (text : String) : Option Rule :=
  all.find? fun r => r.name == text

end Rule

/-- A node with its children.  Text and unit are those of a leaf and empty
    elsewhere. -/
structure Tree where
  rule : Rule
  text : String
  unit : String
  location : Location
  children : List Tree

namespace Tree

/-- An inner node. -/
def node (rule : Rule) (location : Location) (children : List Tree) : Tree :=
  ⟨rule, "", "", location, children⟩

mutual

/-- All nodes of a tree with their depths, parents before children. -/
def preorder (depth : Nat) : Tree → List (Nat × Tree)
  | ⟨rule, text, unit, location, children⟩ =>
    (depth, ⟨rule, text, unit, location, children⟩) :: preorderAll (depth + 1) children

/-- The nodes of several trees one after the other. -/
def preorderAll (depth : Nat) : List Tree → List (Nat × Tree)
  | [] => []
  | t :: ts => preorder depth t ++ preorderAll depth ts

end

/-- The bars in front of a node of the listing. -/
def indentation : Nat → String
  | 0 => ""
  | depth + 1 => String.join (List.replicate depth "|    ") ++ "|----"

/-- One line of the listing: a node without children shows its text. -/
def outlineLine (depth : Nat) (t : Tree) : String :=
  indentation depth ++ t.rule.name
    ++ (if t.children.isEmpty then ": " ++ t.text ++ t.unit else "") ++ "\n"

/-- The listing of a tree, one line per node. -/
def outline (t : Tree) : String :=
  String.join ((preorder 0 t).map fun (depth, n) => outlineLine depth n)

end Tree

end MillScript
