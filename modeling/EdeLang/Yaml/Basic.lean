/-!
# YAML nodes

A document is one node: a scalar, a list or a map. A scalar keeps how it was written, since only
a plain one can stand for a number or a truth value.
-/

namespace EdeLang

/-- How a scalar is written. -/
inductive Yaml.Style where
  | plain
  | quoted
  | literal
  | folded
deriving DecidableEq, Repr

/-- A node of a document. -/
inductive Yaml where
  | scalar (style : Yaml.Style) (tag : Option String) (text : String)
  | list (items : List Yaml)
  | map (entries : List (Yaml × Yaml))
  /-- A reference to a node from inside that node. -/
  | cycle
deriving Inhabited

namespace Yaml

/-- The node where nothing is written. -/
def empty : Yaml := .scalar .plain none ""

/-- Nothing is written, properties apart. -/
def isEmpty : Yaml → Bool
  | .scalar .plain _ text => text == ""
  | _ => false

/-- The text of any scalar. -/
def text? : Yaml → Option String
  | .scalar _ _ text => some text
  | _ => none

/-- The text of a scalar that can stand for a value of the type with the given tag: plain, or
literal and tagged so. -/
def valueText? (type : String) : Yaml → Option String
  | .scalar .plain _ text => some text
  | .scalar .literal (some tag) text => if tag = type then some text else none
  | _ => none

end Yaml
end EdeLang
