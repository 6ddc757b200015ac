/-
# YAML nodes

A document as a tree of scalars, lists and maps. Of a scalar it is kept whether it was
written plain, since only a plain one can be a truth value or nothing at all.
-/

namespace HclLint.Yaml

/-- A node of a document. -/
inductive Node where
  | scalar (isPlain : Bool) (text : String)
  | list (items : List Node)
  | map (entries : List (Node × Node))
  deriving Inhabited

namespace Node

/-- The node where nothing is written. -/
def nothing : Node := .scalar true ""

/-- The text of a scalar. -/
def text? : Node → Option String
  | .scalar _ text => some text
  | _ => none

/-- Whether nothing is written. -/
def isVoid : Node → Bool
  | .scalar true text => text.isEmpty
  | _ => false

/-- Whether a node stands for no value. -/
def isNull : Node → Bool
  | .scalar true text => ["", "~", "null", "Null", "NULL"].contains text
  | _ => false

/-- The truth value of a node. -/
def bool? : Node → Option Bool
  | .scalar true text =>
    if ["true", "True", "TRUE"].contains text then some true
    else if ["false", "False", "FALSE"].contains text then some false
    else none
  | _ => none

/-- The texts of a list of scalars. A node without a value is the empty list. -/
def texts? : Node → Option (List String)
  | .list items => items.mapM text?
  | node => if node.isNull then some [] else none

end Node

end HclLint.Yaml
